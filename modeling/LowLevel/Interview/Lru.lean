import Mathlib.Algebra.Order.Group.Int
import LowLevel.Basis.OrderedDict

namespace LowLevel.Interview.Lru

open Basis.OrderedDict

/-- What the cache asks of its values: their truth value, and which of them
is the integer -1. -/
class PyValue (V : Type*) where
  truthy : V → Bool
  minusOne : V

instance : PyValue ℤ := ⟨fun v ↦ v ≠ 0, -1⟩

inductive PyError
  | valueError (msg : String)
  | keyError
  | stopIteration
  deriving DecidableEq, Repr

structure LRUCache (K V : Type*) where
  cache : Dict K V
  length : ℤ
  capacity : ℤ

inductive Op (K V : Type*)
  | get (key : K)
  | put (key : K) (value : V)

variable {K V : Type*}

def init (capacity : ℤ) : Except PyError (LRUCache K V) :=
  if capacity < 1 then .error (.valueError "Minimum capacity of 1 required")
  else .ok ⟨.empty, 0, capacity⟩

variable [DecidableEq K]

/-- `not res` holds of a missing key and of every falsy value alike. -/
def get [PyValue V] (c : LRUCache K V) (key : K) : Except PyError (V × LRUCache K V) :=
  match c.cache.get? key with
  | none => .ok (PyValue.minusOne, c)
  | some res =>
    if PyValue.truthy res = false then .ok (PyValue.minusOne, c)
    else match c.cache.pop? key with
      | none => .error .keyError
      | some (value, cache) => .ok (value, { c with cache := cache.set key value })

def put (c : LRUCache K V) (key : K) (value : V) : Except PyError (LRUCache K V) :=
  if key ∉ c.cache.keys then
    if c.length = c.capacity then
      match c.cache.next? with
      | none => .error .stopIteration
      | some lrKey =>
        match c.cache.pop? lrKey with
        | none => .error .keyError
        | some (_, cache) => .ok { c with cache := cache.set key value }
    else .ok { c with length := c.length + 1, cache := c.cache.set key value }
  else
    match c.cache.pop? key with
    | none => .error .keyError
    | some (_, cache) => .ok { c with cache := cache.set key value }

variable [PyValue V]

def exec (c : LRUCache K V) : Op K V → Except PyError (Option V × LRUCache K V)
  | .get key => (get c key).map (fun r ↦ (some r.1, r.2))
  | .put key value => (put c key value).map (fun c' ↦ (none, c'))

def run (c : LRUCache K V) : List (Op K V) → Except PyError (LRUCache K V)
  | [] => .ok c
  | op :: ops =>
    match exec c op with
    | .error e => .error e
    | .ok (_, c') => run c' ops

def trace (c : LRUCache K V) : List (Op K V) → Except PyError (List (Option V × List K))
  | [] => .ok []
  | op :: ops =>
    match exec c op with
    | .error e => .error e
    | .ok (out, c') => (trace c' ops).map ((out, c'.cache.keys) :: ·)

/-- The reference: a list of entries, least recently used first. -/
def refGet (ref : List (K × V)) (key : K) : V × List (K × V) :=
  match ref.lookup key with
  | none => (PyValue.minusOne, ref)
  | some value => (value, Dict.without ref key ++ [(key, value)])

omit [PyValue V] in
/-- An absent key put into a full list drops the least recent entry. -/
def refPut (capacity : ℤ) (ref : List (K × V)) (key : K) (value : V) : List (K × V) :=
  match ref.lookup key with
  | some _ => Dict.without ref key ++ [(key, value)]
  | none => if ref.length = capacity then ref.tail ++ [(key, value)] else ref ++ [(key, value)]

def refExec (capacity : ℤ) (ref : List (K × V)) : Op K V → Option V × List (K × V)
  | .get key => (some (refGet ref key).1, (refGet ref key).2)
  | .put key value => (none, refPut capacity ref key value)

def refTrace (capacity : ℤ) (ref : List (K × V)) : List (Op K V) → List (Option V × List K)
  | [] => []
  | op :: ops =>
    ((refExec capacity ref op).1, (refExec capacity ref op).2.map Prod.fst) ::
      refTrace capacity (refExec capacity ref op).2 ops

structure Good (c : LRUCache K V) : Prop where
  length : c.length = c.cache.entries.length
  le : c.length ≤ c.capacity
  pos : 1 ≤ c.capacity

omit [DecidableEq K] [PyValue V] in
theorem init_good {capacity : ℤ} (h : 1 ≤ capacity) :
    ∃ c : LRUCache K V, init capacity = .ok c ∧ c.cache.entries = [] ∧ c.capacity = capacity ∧
      Good c := by
  refine ⟨⟨.empty, 0, capacity⟩, ?_, rfl, rfl, rfl, ?_, h⟩
  · have hlt : ¬ capacity < 1 := by omega
    simp [init, hlt]
  · dsimp only
    omega

theorem get_miss {c : LRUCache K V} {key : K} (h : c.cache.get? key = none) :
    get c key = .ok (PyValue.minusOne, c) := by
  simp [get, h]

theorem get_falsy {c : LRUCache K V} {key : K} {value : V} (h : c.cache.get? key = some value)
    (ht : PyValue.truthy value = false) : get c key = .ok (PyValue.minusOne, c) := by
  simp [get, h, ht]

theorem get_hit {c : LRUCache K V} {key : K} {value : V} (h : c.cache.get? key = some value)
    (ht : PyValue.truthy value = true) :
    get c key = .ok (value, { c with cache := (c.cache.erase key).set key value }) := by
  simp [get, h, ht, Dict.pop?_of_get? h]

omit [PyValue V] in
theorem length_touch {d : Dict K V} {key : K} {old : V} (h : d.get? key = some old) (value : V) :
    (Dict.without d.entries key ++ [(key, value)]).length = d.entries.length := by
  have hmem : key ∈ d.keys := (d.mem_keys_iff key).mpr ⟨old, h⟩
  rw [List.length_append]
  exact Dict.length_without d.nodup hmem

omit [PyValue V] in
theorem Good.touch {c : LRUCache K V} (hc : Good c) {key : K} {old : V}
    (h : c.cache.get? key = some old) (value : V) :
    Good { c with cache := (c.cache.erase key).set key value } where
  length := by
    rw [hc.length]
    exact_mod_cast (congrArg List.length (c.cache.erase_set key value)).trans
      (length_touch h value) |>.symm
  le := hc.le
  pos := hc.pos

def getEntries (l : List (K × V)) (key : K) : List (K × V) :=
  match l.lookup key with
  | none => l
  | some value => if PyValue.truthy value then Dict.without l key ++ [(key, value)] else l

def getValue (l : List (K × V)) (key : K) : V :=
  match l.lookup key with
  | none => PyValue.minusOne
  | some value => if PyValue.truthy value then value else PyValue.minusOne

theorem get_spec {c : LRUCache K V} (hc : Good c) (key : K) :
    ∃ c', get c key = .ok (getValue c.cache.entries key, c') ∧ Good c' ∧
      c'.capacity = c.capacity ∧ c'.length = c.length ∧
      c'.cache.entries = getEntries c.cache.entries key := by
  cases hget : c.cache.get? key with
  | none =>
    have hlook : c.cache.entries.lookup key = none := hget
    exact ⟨c, by simp [get_miss hget, getValue, hlook], hc, rfl, rfl, by simp [getEntries, hlook]⟩
  | some value =>
    have hlook : c.cache.entries.lookup key = some value := hget
    cases ht : PyValue.truthy value with
    | false =>
      exact ⟨c, by simp [get_falsy hget ht, getValue, hlook, ht], hc, rfl, rfl,
        by simp [getEntries, hlook, ht]⟩
    | true =>
      exact ⟨_, by rw [get_hit hget ht]; simp [getValue, hlook, ht], hc.touch hget value, rfl, rfl,
        by simp [getEntries, hlook, ht, Dict.erase_set]⟩

omit [PyValue V] in
theorem put_full {c : LRUCache K V} (hc : Good c) (hfull : c.length = c.capacity) {key : K}
    (hnot : key ∉ c.cache.keys) (value : V) :
    ∃ e l, c.cache.entries = e :: l ∧
      put c key value = .ok { c with cache := (c.cache.erase e.1).set key value } ∧
      ((c.cache.erase e.1).set key value).entries = l ++ [(key, value)] := by
  have hpos : c.cache.entries ≠ [] := by
    intro hnil
    have hlen := hc.length
    have hcap := hc.pos
    rw [hnil, hfull] at hlen
    simp only [List.length_nil] at hlen
    omega
  obtain ⟨e, l, hentries⟩ := List.exists_cons_of_ne_nil hpos
  have hnext : c.cache.next? = some e.1 := by simp [Dict.next?, Dict.keys, hentries]
  have hget : c.cache.get? e.1 = some e.2 := by
    rw [Dict.get?_eq_some, hentries]
    exact List.mem_cons_self
  refine ⟨e, l, hentries, ?_, ?_⟩
  · simp [put, hnot, hfull, hnext, Dict.pop?_of_get? hget]
  · have hnodup := c.cache.nodup
    rw [hentries] at hnodup
    rw [Dict.set_new _ (Dict.notMem_erase hnot e.1), Dict.erase_entries, hentries,
      Dict.without_head hnodup]

omit [PyValue V] in
theorem put_spec {c : LRUCache K V} (hc : Good c) (key : K) (value : V) :
    ∃ c', put c key value = .ok c' ∧ Good c' ∧ c'.capacity = c.capacity ∧ c.length ≤ c'.length ∧
      c'.cache.entries = refPut c.capacity c.cache.entries key value := by
  cases hget : c.cache.get? key with
  | some old =>
    have hmem : key ∈ c.cache.keys := (c.cache.mem_keys_iff key).mpr ⟨old, hget⟩
    refine ⟨{ c with cache := (c.cache.erase key).set key value }, ?_, hc.touch hget value, rfl,
      le_rfl, ?_⟩
    · simp [put, hmem, Dict.pop?_of_get? hget]
    · rw [Dict.get?] at hget
      simp only [Dict.erase_set, refPut, hget]
  | none =>
    have hnot : key ∉ c.cache.keys := (c.cache.get?_eq_none key).mp hget
    rw [Dict.get?] at hget
    rcases eq_or_ne c.length c.capacity with hfull | hroom
    · obtain ⟨e, l, hentries, hput, hnew⟩ := put_full hc hfull hnot value
      have hlen := hc.length
      rw [hentries] at hlen hget
      refine ⟨_, hput, ⟨?_, hc.le, hc.pos⟩, rfl, le_rfl, ?_⟩
      · simp [hnew, hlen]
      · have heq : ((e :: l).length : ℤ) = c.capacity := hlen ▸ hfull
        simp only [hnew, hentries, refPut, hget, heq, if_true, List.tail_cons]
    · have hne : (c.cache.entries.length : ℤ) ≠ c.capacity := hc.length ▸ hroom
      refine ⟨{ c with length := c.length + 1, cache := c.cache.set key value }, ?_, ?_, rfl, ?_,
        ?_⟩
      · simp [put, hnot, hroom]
      · refine ⟨?_, ?_, hc.pos⟩
        · simp [Dict.set_new _ hnot, hc.length]
        · have hle := hc.le
          dsimp only
          omega
      · dsimp only
        omega
      · simp [Dict.set_new _ hnot, refPut, hget, hne]

end LowLevel.Interview.Lru
