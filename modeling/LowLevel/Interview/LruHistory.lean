import LowLevel.Basis.Recency
import LowLevel.Interview.Lru

namespace LowLevel.Interview.LruHistory

open Basis.OrderedDict Basis.Recency Lru

/-- What the calls so far say of a cache, whatever its capacity: the keys in
the order of their uses, and the last value put under each. -/
structure History (K V : Type*) where
  used : List K
  stored : K → Option V

variable {K V : Type*} [DecidableEq K] [PyValue V]
variable {capacity : ℤ} {c : LRUCache K V} {h : History K V} {key : K}

namespace History

def empty : History K V := ⟨[], fun _ ↦ none⟩

/-- Fewer than `capacity` other keys were used since the last use of the key. -/
def Recent (capacity : ℤ) (h : History K V) (key : K) : Prop :=
  key ∈ h.used ∧ distance h.used key < capacity.toNat

instance : Decidable (Recent capacity h key) := instDecidableAnd

/-- The value that a `get` finds, unless it is falsy. -/
def found (capacity : ℤ) (h : History K V) (key : K) : Option V :=
  if Recent capacity h key then (h.stored key).filter PyValue.truthy else none

/-- Every `put` uses its key, and every `get` that finds a value. -/
def respond (capacity : ℤ) (h : History K V) : Op K V → Option V × History K V
  | .get key =>
    match found capacity h key with
    | none => (some PyValue.minusOne, h)
    | some value => (some value, { h with used := h.used ++ [key] })
  | .put key value => (none, ⟨h.used ++ [key], Function.update h.stored key (some value)⟩)

def responses (capacity : ℤ) (h : History K V) : List (Op K V) → List (Option V × List K)
  | [] => []
  | op :: ops =>
    ((respond capacity h op).1, window capacity.toNat (respond capacity h op).2.used) ::
      responses capacity (respond capacity h op).2 ops

end History

open History

/-- The entries of the cache are the last uses, with the values last put. -/
structure Follows (limit : ℤ) (h : History K V) (c : LRUCache K V) : Prop where
  good : Good c
  capacity : c.capacity = limit
  keys : c.cache.entries.map Prod.fst = window limit.toNat h.used
  stored : ∀ e ∈ c.cache.entries, h.stored e.1 = some e.2

omit [PyValue V] in
theorem Follows.lookup (hf : Follows capacity h c) (key : K) :
    c.cache.entries.lookup key = if Recent capacity h key then h.stored key else none := by
  have hmem : key ∈ c.cache.entries.map Prod.fst ↔ Recent capacity h key := by
    rw [hf.keys, mem_window_iff, Recent]
  cases hlook : c.cache.entries.lookup key with
  | none =>
    have hnot := mt hmem.mpr ((c.cache.get?_eq_none key).mp hlook)
    rw [if_neg hnot]
  | some value =>
    have he : (key, value) ∈ c.cache.entries := Dict.mem_of_lookup hlook
    rw [if_pos (hmem.mp (List.mem_map_of_mem he))]
    exact (hf.stored _ he).symm

omit [PyValue V] in
theorem keys_without (l : List (K × V)) (key : K) :
    (Dict.without l key).map Prod.fst = (l.map Prod.fst).filter (· ≠ key) := by
  rw [Dict.without, List.filter_map]
  rfl

theorem Follows.found_eq (hf : Follows capacity h c) (key : K) :
    found capacity h key = (c.cache.entries.lookup key).filter PyValue.truthy := by
  rw [hf.lookup, found]
  split
  · rfl
  · rfl

omit [PyValue V] in
theorem Follows.mem_window (hf : Follows capacity h c) {value : V}
    (hlook : c.cache.entries.lookup key = some value) : key ∈ window capacity.toNat h.used :=
  hf.keys ▸ List.mem_map_of_mem (Dict.mem_of_lookup hlook)

omit [PyValue V] in
theorem keys_concat {l : List (K × V)} {us : List K} {n : ℕ} (value : V)
    (h : l.map Prod.fst ++ [key] = window n us) :
    (l ++ [(key, value)]).map Prod.fst = window n us := by
  rw [List.map_append]
  exact h

omit [DecidableEq K] [PyValue V] in
/-- The last entry is new, the others keep what they hold. -/
theorem stored_concat {l l' : List (K × V)} {value : V} {stored stored' : K → Option V}
    (h : ∀ e ∈ l, stored e.1 = some e.2) (hl : ∀ e ∈ l', e ∈ l ∧ stored' e.1 = stored e.1)
    (hkey : stored' key = some value) : ∀ e ∈ l' ++ [(key, value)], stored' e.1 = some e.2 := by
  intro e he
  rcases List.mem_append.mp he with he | he
  · rw [(hl e he).2, h e (hl e he).1]
  · rw [List.mem_singleton.mp he, hkey]

theorem Follows.get (hf : Follows capacity h c) (key : K) :
    ∃ c', exec c (.get key) = .ok ((respond capacity h (.get key)).1, c') ∧
      Follows capacity (respond capacity h (.get key)).2 c' := by
  obtain ⟨c', hget, hgood, hcap, -, hentries⟩ := get_spec hf.good key
  have hexec : exec c (.get key) = .ok (some (getValue c.cache.entries key), c') := by
    rw [exec, hget]
    rfl
  have hfound := hf.found_eq key
  rw [getValue] at hexec
  rw [getEntries] at hentries
  rw [respond]
  cases hlook : c.cache.entries.lookup key with
  | none =>
    rw [hlook] at hfound hexec hentries
    rw [hfound]
    refine ⟨c', hexec, hgood, hcap.trans hf.capacity, ?_, ?_⟩
    · rw [hentries]
      exact hf.keys
    · rw [hentries]
      exact hf.stored
  | some value =>
    rw [hlook] at hfound hexec hentries
    cases ht : PyValue.truthy value with
    | false =>
      simp only [ht, Option.filter_some, Bool.false_eq_true, if_false] at hfound hexec hentries
      rw [hfound]
      refine ⟨c', hexec, hgood, hcap.trans hf.capacity, ?_, ?_⟩
      · rw [hentries]
        exact hf.keys
      · rw [hentries]
        exact hf.stored
    | true =>
      simp only [ht, Option.filter_some, if_true] at hfound hexec hentries
      rw [hfound]
      refine ⟨c', hexec, hgood, hcap.trans hf.capacity, ?_, ?_⟩
      · rw [hentries]
        apply keys_concat
        rw [keys_without, hf.keys]
        exact (window_hit (hf.mem_window hlook)).symm
      · rw [hentries]
        refine stored_concat hf.stored (fun e he ↦ ⟨?_, rfl⟩) ?_
        · exact (Dict.without_sublist _ _).subset he
        · exact hf.stored _ (Dict.mem_of_lookup hlook)

omit [PyValue V] in
theorem ne_of_mem_without {l : List (K × V)} {e : K × V} (he : e ∈ Dict.without l key) :
    e ∈ l ∧ e.1 ≠ key := by
  rw [Dict.without, List.mem_filter] at he
  exact ⟨he.1, of_decide_eq_true he.2⟩

theorem Follows.put (hf : Follows capacity h c) (key : K) (value : V) :
    ∃ c', exec c (.put key value) = .ok ((respond capacity h (.put key value)).1, c') ∧
      Follows capacity (respond capacity h (.put key value)).2 c' := by
  obtain ⟨c', hput, hgood, hcap, -, hentries⟩ := put_spec hf.good key value
  have hexec : exec c (.put key value) = .ok (none, c') := by
    rw [exec, hput]
    rfl
  have hpos : 0 < capacity.toNat := by
    have hone := hf.good.pos
    have hsame := hf.capacity
    omega
  rw [refPut] at hentries
  refine ⟨c', hexec, hgood, hcap.trans hf.capacity, ?_, ?_⟩
  · rw [hentries]
    cases hlook : c.cache.entries.lookup key with
    | some old =>
      apply keys_concat
      rw [keys_without, hf.keys]
      exact (window_hit (hf.mem_window hlook)).symm
    | none =>
      have hnot : key ∉ window capacity.toNat h.used :=
        hf.keys ▸ (c.cache.get?_eq_none key).mp hlook
      have hlength := congrArg List.length hf.keys
      rw [List.length_map] at hlength
      have hmiss := window_miss hpos hnot
      have hsame := hf.capacity
      dsimp only
      split
      · rename_i hfull
        rw [if_pos (by omega)] at hmiss
        apply keys_concat
        rw [respond, hmiss, ← hf.keys, List.map_tail]
      · rename_i hroom
        rw [if_neg (by omega)] at hmiss
        apply keys_concat
        rw [respond, hmiss, ← hf.keys]
  · rw [hentries]
    have hsame : Function.update h.stored key (some value) key = some value :=
      Function.update_self ..
    cases hlook : c.cache.entries.lookup key with
    | some old =>
      refine stored_concat hf.stored (fun e he ↦ ?_) hsame
      obtain ⟨hmem, hne⟩ := ne_of_mem_without he
      exact ⟨hmem, Function.update_of_ne hne ..⟩
    | none =>
      have hother : ∀ e ∈ c.cache.entries, (respond capacity h (.put key value)).2.stored e.1 =
          h.stored e.1 := by
        intro e he
        have hne : e.1 ≠ key := fun heq ↦
          (c.cache.get?_eq_none key).mp hlook (heq ▸ List.mem_map_of_mem he)
        exact Function.update_of_ne hne ..
      dsimp only
      split
      · exact stored_concat hf.stored
          (fun e he ↦ ⟨List.mem_of_mem_tail he, hother e (List.mem_of_mem_tail he)⟩) hsame
      · exact stored_concat hf.stored (fun e he ↦ ⟨he, hother e he⟩) hsame

theorem Follows.exec (hf : Follows capacity h c) (op : Op K V) :
    ∃ c', exec c op = .ok ((respond capacity h op).1, c') ∧
      Follows capacity (respond capacity h op).2 c' := by
  cases op with
  | get key => exact hf.get key
  | put key value => exact hf.put key value

theorem Follows.trace (hf : Follows capacity h c) (ops : List (Op K V)) :
    trace c ops = .ok (responses capacity h ops) := by
  induction ops generalizing c h with
  | nil => rfl
  | cons op ops ih =>
    obtain ⟨c', hexec, hf'⟩ := hf.exec op
    rw [Lru.trace, hexec, responses, ← hf'.keys]
    dsimp only
    rw [ih hf']
    rfl

/-- The cache answers by the history alone: a `get` finds the last value put
under its key when fewer than `capacity` other keys were used since. -/
theorem lru_by_history (capacity : ℤ) (hcap : 1 ≤ capacity) (ops : List (Op K V)) :
    (init capacity).bind (fun c ↦ trace c ops) = .ok (responses capacity .empty ops) := by
  obtain ⟨c, hinit, hentries, hcapacity, hgood⟩ := init_good (K := K) (V := V) hcap
  rw [hinit]
  refine Follows.trace ⟨hgood, hcapacity, ?_, ?_⟩ ops
  · rw [hentries]
    exact (List.rtake_nil _).symm
  · rw [hentries]
    exact fun e he ↦ absurd he List.not_mem_nil

theorem lru_by_history_two :
    (init 2).bind (fun c ↦ trace c [Op.put 1 5, Op.put 2 6, Op.get 1, Op.put 3 7, Op.get (2 : ℤ)]) =
      .ok [(none, [1]), (none, [1, 2]), (some (5 : ℤ), [2, 1]), (none, [1, 3]), (some (-1), [1, 3])] :=
  lru_by_history 2 (by decide) _

end LowLevel.Interview.LruHistory
