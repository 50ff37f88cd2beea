import LowLevel.Interview.Lru

namespace LowLevel.Interview.LruRefinement

open Basis.OrderedDict Lru

variable {K V : Type*} [DecidableEq K] [PyValue V]
variable {capacity : ℤ} {ref : List (K × V)} {c : LRUCache K V}

def Truthful (ref : List (K × V)) : Op K V → Prop
  | .get key => ∀ value, ref.lookup key = some value → PyValue.truthy value = true
  | .put _ _ => True

/-- No call of the sequence, run on the reference, hits a falsy value. -/
def NoFalsyHit (capacity : ℤ) (ref : List (K × V)) : List (Op K V) → Prop
  | [] => True
  | op :: ops => Truthful ref op ∧ NoFalsyHit capacity (refExec capacity ref op).2 ops

structure Refines (capacity : ℤ) (c : LRUCache K V) (ref : List (K × V)) : Prop where
  good : Good c
  capacity : c.capacity = capacity
  entries : c.cache.entries = ref

theorem exec_refines (h : Refines capacity c ref) (op : Op K V) (ht : Truthful ref op) :
    ∃ c', exec c op = .ok ((refExec capacity ref op).1, c') ∧
      Refines capacity c' (refExec capacity ref op).2 := by
  obtain ⟨hgood, rfl, rfl⟩ := h
  cases op with
  | put key value =>
    obtain ⟨c', hput, hgood', hcap, -, hentries⟩ := put_spec hgood key value
    exact ⟨c', by simp [exec, hput, Except.map, refExec], hgood', hcap, hentries⟩
  | get key =>
    obtain ⟨c', hget, hgood', hcap, -, hentries⟩ := get_spec hgood key
    have hvalue : getValue c.cache.entries key = (refGet c.cache.entries key).1 := by
      cases hlook : c.cache.entries.lookup key with
      | none => simp [getValue, refGet, hlook]
      | some value => simp [getValue, refGet, hlook, ht value hlook]
    have hlist : getEntries c.cache.entries key = (refGet c.cache.entries key).2 := by
      cases hlook : c.cache.entries.lookup key with
      | none => simp [getEntries, refGet, hlook]
      | some value => simp [getEntries, refGet, hlook, ht value hlook]
    exact ⟨c', by simp [exec, hget, Except.map, refExec, hvalue], hgood', hcap,
      hentries.trans hlist⟩

theorem exec_falsy (h : Refines capacity c ref) {key : K} {value : V}
    (hlook : ref.lookup key = some value) (hf : PyValue.truthy value = false) :
    exec c (.get key) = .ok (some PyValue.minusOne, c) := by
  obtain ⟨-, -, rfl⟩ := h
  have hget : c.cache.get? key = some value := hlook
  simp [exec, get_falsy hget hf, Except.map]

def Unmarked (ref : List (K × V)) : Prop := ∀ e ∈ ref, e.2 ≠ PyValue.minusOne

theorem Unmarked.exec (h : Unmarked ref) (op : Op K V)
    (hop : ∀ key value, op = .put key value → value ≠ PyValue.minusOne) :
    Unmarked (refExec capacity ref op).2 := by
  have happ : ∀ l : List (K × V), l.Sublist ref → ∀ key (value : V),
      value ≠ PyValue.minusOne → Unmarked (l ++ [(key, value)]) := by
    intro l hl key value hv e he
    rcases List.mem_append.mp he with he | he
    · exact h e (hl.subset he)
    · rw [List.mem_singleton.mp he]
      exact hv
  cases op with
  | put key value =>
    have hv := hop key value rfl
    simp only [refExec, refPut]
    split
    · exact happ _ (Dict.without_sublist ref key) key value hv
    · split
      · exact happ _ (List.tail_sublist ref) key value hv
      · exact happ _ (List.Sublist.refl ref) key value hv
  | get key =>
    simp only [refExec, refGet]
    split
    · exact h
    · rename_i value hlook
      have hmem : (key, value) ∈ ref := Dict.mem_of_lookup hlook
      exact happ _ (Dict.without_sublist ref key) key value (h _ hmem)

theorem trace_iff (ops : List (Op K V)) (h : Refines capacity c ref) (hu : Unmarked ref)
    (hops : ∀ key value, .put key value ∈ ops → value ≠ PyValue.minusOne) :
    trace c ops = .ok (refTrace capacity ref ops) ↔ NoFalsyHit capacity ref ops := by
  induction ops generalizing c ref with
  | nil => simp [trace, refTrace, NoFalsyHit]
  | cons op ops ih =>
    have hu' : Unmarked (refExec capacity ref op).2 :=
      hu.exec op (fun key value hop ↦ hops key value (by simp [hop]))
    have hops' : ∀ key value, .put key value ∈ ops → value ≠ PyValue.minusOne :=
      fun key value hmem ↦ hops key value (List.mem_cons_of_mem op hmem)
    by_cases ht : Truthful ref op
    · obtain ⟨c', hexec, href⟩ := exec_refines h op ht
      have hkeys : c'.cache.keys = (refExec capacity ref op).2.map Prod.fst := by
        rw [Dict.keys, href.entries]
      simp only [trace, hexec, refTrace, NoFalsyHit, ht, true_and, ← ih href hu' hops', hkeys]
      cases trace c' ops <;> simp [Except.map]
    · have hno : ¬ NoFalsyHit capacity ref (op :: ops) := fun hall ↦ ht hall.1
      rw [iff_false_right hno]
      cases op with
      | put key value => exact absurd trivial ht
      | get key =>
        simp only [Truthful, not_forall, Bool.not_eq_true] at ht
        obtain ⟨value, hlook, hf⟩ := ht
        have hmem : (key, value) ∈ ref := Dict.mem_of_lookup hlook
        have hne : PyValue.minusOne ≠ value := (hu _ hmem).symm
        simp only [trace, exec_falsy h hlook hf, refTrace, refExec, refGet, hlook]
        cases trace c ops <;> simp [Except.map, hne]

/-- `LRUCache` answers like the reference list, and keeps its keys in the
reference order, for exactly the call sequences in which no `get` hits a
falsy value. -/
theorem lru_refines_iff (capacity : ℤ) (hcap : 1 ≤ capacity) (ops : List (Op K V))
    (hops : ∀ key value, .put key value ∈ ops → value ≠ PyValue.minusOne) :
    (init capacity).bind (fun c ↦ trace c ops) = .ok (refTrace capacity [] ops) ↔
      NoFalsyHit capacity [] ops := by
  obtain ⟨c, hinit, hentries, hcapacity, hgood⟩ := init_good (K := K) (V := V) hcap
  rw [hinit]
  exact trace_iff ops ⟨hgood, hcapacity, hentries⟩ (by simp [Unmarked]) hops

theorem lru_loses_zero :
    (init 2).bind (fun c ↦ trace c [Op.put 1 0, Op.get 1]) ≠
      .ok (refTrace 2 [] [Op.put (1 : ℤ) (0 : ℤ), Op.get 1]) := by
  have hrun : (init 2).bind (fun c ↦ trace c [Op.put (1 : ℤ) (0 : ℤ), Op.get 1]) =
    .ok [(none, [1]), (some (-1), [1])] := rfl
  have href : refTrace 2 [] [Op.put (1 : ℤ) (0 : ℤ), Op.get 1] =
    [(none, [1]), (some 0, [1])] := rfl
  rw [hrun, href]
  simp

theorem lru_refines_truthy :
    (init 1).bind (fun c ↦ trace c [Op.put 1 5, Op.get 1, Op.put 2 6, Op.get 1]) =
      .ok (refTrace 1 [] [Op.put (1 : ℤ) (5 : ℤ), Op.get 1, Op.put 2 6, Op.get 1]) :=
  (lru_refines_iff 1 (by omega) _ (by simp [PyValue.minusOne]; omega)).mpr
    (by simp [NoFalsyHit, Truthful, refExec, refPut, refGet, PyValue.truthy, Dict.without])

end LowLevel.Interview.LruRefinement
