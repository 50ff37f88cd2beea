import LowLevel.ProperDS.Judgement
import LowLevel.ProperDS.Shadow

namespace LowLevel.ProperDS.VectorOracle

open Basis.AddressSpace Basis.Differential Basis.StaticArray

def shadowCap : ℕ := 4096

inductive Call
  | init
  | push (x : ℤ)
  | pop
  | get (i : ℕ)
  | set (i : ℕ) (x : ℤ)
  | insertAt (i : ℕ) (x : ℤ)
  | removeAt (i : ℕ)
  | len
  | validate
  | free

abbrev Reply : Call → Type
  | .push _ | .insertAt _ _ | .validate => Bool
  | .pop | .get _ => ℤ
  | .init | .set _ _ | .removeAt _ | .free => Unit
  | .len => ℕ

abbrev Prog := Test Call Reply

def shadowInsertAt (s : Shadow) (i : ℕ) (x : ℤ) : Except Stop Shadow := s.insertAt i x

def shadowRemoveAt (s : Shadow) (i : ℕ) : Except Stop Shadow := s.removeAt i

def push (s : Shadow) : Prog Shadow :=
  if s.len < shadowCap then do
    let x ← Test.draw
    Test.checkEq (.push x) true
    Test.lift (s.push x)
  else pure s

def pop (s : Shadow) : Prog Shadow := do
  Test.checkRead .pop s.last
  return s.shorten

def set (s : Shadow) : Prog Shadow := do
  let i ← Test.drawBelow s.len
  let x ← Test.draw
  let _ ← Test.call (.set i x)
  Test.lift (s.put i x)

def get (s : Shadow) : Prog Shadow := do
  let i ← Test.drawBelow s.len
  Test.checkRead (.get i) (read s.cells i)
  return s

def removeAt (s : Shadow) : Prog Shadow := do
  let i ← Test.drawBelow s.len
  let _ ← Test.call (.removeAt i)
  Test.lift (shadowRemoveAt s i)

def insertAt (s : Shadow) : Prog Shadow :=
  if s.len < shadowCap then do
    let i ← Test.drawBelow (s.len + 1)
    let x ← Test.draw
    Test.checkEq (.insertAt i x) true
    Test.lift (shadowInsertAt s i x)
  else pure s

def operation (r : ℕ) (s : Shadow) : Prog Shadow :=
  if r = 0 ∨ s.len = 0 ∧ r ≠ 5 then push s
  else if r = 1 then pop s
  else if r = 2 then set s
  else if r = 3 then get s
  else if r = 4 then removeAt s
  else insertAt s

def pass (_op : ℕ) (s : Shadow) : Prog Shadow := do
  let r ← Test.drawBelow 6
  let s ← operation r s
  Test.checkEq .validate true
  Test.checkEq .len s.len
  return s

def compare (i : ℕ) (s : Shadow) : Prog Shadow := do
  Test.checkRead (.get i) (read s.cells i)
  return s

/-- The randomized part of the test, with so many operations. -/
def differential (ops : ℕ) : Prog Unit := do
  Test.heading "differential vs oracle"
  let _ ← Test.call Call.init
  let s ← Test.forInt pass ops (Shadow.empty shadowCap)
  Test.heading "differential final compare"
  let _ ← Test.times compare s.len s
  let _ ← Test.call Call.free
  return ()

/-- A growable array is a list. -/
def contract : Contract (List ℤ) Call Reply :=
  .exactly
    (fun l c ↦ match c with
      | .pop => l ≠ []
      | .get i | .set i _ | .removeAt i => i < l.length
      | .insertAt i _ => i ≤ l.length
      | .init | .push _ | .len | .validate | .free => True)
    (fun l c ↦ match c with
      | .push _ | .insertAt _ _ | .validate => true
      | .pop => l.getLastD 0
      | .get i => l.getD i 0
      | .init | .set _ _ | .removeAt _ | .free => ()
      | .len => l.length)
    (fun l c ↦ match c with
      | .init | .free => []
      | .push x => l ++ [x]
      | .pop => l.dropLast
      | .set i x => l.set i x
      | .insertAt i x => l.insertIdx i x
      | .removeAt i => l.eraseIdx i
      | .get _ | .len | .validate => l)

abbrev Held : List ℤ → Shadow → Prop := Shadow.Keeps shadowCap

variable {l : List ℤ} {s : Shadow}

theorem decides_push (h : Held l s) : Decides contract Held 1 (push s) l := by
  rw [push]
  split_ifs with hroom
  · refine decides_draw (fun x ↦ ?_)
    obtain ⟨s', hrun, hkeeps⟩ := h.push hroom x
    refine decides_checkEq trivial (fun _ ↦ Iff.rfl) ?_
    rw [hrun]
    exact hkeeps
  · exact h

theorem decides_pop (h : Held l s) (hne : l ≠ []) : Decides contract Held 1 (pop s) l :=
  decides_checkRead hne (h.last hne) (fun _ ↦ Iff.rfl) (h.shorten hne)

theorem decides_set (h : Held l s) (hne : 0 < s.len) : Decides contract Held 1 (set s) l := by
  refine decides_drawBelow hne (fun i hi ↦ decides_draw (fun x ↦ ?_))
  rw [h.len] at hi
  obtain ⟨s', hrun, hkeeps⟩ := h.put hi x
  refine decides_quiet hi (fun _ ↦ rfl) (fun _ ↦ ?_)
  rw [hrun]
  exact hkeeps

theorem decides_get (h : Held l s) (hne : 0 < s.len) : Decides contract Held 1 (get s) l := by
  refine decides_drawBelow hne (fun i hi ↦ ?_)
  rw [h.len] at hi
  exact decides_checkRead hi (h.read hi) (fun _ ↦ Iff.rfl) h

theorem decides_removeAt (h : Held l s) (hne : 0 < s.len) :
    Decides contract Held 1 (removeAt s) l := by
  refine decides_drawBelow hne (fun i hi ↦ ?_)
  rw [h.len] at hi
  obtain ⟨s', hrun, hkeeps⟩ := h.removeAt hi
  refine decides_quiet hi (fun _ ↦ rfl) (fun _ ↦ ?_)
  rw [shadowRemoveAt, hrun]
  exact hkeeps

theorem decides_insertAt (h : Held l s) : Decides contract Held 1 (insertAt s) l := by
  rw [insertAt]
  split_ifs with hroom
  · refine decides_drawBelow (Nat.succ_pos _) (fun i hi ↦ decides_draw (fun x ↦ ?_))
    have hle : i ≤ l.length := h.len ▸ Nat.le_of_lt_succ hi
    obtain ⟨s', hrun, hkeeps⟩ := h.insertAt hle hroom x
    refine decides_checkEq hle (fun _ ↦ Iff.rfl) ?_
    rw [shadowInsertAt, hrun]
    exact hkeeps
  · exact h

theorem decides_operation (r : ℕ) (h : Held l s) :
    Decides contract Held 1 (operation r s) l := by
  rw [operation]
  by_cases hpush : r = 0 ∨ s.len = 0 ∧ r ≠ 5
  · rw [if_pos hpush]
    exact decides_push h
  · rw [if_neg hpush]
    by_cases hempty : s.len = 0
    · -- an empty vector is left to `insert_at` only
      rw [if_neg (by omega), if_neg (by omega), if_neg (by omega), if_neg (by omega)]
      exact decides_insertAt h
    · have hpos := Nat.pos_of_ne_zero hempty
      split_ifs
      · exact decides_pop h (h.len_pos hempty)
      · exact decides_set h hpos
      · exact decides_get h hpos
      · exact decides_removeAt h hpos
      · exact decides_insertAt h

theorem decides_pass (i : ℕ) (h : Held l s) : Decides contract Held 3 (pass i s) l := by
  refine decides_drawBelow (by decide) (fun r _ ↦ Decides.bind (n := 1) (m := 2) ?_)
  refine (decides_operation r h).mono (fun l' s' h' ↦ ?_)
  refine decides_checkEq trivial (fun _ ↦ Iff.rfl) ?_
  exact decides_checkEq trivial (fun n ↦ by rw [h'.len]; rfl) h'

theorem decides_compare (h : Held l s) : Decides contract (fun l' s' ↦ l' = l ∧ Held l s')
    (1 * s.len) (Test.times compare s.len s) l := by
  refine decides_times compare (fun _ l' s' ↦ l' = l ∧ Held l s') ⟨rfl, h⟩ ?_
  rintro i l' s' hi ⟨rfl, h'⟩
  rw [h.len] at hi
  exact decides_checkRead hi (h'.read hi) (fun _ ↦ Iff.rfl) ⟨rfl, h'⟩

/-- The final comparison, and the release of the vector. -/
theorem decides_rest (h : Held l s) : Decides contract (fun _ _ ↦ True) shadowCap (do
    let _ ← Test.times compare s.len s
    let _ ← Test.call Call.free
    return ()) l := by
  have hroom : 1 * s.len + 0 ≤ shadowCap := by
    rw [Nat.add_zero, Nat.one_mul, h.len]
    exact h.length_le
  refine (Decides.bind ((decides_compare h).mono (fun _ _ _ ↦ ?_))).le hroom
  exact decides_quiet trivial (fun _ ↦ rfl) (fun _ ↦ trivial)

/-- Whatever the random numbers and the number of operations, the test succeeds
exactly for the vectors that behave as a list on the calls made. -/
theorem vector_test_exact (l : List ℤ) (ops : ℕ) (hops : ops < 2 ^ 31) :
    Judges contract (3 * ops + shadowCap) l (differential ops) := by
  have hloop := decides_forInt pass (fun _ ↦ Held) hops (Shadow.keeps_empty (by decide))
    (fun i _ _ _ h ↦ decides_pass i h)
  refine judges_of_decides _ (decides_quiet trivial (fun _ ↦ rfl) (fun _ ↦ ?_))
  exact Decides.bind (hloop.mono (fun l s h ↦ decides_heading _ (decides_rest h)))

theorem vector_test_exact_source :
    Judges contract (3 * 3000 + shadowCap) [] (differential 3000) :=
  vector_test_exact [] 3000 (by decide)

end LowLevel.ProperDS.VectorOracle
