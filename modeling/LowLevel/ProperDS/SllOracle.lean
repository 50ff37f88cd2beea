import LowLevel.ProperDS.Judgement
import LowLevel.ProperDS.Shadow

namespace LowLevel.ProperDS.SllOracle

open Basis.AddressSpace Basis.Differential Basis.Loop Basis.StaticArray

def cap : ℕ := 512

/-- `find` stands for whether the found node is there, `collect` for what the
walk through the nodes puts into an array of so many cells, `free` for whether
the list is NULL after it. -/
inductive Call
  | pushFront (x : ℤ)
  | pushBack (x : ℤ)
  | removeValue (x : ℤ)
  | find (x : ℤ)
  | reverse
  | length
  | collect (maxn : ℕ)
  | free

abbrev Reply : Call → Type
  | .pushFront _ | .pushBack _ | .removeValue _ | .find _ | .free => Bool
  | .reverse => Unit
  | .length => ℕ
  | .collect maxn => { vs : List ℤ // vs.length ≤ maxn }

abbrev Prog := Test Call Reply

def find (s : Shadow) (x : ℤ) : Except Stop Bool := do
  let k ← scan (· == x) s.cells s.len
  return k.isSome

/-- The first occurrence is shifted over. -/
def removeValue (s : Shadow) (x : ℤ) : Except Stop (Bool × Shadow) := do
  match ← scan (· == x) s.cells s.len with
  | none => return (false, s)
  | some k => return (true, ← s.removeAt k)

def reverse (s : Shadow) : Except Stop Shadow := do
  let cells ← Basis.StaticArray.reverse s.cells s.len
  return { s with cells }

def operation (r : ℕ) (x : ℤ) (s : Shadow) : Prog Shadow :=
  if r = 0 ∧ s.len < cap then do
    Test.checkEq (.pushFront x) true
    Test.lift (s.insertAt 0 x)
  else if r = 1 ∧ s.len < cap then do
    Test.checkEq (.pushBack x) true
    Test.lift (s.push x)
  else if r = 2 then do
    let got ← Test.call (Call.removeValue x)
    let (want, s) ← Test.lift (removeValue s x)
    Test.check (got = want)
    return s
  else if r = 3 then do
    Test.checkRead (.find x) (find s x)
    return s
  else do
    let _ ← Test.call Call.reverse
    Test.lift (reverse s)

def pass (_op : ℕ) (s : Shadow) : Prog Shadow := do
  let r ← Test.drawBelow 5
  let x ← Test.drawBelow 50
  let s ← operation r x s
  Test.checkEq .length s.len
  return s

def callCollect (maxn : ℕ) : Prog { vs : List ℤ // vs.length ≤ maxn } :=
  Test.call (Call.collect maxn)

/-- The randomized part of the test, with so many operations. -/
def differential (ops : ℕ) : Prog Unit := do
  Test.heading "differential vs oracle"
  let s ← Test.forInt pass ops (Shadow.empty cap)
  Test.heading "differential final compare"
  let vs ← callCollect cap
  Test.check (vs.1.length = s.len)
  let _ ← Test.times (compareCells vs.1 s.cells) (min s.len vs.1.length) s
  Test.checkEq .free true
  return ()

def contract : Contract (List ℤ) Call Reply :=
  .exactly
    (fun _ _ ↦ True)
    (fun l c ↦ match c with
      | .pushFront _ | .pushBack _ | .free => true
      | .removeValue x | .find x => decide (x ∈ l)
      | .reverse => ()
      | .length => l.length
      | .collect maxn => ⟨l.take maxn, List.length_take_le maxn l⟩)
    (fun l c ↦ match c with
      | .pushFront x => x :: l
      | .pushBack x => l ++ [x]
      | .removeValue x => l.erase x
      | .reverse => l.reverse
      | .find _ | .length | .collect _ => l
      | .free => [])

abbrev Held : List ℤ → Shadow → Prop := Shadow.Keeps cap

variable {l : List ℤ} {s : Shadow}

theorem scan_ok (h : Held l s) (x : ℤ) :
    scan (· == x) s.cells s.len = .ok (l.findIdx? (· == x)) := by
  rw [h.len]
  exact scan_eq h.used

theorem findIdx?_isSome_iff (l : List ℤ) (x : ℤ) :
    (l.findIdx? (· == x)).isSome = decide (x ∈ l) := by
  rw [List.findIdx?_isSome, Bool.eq_iff_iff, List.any_eq_true, decide_eq_true_iff]
  exact ⟨fun ⟨y, hy, heq⟩ ↦ beq_iff_eq.mp heq ▸ hy, fun hx ↦ ⟨x, hx, beq_self_eq_true x⟩⟩

theorem find_ok (h : Held l s) (x : ℤ) : find s x = .ok (decide (x ∈ l)) := by
  rw [find, scan_ok h, ← findIdx?_isSome_iff]
  rfl

theorem removeValue_ok (h : Held l s) (x : ℤ) :
    ∃ s', removeValue s x = .ok (decide (x ∈ l), s') ∧ Held (l.erase x) s' := by
  rw [removeValue, scan_ok h, ok_bind, ← findIdx?_isSome_iff, List.erase_eq_eraseIdx,
    List.idxOf?]
  cases hk : l.findIdx? (· == x) with
  | none => exact ⟨s, rfl, h⟩
  | some k =>
    obtain ⟨hlt, -⟩ := List.findIdx?_eq_some_iff_getElem.mp hk
    obtain ⟨s', hrun, hkeeps⟩ := h.removeAt hlt
    refine ⟨s', ?_, hkeeps⟩
    dsimp only
    rw [hrun]
    rfl

theorem reverse_ok (h : Held l s) : ∃ s', reverse s = .ok s' ∧ Held l.reverse s' := by
  obtain ⟨cells, hrun, hsize, hused⟩ := reverse_prefix h.used
  refine ⟨{ s with cells }, ?_, h.small, hsize.trans h.size, hused, ?_⟩
  · rw [reverse, h.len, hrun]
    rfl
  · rw [List.length_reverse]
    exact h.len

theorem decides_operation (r : ℕ) (x : ℤ) (h : Held l s) :
    Decides contract Held 1 (operation r x s) l := by
  rw [operation]
  split_ifs with hfront hback
  · obtain ⟨s', hrun, hkeeps⟩ := h.insertAt (Nat.zero_le _) hfront.2 x
    refine decides_checkEq trivial (fun _ ↦ Iff.rfl) ?_
    rw [hrun]
    exact hkeeps
  · obtain ⟨s', hrun, hkeeps⟩ := h.push hback.2 x
    refine decides_checkEq trivial (fun _ ↦ Iff.rfl) ?_
    rw [hrun]
    exact hkeeps
  · obtain ⟨s', hrun, hkeeps⟩ := removeValue_ok h x
    refine decides_call trivial ?_ ?_
    · rintro (got : Bool) (hgot : got = decide (x ∈ l))
      exact decides_lift hrun (decides_check (decide_eq_true hgot) hkeeps)
    · rintro (got : Bool) (hgot : got ≠ decide (x ∈ l))
      exact fails_lift hrun (fails_check (fun heq ↦ (hgot (of_decide_eq_true heq)).elim))
  · exact decides_checkRead trivial (find_ok h x) (fun _ ↦ Iff.rfl) h
  · obtain ⟨s', hrun, hkeeps⟩ := reverse_ok h
    refine decides_quiet trivial (fun _ ↦ rfl) (fun _ ↦ ?_)
    rw [hrun]
    exact hkeeps

theorem decides_pass (i : ℕ) (h : Held l s) : Decides contract Held 2 (pass i s) l := by
  refine decides_drawBelow (by decide) (fun r _ ↦ decides_drawBelow (by decide) (fun x _ ↦ ?_))
  refine Decides.bind (n := 1) (m := 1) ((decides_operation r x h).mono (fun l' s' h' ↦ ?_))
  exact decides_checkEq trivial (fun n ↦ by rw [h'.len]; rfl) h'

/-- The values collected are compared with the shadow, and the list released. -/
theorem decides_rest (h : Held l s) : Decides contract (fun _ _ ↦ True) (cap + 2) (do
    let vs ← callCollect cap
    Test.check (vs.1.length = s.len)
    let _ ← Test.times (compareCells vs.1 s.cells) (min s.len vs.1.length) s
    Test.checkEq .free true
    return ()) l := by
  have hall : l.take cap = l := List.take_of_length_le h.length_le
  refine decides_call trivial ?_ ?_
  · rintro ⟨vs, hvs⟩ hright
    obtain rfl : vs = l := (congrArg Subtype.val hright).trans hall
    refine decides_check (decide_eq_true h.len.symm) ?_
    have hroom : min s.len vs.length + 1 ≤ cap + 1 :=
      Nat.succ_le_succ ((Nat.min_le_right _ _).trans hvs)
    refine Decides.le ?_ hroom
    refine decides_compareCells h.used (Nat.min_le_right _ _) (fun _ _ ↦ rfl) ?_
    exact decides_checkEq trivial (fun _ ↦ Iff.rfl) trivial
  · rintro ⟨vs, hvs⟩ hwrong
    refine fails_check (fun hlen ↦ ?_)
    have hlen' : vs.length = l.length := (of_decide_eq_true hlen).trans h.len
    have hmin : min s.len vs.length = l.length := by rw [h.len, hlen', Nat.min_self]
    rw [hmin]
    refine fails_compareCells h.used (Nat.le_refl _) hlen'.ge (fun hsame ↦ hwrong ?_)
    have heq : vs = l := List.ext_getElem? (fun i ↦ by
      rcases Nat.lt_or_ge i l.length with hi | hi
      · exact hsame i hi
      · rw [List.getElem?_eq_none hi, List.getElem?_eq_none (hlen'.trans_le hi)])
    exact Subtype.ext (heq.trans hall.symm)

/-- The shadow never leaves its array, and the test succeeds exactly for the
linked lists that behave as a list on the calls made, hold its values at the end
and are NULL after their release. -/
theorem sll_test_exact (ops : ℕ) (hops : ops < 2 ^ 31) :
    Judges contract (2 * ops + (cap + 2)) [] (differential ops) := by
  have hloop := decides_forInt pass (fun _ ↦ Held) hops (Shadow.keeps_empty (by decide))
    (fun i _ _ _ h ↦ decides_pass i h)
  refine judges_of_decides _ ?_
  exact Decides.bind (hloop.mono (fun l s h ↦ decides_heading _ (decides_rest h)))

theorem sll_test_exact_source : Judges contract (2 * 2000 + (cap + 2)) [] (differential 2000) :=
  sll_test_exact 2000 (by decide)

end LowLevel.ProperDS.SllOracle
