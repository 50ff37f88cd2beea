import LowLevel.Basis.CArith

namespace LowLevel.ProperC.Ctest

open Basis.CArith Basis.Loop

/-- An executed check with the values it compares. A string is given by its
bytes, a null pointer by `none`. -/
inductive Check
  | bool (cond : Bool)
  | intEq (got want : Int64)
  | uintEq (got want : UInt64)
  | strEq (got want : Option (List UInt8))
  | ptr (p : ℕ) (wantNull : Bool)
  deriving DecidableEq

def Check.outcome : Check → Bool
  | .bool cond => cond
  | .intEq got want => got == want
  | .uintEq got want => got == want
  | .strEq (some got) (some want) => got == want
  | .strEq _ _ => false
  | .ptr p wantNull => if wantNull then p == 0 else p != 0

inductive Event
  | newSection (name : ℕ)
  | check (c : Check)
  deriving DecidableEq

/-- The block printed for a failing check. -/
structure Report where
  name : ℕ
  index : Int32
  check : Check
  deriving DecidableEq

/-- The statics of `ctest.h`, and what was printed. Section names are pointers. -/
structure Harness where
  passed : Int32
  failed : Int32
  name : ℕ
  sectionIdx : Int32
  sectionAborted : Bool
  failedSections : List ℕ
  reports : List Report
  deriving DecidableEq

namespace Harness

def start (topLevel : ℕ) : Harness := ⟨0, 0, topLevel, 0, false, [], []⟩

def maxFailedSections : ℕ := 128

def increment (x : Int32) : Except Fault Int32 := int32 (x.toInt + 1)

def noteFail (s : Harness) : Except Fault Harness := do
  let failed ← increment s.failed
  let s := { s with failed, sectionAborted := true }
  if s.name ∈ s.failedSections then
    return s
  if s.failedSections.length < maxFailedSections then
    return { s with failedSections := s.failedSections ++ [s.name] }
  return s

def check (s : Harness) (c : Check) : Except Fault Harness :=
  if s.sectionAborted then .ok s else do
    let sectionIdx ← increment s.sectionIdx
    let s := { s with sectionIdx }
    if c.outcome then
      let passed ← increment s.passed
      return { s with passed }
    else
      let s ← s.noteFail
      return { s with reports := s.reports ++ [⟨s.name, s.sectionIdx, c⟩] }

def step (s : Harness) : Event → Except Fault Harness
  | .newSection name => .ok { s with name, sectionIdx := 0, sectionAborted := false }
  | .check c => s.check c

def run (s : Harness) (events : List Event) : Except Fault Harness := events.foldlM step s

def exitStatus (s : Harness) : ℕ := if s.failed ≠ 0 then 1 else 0

end Harness

variable {s s' : Harness} {c : Check} {x : Int32}

theorem increment_ok (h : x.toInt + 1 < 2 ^ 31) :
    ∃ y, Harness.increment x = .ok y ∧ y.toInt = x.toInt + 1 := by
  have hx := fits_toInt x
  unfold Fits at hx
  exact int32_of_fits (by unfold Fits; omega)

theorem increment_error (h : ¬ x.toInt + 1 < 2 ^ 31) :
    Harness.increment x = .error .overflow := by
  refine if_neg ?_
  unfold Fits
  omega

/-- The list of failed sections after a failure in the section `name`. -/
def noteSection (name : ℕ) (names : List ℕ) : List ℕ :=
  if name ∈ names then names
  else if names.length < Harness.maxFailedSections then names ++ [name] else names

theorem noteFail_ok (hfailed : s.failed.toInt + 1 < 2 ^ 31) :
    ∃ failed, s.noteFail = .ok { s with
        failed, sectionAborted := true, failedSections := noteSection s.name s.failedSections } ∧
      failed.toInt = s.failed.toInt + 1 := by
  obtain ⟨failed, hrun, hval⟩ := increment_ok hfailed
  refine ⟨failed, ?_, hval⟩
  rw [Harness.noteFail, hrun, ok_bind, noteSection]
  simp only
  split
  · rfl
  · split
    · rfl
    · rfl

theorem noteFail_error (hfailed : ¬ s.failed.toInt + 1 < 2 ^ 31) :
    s.noteFail = .error .overflow := by
  rw [Harness.noteFail, increment_error hfailed]
  rfl

/-- Everything a check can do. -/
inductive CheckResult (s : Harness) (c : Check) : Except Fault Harness → Prop
  | skipped : s.sectionAborted = true → CheckResult s c (.ok s)
  | pass (idx passed : Int32) : s.sectionAborted = false → c.outcome = true →
      idx.toInt = s.sectionIdx.toInt + 1 → passed.toInt = s.passed.toInt + 1 →
      CheckResult s c (.ok { s with sectionIdx := idx, passed })
  | fail (idx failed : Int32) : s.sectionAborted = false → c.outcome = false →
      idx.toInt = s.sectionIdx.toInt + 1 → failed.toInt = s.failed.toInt + 1 →
      CheckResult s c (.ok { s with
        failed, sectionIdx := idx, sectionAborted := true,
        failedSections := noteSection s.name s.failedSections,
        reports := s.reports ++ [⟨s.name, idx, c⟩] })
  | indexOverflow : s.sectionAborted = false → ¬ s.sectionIdx.toInt + 1 < 2 ^ 31 →
      CheckResult s c (.error .overflow)
  | passedOverflow : s.sectionAborted = false → c.outcome = true →
      ¬ s.passed.toInt + 1 < 2 ^ 31 → CheckResult s c (.error .overflow)
  | failedOverflow : s.sectionAborted = false → c.outcome = false →
      ¬ s.failed.toInt + 1 < 2 ^ 31 → CheckResult s c (.error .overflow)

theorem check_result (s : Harness) (c : Check) : CheckResult s c (s.check c) := by
  rw [Harness.check]
  rcases Bool.eq_false_or_eq_true s.sectionAborted with ha | ha
  · rw [if_pos ha]
    exact .skipped ha
  · rw [if_neg (by simp [ha])]
    rcases Decidable.em (s.sectionIdx.toInt + 1 < 2 ^ 31) with hidx | hidx
    · obtain ⟨idx, hrun, hval⟩ := increment_ok hidx
      rw [hrun, ok_bind]
      rcases Bool.eq_false_or_eq_true c.outcome with hc | hc
      · rw [if_pos hc]
        rcases Decidable.em (s.passed.toInt + 1 < 2 ^ 31) with hpassed | hpassed
        · obtain ⟨passed, hrun', hval'⟩ := increment_ok hpassed
          rw [hrun', ok_bind]
          exact .pass idx passed ha hc hval hval'
        · rw [increment_error hpassed]
          exact .passedOverflow ha hc hpassed
      · rw [if_neg (by simp [hc])]
        rcases Decidable.em (s.failed.toInt + 1 < 2 ^ 31) with hfailed | hfailed
        · obtain ⟨failed, hnote, hval'⟩ := noteFail_ok (s := { s with sectionIdx := idx }) hfailed
          rw [hnote, ok_bind]
          exact .fail idx failed ha hc hval hval'
        · rw [noteFail_error (s := { s with sectionIdx := idx }) hfailed]
          exact .failedOverflow ha hc hfailed
    · rw [increment_error hidx]
      exact .indexOverflow ha hidx

end LowLevel.ProperC.Ctest
