import LowLevel.Basis.Differential
import LowLevel.ProperC.CtestVerdict
import Mathlib.Algebra.Order.BigOperators.Group.List
import Mathlib.Algebra.Order.Group.Nat

namespace LowLevel.ProperDS

open Basis.Differential ProperC.Ctest

variable {S C σ α β : Type} {R : C → Type}

/-- What `ctest.h` is told. The names are string literals, at their addresses. -/
def event (address : String → ℕ) : Mark → Event
  | .heading name => .newSection (address name)
  | .check b => .check (.bool b)

/-- The program gets to `CTEST_END` and exits with 0: no step of its own has
undefined behaviour, no `int` counter of the harness overflows and no failure is
counted. -/
def Succeeds (address : String → ℕ) (h : Harness) (o : Outcome C R α) : Prop :=
  o.result.isSome ∧
    ∃ h', h.run (o.marks.map (event address)) = .ok h' ∧ h'.exitStatus = 0

/-- The test tells the components that keep the contract from those that do
not. Let no earlier check of the program have failed, and let the counter of
passed checks have room for `room` more. Then the program succeeds exactly when
the calls it made were allowed and the replies to them right. That is when its
checks all pass, and they do against a component that serves the contract. -/
def Judges (K : Contract S C R) (room : ℕ) (s : S) (p : Test C R α) : Prop :=
  ∀ (σ : Type) (component : (c : C) → σ → R c × σ) (rand : ℕ → ℕ) (t : σ)
    (address : String → ℕ) (h : Harness), h.failed = 0 → 0 ≤ h.passed.toInt →
    h.passed.toInt + room < 2 ^ 31 →
    (Succeeds address h (p.run component rand t) ↔
      K.Conforms s (p.run component rand t).calls) ∧
    ((p.run component rand t).Passed ↔ K.Conforms s (p.run component rand t).calls) ∧
    (K.Serves component t s → K.Conforms s (p.run component rand t).calls)

variable {address : String → ℕ} {h : Harness} {marks : List Mark} {a : List Bool}
  {as : List (List Bool)}

/-- The checks that were made, recorded or not. -/
def made (as : List (List Bool)) : ℕ := (as.map List.length).sum

theorem recorded_le (a : List Bool) : recorded a ≤ a.length := by
  induction a with
  | nil => exact Nat.le_refl 0
  | cons b a ih =>
    cases b with
    | false =>
      rw [recorded_false]
      exact Nat.succ_pos _
    | true =>
      rw [recorded_true]
      exact Nat.succ_le_succ ih

theorem recorded_le_made (ha : a ∈ as) : recorded a ≤ made as :=
  (recorded_le a).trans (List.single_le_sum (fun _ _ ↦ Nat.zero_le _) _ (List.mem_map_of_mem ha))

theorem passes_le (as : List (List Bool)) : passes as ≤ made as :=
  List.sum_le_sum (fun _ _ ↦ (List.takeWhile_prefix _).length_le)

theorem made_marks (marks : List Mark) :
    made (activations (marks.map (event address))) = (marks.filterMap Mark.outcome?).length := by
  induction marks with
  | nil => rfl
  | cons mark marks ih =>
    cases mark with
    | heading name => exact (Nat.zero_add _).trans ih
    | check b =>
      have hcons : (Mark.check b :: marks).filterMap Mark.outcome? =
          b :: marks.filterMap Mark.outcome? := rfl
      rw [hcons, List.length_cons, ← ih, activations, activations]
      simp [made, event, outcomes, Nat.add_right_comm]

theorem failing_mark : (∃ c, .check c ∈ marks.map (event address) ∧ c.outcome = false) ↔
    ¬ ∀ b ∈ marks.filterMap Mark.outcome?, b = true := by
  simp only [List.mem_map, List.mem_filterMap, not_forall, Bool.not_eq_true, exists_prop]
  constructor
  · rintro ⟨c, ⟨mark, hmark, heq⟩, hc⟩
    cases mark with
    | heading name => cases heq
    | check b =>
      cases heq
      exact ⟨b, ⟨.check b, hmark, rfl⟩, hc⟩
  · rintro ⟨b, ⟨mark, hmark, heq⟩, hb⟩
    cases mark with
    | heading name => cases heq
    | check b' =>
      cases heq
      exact ⟨.bool b, ⟨.check b, hmark, rfl⟩, hb⟩

theorem exitStatus_eq_zero : h.exitStatus = 0 ↔ h.failed.toInt = 0 := by
  by_cases hfailed : h.failed = 0
  · rw [Harness.exitStatus, if_neg (not_not_intro hfailed)]
    exact iff_of_true rfl (congrArg Int32.toInt hfailed)
  · rw [Harness.exitStatus, if_pos hfailed]
    exact iff_of_false Nat.one_ne_zero (fun hzero ↦ hfailed (Int32.toInt_inj.mp hzero))

/-- The state after the `SECTION` that a test begins with. -/
def begun (address : String → ℕ) (h : Harness) (name : String) : Harness :=
  { h with name := address name, sectionIdx := 0, sectionAborted := false }

theorem passed_of_clean {h' : Harness} (hfailed : h.failed = 0) (name : String)
    (hrun : (begun address h name).run (marks.map (event address)) = .ok h')
    (hexit : h'.exitStatus = 0) : ∀ b ∈ marks.filterMap Mark.outcome?, b = true := by
  have hruns := runs_all (begun address h name) (marks.map (event address))
  rw [Runs, pending_armed rfl] at hruns
  by_contra hfails
  have hpos : 0 < failures (activations (marks.map (event address))) :=
    failures_pos.mpr (exists_failing.mpr (failing_mark.mpr hfails))
  by_cases hroom : Room (begun address h name) (outcomes (marks.map (event address))).1
      (outcomes (marks.map (event address))).2
  · obtain ⟨s', hrun', htotals⟩ := hruns.1 hroom
    obtain rfl : h' = s' := Except.ok.inj (hrun.symm.trans hrun')
    have hcount := htotals.failed
    rw [exitStatus_eq_zero.mp hexit, begun, hfailed, Int32.toInt_zero] at hcount
    rw [activations] at hpos
    omega
  · cases hrun.symm.trans (hruns.2 hroom)

theorem clean_of_passed {room : ℕ} (hfailed : h.failed = 0) (hzero : 0 ≤ h.passed.toInt)
    (hroom : h.passed.toInt + room < 2 ^ 31) (name : String)
    (hpass : ∀ b ∈ marks.filterMap Mark.outcome?, b = true)
    (hcount : (marks.filterMap Mark.outcome?).length ≤ room) :
    ∃ h', (begun address h name).run (marks.map (event address)) = .ok h' ∧
      h'.exitStatus = 0 := by
  have hruns := runs_all (begun address h name) (marks.map (event address))
  have hnone : failures (activations (marks.map (event address))) = 0 := by
    refine Nat.eq_zero_of_not_pos (fun hpos ↦ ?_)
    exact failing_mark.mp (exists_failing.mp (failures_pos.mp hpos)) hpass
  have hpasses := passes_le (activations (marks.map (event address)))
  have hindex : ∀ a ∈ activations (marks.map (event address)), recorded a ≤ room :=
    fun a ha ↦ (recorded_le_made ha).trans ((made_marks marks).trans_le hcount)
  rw [made_marks] at hpasses
  rw [activations] at hnone hpasses hindex
  obtain ⟨hfirst, hlater⟩ := List.forall_mem_cons.mp hindex
  rw [Runs, pending_armed rfl] at hruns
  have hfits : Room (begun address h name) (outcomes (marks.map (event address))).1
      (outcomes (marks.map (event address))).2 := by
    refine ⟨?_, ?_, ?_, fun a ha ↦ ?_⟩
    · dsimp only [begun]
      omega
    · rw [hnone, begun, hfailed]
      decide
    · dsimp only [begun]
      rw [Int32.toInt_zero]
      omega
    · have hle := hlater a ha
      omega
  obtain ⟨h', hrun, htotals⟩ := hruns.1 hfits
  refine ⟨h', hrun, exitStatus_eq_zero.mpr ?_⟩
  rw [htotals.failed, hnone, begun, hfailed]
  rfl

/-- A test program begins with a `SECTION`. -/
theorem judges_of_decides {K : Contract S C R} {room : ℕ} {s : S} {p : Unit → Test C R α}
    (name : String) (h : Decides K (fun _ _ ↦ True) room (p ()) s) :
    Judges K room s (Test.heading name >>= p) := by
  intro σ component rand t address hs hfailed hzero hroom
  have hpassed := h.passed_iff component rand t
  refine ⟨?_, hpassed, h.conforms component rand t⟩
  constructor
  · rintro ⟨-, h', hrun, hexit⟩
    exact hpassed.mp (passed_of_clean hfailed name hrun hexit)
  · intro hconforms
    obtain ⟨hsome, hcount⟩ := h.result component rand t (hpassed.mpr hconforms)
    exact ⟨hsome, clean_of_passed hfailed hzero hroom name (hpassed.mpr hconforms) hcount⟩

end LowLevel.ProperDS
