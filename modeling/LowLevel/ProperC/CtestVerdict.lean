import LowLevel.ProperC.Ctest
import Mathlib.Algebra.GroupWithZero.Nat
import Mathlib.Data.List.Nodup

namespace LowLevel.ProperC.Ctest

open Basis.CArith Basis.Loop

/-- The outcomes of the checks in the section under way, and section by section
of those after it. -/
def outcomes : List Event → List Bool × List (List Bool)
  | [] => ([], [])
  | .newSection _ :: events => ([], (outcomes events).1 :: (outcomes events).2)
  | .check c :: events => (c.outcome :: (outcomes events).1, (outcomes events).2)

/-- One list of outcomes for the top level, and one for each `SECTION`. -/
def activations (events : List Event) : List (List Bool) :=
  (outcomes events).1 :: (outcomes events).2

/-- The passing checks before the first failing one. -/
def leading (a : List Bool) : ℕ := (a.takeWhile id).length

def recorded (a : List Bool) : ℕ := leading a + if false ∈ a then 1 else 0

def passes (as : List (List Bool)) : ℕ := (as.map leading).sum

def failures (as : List (List Bool)) : ℕ := as.countP (fun a ↦ false ∈ a)

/-- No `int` counter goes past its largest value. -/
structure InRange (events : List Event) : Prop where
  passes : passes (activations events) < 2 ^ 31
  failures : failures (activations events) < 2 ^ 31
  recorded : ∀ a ∈ activations events, recorded a < 2 ^ 31

structure Verdict (s : Harness) (events : List Event) : Prop where
  exit : s.exitStatus = 1 ↔ ∃ c, .check c ∈ events ∧ c.outcome = false
  failed : s.failed.toInt = failures (activations events)
  passed : s.passed.toInt = passes (activations events)
  nodup : s.failedSections.Nodup
  listed : s.failedSections ≠ [] ↔ 0 < s.failed.toInt

variable {s s' t : Harness} {c : Check} {a : List Bool} {as : List (List Bool)}
  {events : List Event}

theorem leading_nil : leading [] = 0 := rfl

theorem leading_true : leading (true :: a) = leading a + 1 := rfl

theorem leading_false : leading (false :: a) = 0 := rfl

theorem recorded_nil : recorded [] = 0 := rfl

theorem recorded_true : recorded (true :: a) = recorded a + 1 := by
  simp [recorded, leading_true, Nat.add_right_comm]

theorem recorded_false : recorded (false :: a) = 1 := by simp [recorded, leading_false]

theorem recorded_pos (b : Bool) (a : List Bool) : 0 < recorded (b :: a) := by
  cases b with
  | false =>
    rw [recorded_false]
    exact Nat.one_pos
  | true =>
    rw [recorded_true]
    exact Nat.succ_pos _

theorem passes_cons : passes (a :: as) = leading a + passes as := rfl

theorem failures_nil : failures ([] :: as) = failures as := by
  simp [failures]

theorem failures_true : failures ((true :: a) :: as) = failures (a :: as) := by
  simp [failures, List.countP_cons]

theorem failures_false : failures ((false :: a) :: as) = failures as + 1 := by
  simp [failures]

/-- What is left of the ranges in the state `s`, `a` being the checks to come in
the section under way and `as` those of the later ones. -/
structure Room (s : Harness) (a : List Bool) (as : List (List Bool)) : Prop where
  passed : s.passed.toInt + passes (a :: as) < 2 ^ 31
  failed : s.failed.toInt + failures (a :: as) < 2 ^ 31
  index : s.sectionIdx.toInt + recorded a < 2 ^ 31
  later : ∀ a' ∈ as, recorded a' < 2 ^ 31

structure Totals (s : Harness) (as : List (List Bool)) (s' : Harness) : Prop where
  passed : s'.passed.toInt = s.passed.toInt + passes as
  failed : s'.failed.toInt = s.failed.toInt + failures as

theorem room_iff : Room s a as ↔
    s.passed.toInt + passes (a :: as) < 2 ^ 31 ∧ s.failed.toInt + failures (a :: as) < 2 ^ 31 ∧
      s.sectionIdx.toInt + recorded a < 2 ^ 31 ∧ ∀ a' ∈ as, recorded a' < 2 ^ 31 :=
  ⟨fun h ↦ ⟨h.passed, h.failed, h.index, h.later⟩, fun h ↦ ⟨h.1, h.2.1, h.2.2.1, h.2.2.2⟩⟩

theorem room_section (hp : t.passed = s.passed) (hf : t.failed = s.failed)
    (hi : t.sectionIdx = 0) : Room s [] (a :: as) ↔ Room t a as := by
  have hlt := s.sectionIdx.toInt_lt
  have hzero : (0 : Int32).toInt = 0 := rfl
  rw [room_iff, room_iff, hp, hf, hi, hzero, List.forall_mem_cons, recorded_nil, passes_cons,
    failures_nil, leading_nil, Nat.zero_add]
  constructor
  · intro h
    obtain ⟨hpassed, hfailed, -, hrec, hlater⟩ := h
    exact ⟨hpassed, hfailed, by omega, hlater⟩
  · intro h
    obtain ⟨hpassed, hfailed, hrec, hlater⟩ := h
    exact ⟨hpassed, hfailed, by omega, by omega, hlater⟩

theorem room_pass (hp : t.passed.toInt = s.passed.toInt + 1) (hf : t.failed = s.failed)
    (hi : t.sectionIdx.toInt = s.sectionIdx.toInt + 1) :
    Room s (true :: a) as ↔ Room t a as := by
  rw [room_iff, room_iff, hp, hf, hi, passes_cons, passes_cons, failures_true, leading_true,
    recorded_true]
  exact and_congr (by omega) (and_congr Iff.rfl (and_congr (by omega) Iff.rfl))

theorem room_fail (hp : t.passed = s.passed) (hf : t.failed.toInt = s.failed.toInt + 1)
    (hi : t.sectionIdx.toInt = s.sectionIdx.toInt + 1) :
    Room s (false :: a) as ↔ Room t [] as := by
  rw [room_iff, room_iff, hp, hf, hi, passes_cons, passes_cons, failures_false, failures_nil,
    leading_false, leading_nil, recorded_false, recorded_nil]
  exact and_congr Iff.rfl (and_congr (by omega) (and_congr (by omega) Iff.rfl))

theorem totals_section (hp : t.passed = s.passed) (hf : t.failed = s.failed)
    (h : Totals t (a :: as) s') : Totals s ([] :: a :: as) s' := by
  refine ⟨?_, ?_⟩
  · rw [h.passed, hp, passes_cons (a := []), leading_nil, Nat.zero_add]
  · rw [h.failed, hf, failures_nil]

theorem totals_pass (hp : t.passed.toInt = s.passed.toInt + 1) (hf : t.failed = s.failed)
    (h : Totals t (a :: as) s') : Totals s ((true :: a) :: as) s' := by
  refine ⟨?_, ?_⟩
  · rw [h.passed, hp, passes_cons, passes_cons, leading_true]
    omega
  · rw [h.failed, hf, failures_true]

theorem totals_fail (hp : t.passed = s.passed) (hf : t.failed.toInt = s.failed.toInt + 1)
    (h : Totals t ([] :: as) s') : Totals s ((false :: a) :: as) s' := by
  refine ⟨?_, ?_⟩
  · rw [h.passed, hp, passes_cons, passes_cons, leading_false, leading_nil]
  · rw [h.failed, hf, failures_false, failures_nil]
    omega

/-- The checks still to be recorded in the section under way. -/
def pending (s : Harness) (events : List Event) : List Bool :=
  if s.sectionAborted then [] else (outcomes events).1

/-- The run succeeds exactly when there is room, and adds up what is to come. -/
def Runs (s : Harness) (events : List Event) : Prop :=
  (Room s (pending s events) (outcomes events).2 →
    ∃ s', s.run events = .ok s' ∧ Totals s (pending s events :: (outcomes events).2) s') ∧
  (¬ Room s (pending s events) (outcomes events).2 → s.run events = .error .overflow)

theorem pending_aborted (h : s.sectionAborted = true) : pending s events = [] := if_pos h

theorem pending_armed (h : s.sectionAborted = false) :
    pending s events = (outcomes events).1 := if_neg (by simp [h])

theorem pending_done (h : (outcomes events).1 = []) : pending s events = [] := by
  rw [pending, h, ite_self]

theorem runs_nil (s : Harness) : Runs s [] := by
  have hp := s.passed.toInt_lt
  have hf := s.failed.toInt_lt
  have hi := s.sectionIdx.toInt_lt
  rw [Runs, pending_done rfl]
  constructor
  · intro _
    exact ⟨s, rfl, (Int.add_zero _).symm, (Int.add_zero _).symm⟩
  · intro hroom
    refine absurd ⟨?_, ?_, ?_, fun a' ha' ↦ absurd ha' List.not_mem_nil⟩ hroom
    · exact Int.lt_of_le_of_lt (Int.le_of_eq (Int.add_zero _)) hp
    · exact Int.lt_of_le_of_lt (Int.le_of_eq (Int.add_zero _)) hf
    · exact Int.lt_of_le_of_lt (Int.le_of_eq (Int.add_zero _)) hi

theorem Runs.cons {e : Event} {b : List Bool} (hstep : s.step e = .ok t)
    (ha : pending s (e :: events) = a) (hb : pending t events = b)
    (hroom : Room s a (outcomes (e :: events)).2 ↔ Room t b (outcomes events).2)
    (htotals : ∀ s', Totals t (b :: (outcomes events).2) s' →
      Totals s (a :: (outcomes (e :: events)).2) s')
    (h : Runs t events) : Runs s (e :: events) := by
  have hrun : s.run (e :: events) = t.run events := by
    rw [Harness.run, List.foldlM_cons, hstep, ok_bind]
    rfl
  rw [Runs, hb] at h
  rw [Runs, ha, hroom, hrun]
  constructor
  · intro ht
    obtain ⟨s', hok, htot⟩ := h.1 ht
    exact ⟨s', hok, htotals s' htot⟩
  · exact h.2

theorem runs_error {e : Event} (hstep : s.step e = .error .overflow)
    (hroom : ¬ Room s (pending s (e :: events)) (outcomes (e :: events)).2) :
    Runs s (e :: events) := by
  refine ⟨fun h ↦ absurd h hroom, fun _ ↦ ?_⟩
  rw [Harness.run, List.foldlM_cons, hstep]
  rfl

theorem runs_section (name : ℕ) (ih : ∀ t : Harness, Runs t events) :
    Runs s (.newSection name :: events) :=
  Runs.cons rfl (pending_done rfl) (pending_armed rfl) (room_section rfl rfl rfl)
    (fun _ ↦ totals_section rfl rfl) (ih _)

theorem pending_check (ha : s.sectionAborted = false) :
    pending s (.check c :: events) = c.outcome :: (outcomes events).1 := pending_armed ha

theorem runs_check (c : Check) (ih : ∀ t : Harness, Runs t events) :
    Runs s (.check c :: events) := by
  have hresult := check_result s c
  generalize hstep : s.check c = r at hresult
  cases hresult with
  | skipped ha =>
    exact Runs.cons hstep (pending_aborted ha) (pending_aborted ha) Iff.rfl (fun _ h ↦ h) (ih s)
  | pass idx passed ha hc hidx hpassed =>
    have hpending : pending s (.check c :: events) = true :: (outcomes events).1 := by
      rw [pending_check ha, hc]
    exact Runs.cons hstep hpending (pending_armed ha) (room_pass hpassed rfl hidx)
      (fun _ ↦ totals_pass hpassed rfl) (ih _)
  | fail idx failed ha hc hidx hfailed =>
    have hpending : pending s (.check c :: events) = false :: (outcomes events).1 := by
      rw [pending_check ha, hc]
    exact Runs.cons hstep hpending (pending_aborted rfl) (room_fail rfl hfailed hidx)
      (fun _ ↦ totals_fail rfl hfailed) (ih _)
  | indexOverflow ha hidx =>
    refine runs_error hstep (fun h ↦ ?_)
    have hi := h.index
    have hpos := recorded_pos c.outcome (outcomes events).1
    rw [pending_check ha] at hi
    omega
  | passedOverflow ha hc hpassed =>
    refine runs_error hstep (fun h ↦ ?_)
    have hp := h.passed
    rw [pending_check ha, hc, passes_cons, leading_true] at hp
    omega
  | failedOverflow ha hc hfailed =>
    refine runs_error hstep (fun h ↦ ?_)
    have hf := h.failed
    rw [pending_check ha, hc, failures_false] at hf
    omega

theorem runs_all (s : Harness) (events : List Event) : Runs s events := by
  induction events generalizing s with
  | nil => exact runs_nil s
  | cons e events ih =>
    cases e with
    | newSection name => exact runs_section name ih
    | check c => exact runs_check c ih

/-- What a step does to the record of failures. -/
theorem step_failures {e : Event} (h : s.step e = .ok t) :
    t.failed = s.failed ∧ t.failedSections = s.failedSections ∧ t.reports = s.reports ∨
      ∃ r, t.failed.toInt = s.failed.toInt + 1 ∧
        t.failedSections = noteSection s.name s.failedSections ∧ t.reports = s.reports ++ [r] := by
  cases e with
  | newSection name =>
    cases h
    exact .inl ⟨rfl, rfl, rfl⟩
  | check c =>
    have hresult := check_result s c
    rw [show s.check c = .ok t from h] at hresult
    cases hresult with
    | skipped _ => exact .inl ⟨rfl, rfl, rfl⟩
    | pass idx passed _ _ _ _ => exact .inl ⟨rfl, rfl, rfl⟩
    | fail idx failed _ _ _ hval => exact .inr ⟨_, hval, rfl, rfl⟩

theorem noteSection_ne_nil (name : ℕ) (names : List ℕ) : noteSection name names ≠ [] := by
  rw [noteSection]
  split
  · exact List.ne_nil_of_mem ‹_›
  · split
    · simp
    · intro hnil
      subst hnil
      contradiction

theorem noteSection_nodup (name : ℕ) {names : List ℕ} (h : names.Nodup) :
    (noteSection name names).Nodup := by
  rw [noteSection]
  split
  · exact h
  · split
    · rw [← List.concat_eq_append]
      exact List.Nodup.concat ‹_› h
    · exact h

theorem noteSection_length (name : ℕ) {names : List ℕ}
    (h : names.length ≤ Harness.maxFailedSections) :
    (noteSection name names).length ≤ Harness.maxFailedSections := by
  rw [noteSection]
  split
  · exact h
  · split
    · rwa [List.length_append, List.length_singleton]
    · exact h

/-- The failed sections fit their array and name a failure each; one block is
printed for every failure. -/
structure Listed (s : Harness) : Prop where
  nodup : s.failedSections.Nodup
  capacity : s.failedSections.length ≤ Harness.maxFailedSections
  listed : s.failedSections ≠ [] ↔ 0 < s.failed.toInt
  printed : s.failed.toInt = s.reports.length

theorem Listed.step {e : Event} (hs : Listed s) (h : s.step e = .ok t) : Listed t := by
  rcases step_failures h with ⟨hf, hn, hr⟩ | ⟨r, hf, hn, hr⟩
  · exact ⟨by rw [hn]; exact hs.nodup, by rw [hn]; exact hs.capacity,
      by rw [hn, hf]; exact hs.listed, by rw [hf, hr]; exact hs.printed⟩
  · have hprinted := hs.printed
    refine ⟨?_, ?_, ?_, ?_⟩
    · rw [hn]
      exact noteSection_nodup s.name hs.nodup
    · rw [hn]
      exact noteSection_length s.name hs.capacity
    · rw [hn, hf]
      exact iff_of_true (noteSection_ne_nil _ _) (by omega)
    · rw [hf, hr, List.length_append, List.length_singleton]
      omega

theorem Listed.run (hs : Listed s) (h : s.run events = .ok s') : Listed s' := by
  induction events generalizing s with
  | nil =>
    cases h
    exact hs
  | cons e events ih =>
    rw [Harness.run, List.foldlM_cons] at h
    cases hstep : s.step e with
    | error f =>
      rw [hstep] at h
      cases h
    | ok t =>
      rw [hstep, ok_bind] at h
      exact ih (hs.step hstep) h

theorem listed_start (topLevel : ℕ) : Listed (.start topLevel) :=
  ⟨List.nodup_nil, Nat.zero_le _, iff_of_false (fun h ↦ h rfl) (Int.lt_irrefl 0), rfl⟩

theorem exists_failing : (∃ a ∈ activations events, false ∈ a) ↔
    ∃ c, .check c ∈ events ∧ c.outcome = false := by
  induction events with
  | nil => simp [activations, outcomes]
  | cons e events ih =>
    cases e with
    | newSection name =>
      have hstep : activations (.newSection name :: events) = [] :: activations events := rfl
      simpa [hstep] using ih
    | check c =>
      have hstep : activations (.check c :: events) =
          (c.outcome :: (outcomes events).1) :: (outcomes events).2 := rfl
      rw [activations, List.exists_mem_cons_iff] at ih
      rw [hstep, List.exists_mem_cons_iff, List.mem_cons, or_assoc, ih]
      constructor
      · intro h
        rcases h with hc | ⟨c', hc', hout⟩
        · exact ⟨c, List.mem_cons_self, hc.symm⟩
        · exact ⟨c', List.mem_cons_of_mem _ hc', hout⟩
      · intro h
        obtain ⟨c', hc', hout⟩ := h
        rcases List.mem_cons.mp hc' with heq | hmem
        · cases heq
          exact .inl hout.symm
        · exact .inr ⟨c', hmem, hout⟩

theorem failures_pos : 0 < failures as ↔ ∃ a ∈ as, false ∈ a := by
  simp [failures, List.countP_pos_iff]

theorem inRange_iff (topLevel : ℕ) : InRange events ↔
    Room (.start topLevel) (pending (.start topLevel) events) (outcomes events).2 := by
  have hpassed : (Harness.start topLevel).passed.toInt = 0 := rfl
  have hfailed : (Harness.start topLevel).failed.toInt = 0 := rfl
  have hindex : (Harness.start topLevel).sectionIdx.toInt = 0 := rfl
  rw [pending_armed rfl, room_iff, hpassed, hfailed, hindex]
  constructor
  · intro h
    obtain ⟨hfirst, hlater⟩ := List.forall_mem_cons.mp h.recorded
    have hp := h.passes
    have hf := h.failures
    rw [activations] at hp hf
    exact ⟨by omega, by omega, by omega, hlater⟩
  · intro h
    obtain ⟨hp, hf, hfirst, hlater⟩ := h
    refine ⟨?_, ?_, List.forall_mem_cons.mpr ⟨by omega, hlater⟩⟩
    · rw [activations]
      omega
    · rw [activations]
      omega

theorem exitStatus_eq_one : s.exitStatus = 1 ↔ s.failed.toInt ≠ 0 := by
  have hzero : s.failed.toInt ≠ 0 ↔ s.failed ≠ 0 :=
    not_congr (Int32.toInt_inj (y := 0))
  rw [Harness.exitStatus, hzero]
  split
  · exact iff_of_true rfl ‹_›
  · exact iff_of_false Nat.zero_ne_one ‹_›

/-- Outside the ranges the run overflows an `int` counter. -/
theorem run_overflow (topLevel : ℕ) (h : ¬ InRange events) :
    (Harness.start topLevel).run events = .error .overflow := by
  rw [inRange_iff topLevel] at h
  exact (runs_all _ events).2 h

theorem run_verdict (topLevel : ℕ) (h : InRange events) :
    ∃ s, (Harness.start topLevel).run events = .ok s ∧ Verdict s events := by
  obtain ⟨s, hrun, htotals⟩ := (runs_all _ events).1 ((inRange_iff topLevel).mp h)
  have hlisted := (listed_start topLevel).run hrun
  rw [pending_armed rfl] at htotals
  have hfailed : s.failed.toInt = failures (activations events) :=
    htotals.failed.trans (Int.zero_add _)
  have hpassed : s.passed.toInt = passes (activations events) :=
    htotals.passed.trans (Int.zero_add _)
  refine ⟨s, hrun, ?_, hfailed, hpassed, hlisted.nodup, hlisted.listed⟩
  rw [exitStatus_eq_one, ← exists_failing, ← failures_pos, hfailed]
  omega

example : ((Harness.start 8).run [.check (.bool true), .check (.bool false), .check (.bool true),
      .newSection 8, .check (.intEq 3 4)]).map
        (fun s ↦ (s.passed, s.failed, s.failedSections, s.exitStatus)) = .ok (1, 2, [8], 1) := by
  decide

theorem never_hides_iff (topLevel : ℕ) (events : List Event) :
    ((∃ s, (Harness.start topLevel).run events = .ok s ∧ Verdict s events) ↔ InRange events) ∧
      (¬ InRange events → (Harness.start topLevel).run events = .error .overflow) := by
  refine ⟨⟨fun h ↦ ?_, run_verdict topLevel⟩, run_overflow topLevel⟩
  obtain ⟨s, hrun, -⟩ := h
  by_contra hout
  rw [run_overflow topLevel hout] at hrun
  cases hrun

theorem passes_replicate (n : ℕ) :
    passes (activations (List.replicate n (.check (.bool true)))) = n := by
  have houtcomes : outcomes (List.replicate n (.check (.bool true))) =
      (List.replicate n true, []) := by
    induction n with
    | zero => rfl
    | succ n ih =>
      rw [List.replicate_succ, outcomes, ih]
      rfl
  rw [activations, houtcomes]
  simp [passes, leading]

/-- The counter of a run of passing checks overflows. -/
theorem two_pow_passes_overflow :
    ¬ ∃ s, (Harness.start 8).run (List.replicate (2 ^ 31) (.check (.bool true))) = .ok s ∧
      Verdict s (List.replicate (2 ^ 31) (.check (.bool true))) := by
  intro h
  obtain ⟨s, hrun, -⟩ := h
  rw [run_overflow 8 ?_] at hrun
  · cases hrun
  · intro hrange
    have hpasses := hrange.passes
    rw [passes_replicate] at hpasses
    exact Nat.lt_irrefl _ hpasses

end LowLevel.ProperC.Ctest
