import LowLevel.Interview.WorkerpoolCorrect

namespace LowLevel.Interview.WorkerpoolProgress

open Function Workerpool WorkerpoolInvariant WorkerpoolCorrect Basis.Transition
open scoped BigOperators

variable {n : ℕ} {items : List ℤ} {fn : ℤ → ℤ} {s t : State n} {l : Label n}
variable {tr : List (Label n)}

def workerRank : WorkerPc → ℕ
  | .holding _ => 4
  | .storing _ _ => 3
  | .receiving => 2
  | .leaving => 1
  | .unborn | .exited => 0

/-- A goroutine still to be started, like an item still to be sent, weighs
more than a worker gains from it. -/
def mainRank (n : ℕ) : MainPc → ℕ
  | .spawn i => 3 * (n - i) + 3
  | .feed _ => 2
  | .waiting => 1
  | .returned => 0

def crashRank : Bool → ℕ
  | true => 0
  | false => 1

def potential (items : List ℤ) (s : State n) : ℕ :=
  3 * (items.length - sent items s.main) + mainRank n s.main +
    ∑ k, workerRank (s.worker k) + crashRank s.panicked

theorem rank_update (w : Fin n → WorkerPc) (k : Fin n) (pc : WorkerPc) {old : WorkerPc}
    (hw : w k = old) :
    ∑ j, workerRank (update w k pc j) + workerRank old = ∑ j, workerRank (w j) + workerRank pc := by
  rw [← hw]
  exact sum_update workerRank w k pc

/-- Every step of every goroutine uses up potential, from any state. -/
theorem potential_step (h : step items fn s l = some t) :
    potential items t < potential items s := by
  obtain ⟨hp, hm⟩ := step_move h
  have hpanic : potential items s.panic < potential items s := by
    simp [potential, State.panic, hp, crashRank]
  cases hm with
  | spawn k hs =>
    have hsum : ∑ j, workerRank (update s.worker k .receiving j) + workerRank (s.worker k) =
      ∑ j, workerRank (s.worker j) + 2 := rank_update s.worker k .receiving rfl
    have hk := k.isLt
    simp only [potential, goto_worker, goto_panicked, hs, sent, mainRank]
    omega
  | launched hs => simp [potential, hs, sent, mainRank]
  | send k job hi hs hcl hw =>
    have hsum : ∑ j, workerRank (update s.worker k (.holding job) j) + 2 =
      ∑ j, workerRank (s.worker j) + 4 := rank_update s.worker k (.holding job) hw
    obtain ⟨hlt, -⟩ := List.getElem?_eq_some_iff.mp hi
    simp only [potential, goto_worker, goto_panicked, hs, sent, mainRank]
    omega
  | apply k job hw =>
    have hsum : ∑ j, workerRank (update s.worker k (.storing job.index (fn job.val)) j) + 4 =
      ∑ j, workerRank (s.worker j) + 3 := rank_update s.worker k _ hw
    simp only [potential, goto_worker, goto_main, goto_panicked]
    omega
  | write k index v hw hlt =>
    have hsum : ∑ j, workerRank (update s.worker k .receiving j) + 3 =
      ∑ j, workerRank (s.worker j) + 2 := rank_update s.worker k .receiving hw
    simp only [potential, goto_worker, goto_main, goto_panicked]
    omega
  | close hs hcl => simp [potential, hs, sent, mainRank]
  | leave k hw hcl =>
    have hsum : ∑ j, workerRank (update s.worker k .leaving j) + 2 =
      ∑ j, workerRank (s.worker j) + 1 := rank_update s.worker k .leaving hw
    simp only [potential, goto_worker, goto_main, goto_panicked]
    omega
  | done k hw hpos =>
    have hsum : ∑ j, workerRank (update s.worker k .exited j) + 1 =
      ∑ j, workerRank (s.worker j) + 0 := rank_update s.worker k .exited hw
    simp only [potential, goto_worker, goto_main, goto_panicked]
    omega
  | wait hs hz => simp [potential, hs, sent, mainRank]
  | sendClosed | writeRange | closeClosed | doneNegative => exact hpanic

theorem worker_enabled (hp : s.panicked = false) (k : Fin n) (hu : s.worker k ≠ .unborn)
    (he : s.worker k ≠ .exited) (hr : s.worker k = .receiving → s.closed = true) :
    ∃ l, (step items fn s l).isSome := by
  cases hw : s.worker k with
  | unborn => exact absurd hw hu
  | exited => exact absurd hw he
  | receiving => exact ⟨.leave k, by simp [step, hp, hw, hr hw]⟩
  | holding job => exact ⟨.apply k job, by simp [step, hp, hw]⟩
  | storing index v =>
    refine ⟨.write k index, ?_⟩
    rcases lt_or_ge index s.results.length with hlt | hge
    · simp [step, hp, hw, hlt]
    · simp [step, hp, hw, not_lt.mpr hge]
  | leaving =>
    refine ⟨.done k, ?_⟩
    cases hwg : wgAdd s.counter (-1) <;> simp [step, hp, hw, hwg]

theorem enabled (hctl : Control items s) (hn : 0 < n) (hr : s.main ≠ .returned) :
    ∃ l, (step items fn s l).isSome := by
  have hp := hctl.calm
  have hborn : ∀ k, (∀ i, s.main ≠ .spawn i) → s.worker k ≠ .unborn := by
    intro k hs hk
    obtain ⟨i, hi, -⟩ := (hctl.unborn k).mp hk
    exact hs i hi
  cases hs : s.main with
  | returned => exact absurd hs hr
  | spawn i =>
    rcases (hctl.spawned i hs).lt_or_eq with hlt | heq
    · exact ⟨.spawn ⟨i, hlt⟩, by simp [step, hp, hs]⟩
    · exact ⟨.launched, by simp [step, hp, hs, heq]⟩
  | feed index =>
    rcases (hctl.position index hs).lt_or_eq with hlt | heq
    · have hopen : s.closed = false := by
        have hcl := hctl.closed
        simpa [hs] using hcl
      let k : Fin n := ⟨0, hn⟩
      rcases eq_or_ne (s.worker k) .receiving with hw | hw
      · refine ⟨.send k index, ?_⟩
        simp [step, hp, hs, hopen, hw, List.getElem?_eq_getElem hlt]
      · refine worker_enabled hp k (hborn k (by simp [hs])) ?_ (fun h ↦ absurd h hw)
        intro he
        simpa [hopen] using hctl.parked k (Or.inr he)
    · have hopen : s.closed = false := by
        have hcl := hctl.closed
        simpa [hs] using hcl
      exact ⟨.close, by simp [step, hp, hs, heq, hopen]⟩
  | waiting =>
    have hcl : s.closed = true := hctl.closed.mpr (Or.inl hs)
    by_cases hall : ∀ k, s.worker k = .exited
    · have hz : s.counter = 0 := by simp [hctl.counter, hall, alive]
      exact ⟨.wait, by simp [step, hp, hs, hz]⟩
    · obtain ⟨k, hk⟩ := not_forall.mp hall
      exact worker_enabled hp k (hborn k (by simp [hs])) hk (fun _ ↦ hcl)

theorem poolSize_pos (workers : ℤ) : 0 < poolSize workers := by
  unfold poolSize
  split_ifs <;> omega

/-- For a non-empty batch and any number of workers no schedule deadlocks
before `Process` returns, none makes the counter negative or sends on the
closed channel, and none goes on for ever. -/
theorem process_terminates (items : List ℤ) (workers : ℤ) (fn : ℤ → ℤ) (hi : items ≠ []) :
    (∀ tr s, Run (step items fn) (start items (poolSize workers)) tr s →
      (s.main ≠ .returned → ∃ l t, step items fn s l = some t) ∧
      0 ≤ s.counter ∧ s.panicked = false ∧ ∀ index, step items fn s (.sendClosed index) = none) ∧
    (∀ (s t : State (poolSize workers)) l, step items fn s l = some t →
      potential items t < potential items s) ∧
    (∀ tr s, Run (step items fn) (start items (poolSize workers)) tr s →
      tr.length ≤ potential items (start items (poolSize workers))) ∧
    ¬ ∃ (f : ℕ → State (poolSize workers)) (g : ℕ → Label (poolSize workers)),
      f 0 = start items (poolSize workers) ∧ ∀ n, step items fn (f n) (g n) = some (f (n + 1)) := by
  refine ⟨?_, fun s t l h ↦ potential_step h, ?_, ?_⟩
  · intro tr s h
    have hs := sound_run hi h
    refine ⟨fun hr ↦ ?_, ?_, hs.control.calm, fun index ↦ ?_⟩
    · obtain ⟨l, hl⟩ : ∃ l, (step items fn s l).isSome :=
        enabled hs.control (poolSize_pos workers) hr
      obtain ⟨t, ht⟩ := Option.isSome_iff_exists.mp hl
      exact ⟨l, t, ht⟩
    · rw [hs.control.counter]
      exact Int.natCast_nonneg _
    · cases hstep : step items fn s (.sendClosed index) with
      | none => rfl
      | some t =>
        obtain ⟨-, hm⟩ := step_move hstep
        have hcalm := (hs.control.step hs.carried hm).calm
        cases hm
        cases hcalm
  · intro tr s h
    have hle := h.length_le (fun _ _ _ hstep ↦ potential_step hstep)
    omega
  · intro hex
    obtain ⟨f, g, -, hrun⟩ := hex
    have hdec : ∀ (s : State (poolSize workers)) l t, step items fn s l = some t →
        potential items t < potential items s := fun _ _ _ ↦ potential_step
    exact no_infinite_run hdec f g hrun

theorem process_terminates_two_items :
    ¬ ∃ (f : ℕ → State (poolSize 4)) (g : ℕ → Label (poolSize 4)),
      f 0 = start [3, 5] (poolSize 4) ∧
        ∀ n, step [3, 5] (fun x ↦ x * x) (f n) (g n) = some (f (n + 1)) :=
  (process_terminates [3, 5] 4 (fun x ↦ x * x) (by simp)).2.2.2

end LowLevel.Interview.WorkerpoolProgress
