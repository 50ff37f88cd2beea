import LowLevel.Interview.WorkerpoolProgress

namespace LowLevel.Interview.WorkerpoolSchedule

open Function Workerpool WorkerpoolInvariant WorkerpoolCorrect WorkerpoolProgress Basis.Transition
open scoped BigOperators

variable {n : ℕ} {items : List ℤ} {fn : ℤ → ℤ} {s t : State n} {l : Label n}
variable {tr : List (Label n)}

theorem potential_goto (items : List ℤ) (k : Fin n) (pc : WorkerPc) {old : WorkerPc}
    (hw : s.worker k = old) :
    potential items (s.goto k pc) + workerRank old = potential items s + workerRank pc := by
  have hsum := rank_update s.worker k pc hw
  simp only [potential, goto_worker, goto_main, goto_panicked]
  omega

/-- A step that does not panic uses up exactly one unit of potential. -/
theorem potential_spent (hctl : Control items s) (hm : Move items fn s l t)
    (ht : t.panicked = false) : potential items t + 1 = potential items s := by
  cases hm with
  | spawn k hs =>
    have hu : s.worker k = .unborn := (hctl.unborn k).mpr ⟨k, hs, le_rfl⟩
    have hg := potential_goto items k .receiving hu
    have hk := k.isLt
    simp only [potential, workerRank, goto_main, goto_worker, goto_panicked, hs, sent,
      mainRank] at hg ⊢
    omega
  | launched hs => simp [potential, hs, sent, mainRank]; omega
  | send k job hi hs hcl hw =>
    have hg := potential_goto items k (.holding job) hw
    obtain ⟨hlt, -⟩ := List.getElem?_eq_some_iff.mp hi
    simp only [potential, workerRank, goto_main, goto_worker, goto_panicked, hs, sent,
      mainRank] at hg ⊢
    omega
  | apply k job hw =>
    have hg := potential_goto items k (.storing job.index (fn job.val)) hw
    simp only [workerRank] at hg
    omega
  | write k index v hw hlt =>
    have hg := potential_goto items k .receiving hw
    simp only [potential, workerRank, goto_main, goto_worker, goto_panicked] at hg ⊢
    omega
  | close hs hcl => simp [potential, hs, sent, mainRank]; omega
  | leave k hw hcl =>
    have hg := potential_goto items k .leaving hw
    simp only [workerRank] at hg
    omega
  | done k hw hpos =>
    have hg := potential_goto items k .exited hw
    simp only [potential, workerRank, goto_main, goto_worker, goto_panicked] at hg ⊢
    omega
  | wait hs hz => simp [potential, hs, sent, mainRank]; omega
  | sendClosed | writeRange | closeClosed | doneNegative => cases ht

theorem potential_start (hi : items ≠ []) :
    potential items (start items n) = 3 * (items.length + n) + 4 := by
  simp [potential, start, hi, sent, mainRank, workerRank, crashRank]
  omega

theorem potential_run (hi : items ≠ []) (h : Run (step items fn) (start items n) tr s) :
    tr.length + potential items s = 3 * (items.length + n) + 4 := by
  have hboth : Sound items fn tr s ∧ tr.length + potential items s =
      3 * (items.length + n) + 4 := by
    refine h.invariant (I := fun tr s ↦ Sound items fn tr s ∧ tr.length + potential items s =
      3 * (items.length + n) + 4) ⟨sound_run hi (.nil _), by simp [potential_start hi]⟩ ?_
    rintro tr t l u ⟨hs, hlen⟩ hstep
    obtain ⟨-, hm⟩ := step_move hstep
    have hs' := hs.step hm
    have hp := potential_spent hs.control hm hs'.control.calm
    refine ⟨hs', ?_⟩
    simp only [List.length_append, List.length_singleton]
    omega
  exact hboth.2

def finished (items : List ℤ) (fn : ℤ → ℤ) (n : ℕ) : State n where
  main := .returned
  worker := fun _ ↦ .exited
  closed := true
  counter := 0
  results := items.map fn
  panicked := false

theorem finished_of_returned (h : Sound items fn tr s) (hr : s.main = .returned) :
    s = finished items fn n := by
  have hw : s.worker = fun _ ↦ .exited := funext (h.control.exited (h.control.drained hr))
  have hcl : s.closed = true := h.control.closed.mpr (Or.inr hr)
  have hz := h.control.drained hr
  have hres : s.results = items.map fn := by
    apply List.ext_getElem?
    intro i
    rw [List.getElem?_map]
    rcases lt_or_ge i items.length with hi | hi
    · exact h.ledger.slots i (by simp [(h.returned hr i).2, hi])
    · rw [List.getElem?_eq_none (h.carried.length ▸ hi), List.getElem?_eq_none hi]
      rfl
  have hp := h.control.calm
  obtain ⟨main, worker, closed, counter, results, panicked⟩ := s
  simp only at hr hw hcl hz hres hp
  subst hr hw hcl hz hres hp
  rfl

theorem potential_finished : potential items (finished items fn n) = 1 := by
  simp [potential, finished, sent, mainRank, workerRank, crashRank]

theorem returned_of_potential (hp : s.panicked = false) (h : potential items s = 1) :
    s.main = .returned := by
  cases hm : s.main with
  | returned => rfl
  | spawn i | feed i | waiting =>
    simp only [potential, hm, mainRank, hp, crashRank] at h
    omega

/-- The schedule decides nothing: each can be carried on until `Process`
returns, each takes as many steps, and all end in one state. -/
theorem schedules_agree (items : List ℤ) (workers : ℤ) (fn : ℤ → ℤ) (hi : items ≠ [])
    (tr : List (Label (poolSize workers))) (s : State (poolSize workers))
    (h : Run (step items fn) (start items (poolSize workers)) tr s) :
    (∃ tr', Run (step items fn) (start items (poolSize workers)) (tr ++ tr')
      (finished items fn (poolSize workers))) ∧
    (s = finished items fn (poolSize workers) ↔
      tr.length = 3 * (items.length + poolSize workers) + 3) ∧
    (s ≠ finished items fn (poolSize workers) → ∃ l t, step items fn s l = some t) := by
  have hlen := potential_run hi h
  have hs := sound_run hi h
  have hmore : ∀ tr (t : State (poolSize workers)),
      Run (step items fn) (start items (poolSize workers)) tr t → t.main ≠ .returned →
      ∃ l u, step items fn t l = some u := by
    intro tr t ht hr
    obtain ⟨l, hl⟩ : ∃ l, (step items fn t l).isSome :=
      enabled (sound_run hi ht).control (poolSize_pos workers) hr
    obtain ⟨u, hu⟩ := Option.isSome_iff_exists.mp hl
    exact ⟨l, u, hu⟩
  refine ⟨?_, ⟨?_, ?_⟩, ?_⟩
  · obtain ⟨tr', u, hrun, hu⟩ := h.complete (fun _ _ _ ↦ potential_step) hmore
    exact ⟨tr', finished_of_returned (sound_run hi hrun) hu ▸ hrun⟩
  · rintro rfl
    rw [potential_finished] at hlen
    omega
  · intro hl
    have hone : potential items s = 1 := by omega
    exact finished_of_returned hs (returned_of_potential hs.control.calm hone)
  · intro hne
    exact hmore tr s h (fun hr ↦ hne (finished_of_returned hs hr))

theorem schedules_agree_two_items : ∃ tr,
    Run (step [3, 5] (fun x ↦ x * x)) (start [3, 5] (poolSize 4)) tr
      (finished [3, 5] (fun x ↦ x * x) (poolSize 4)) :=
  (schedules_agree [3, 5] 4 (fun x ↦ x * x) (by simp) [] _ (.nil _)).1

end LowLevel.Interview.WorkerpoolSchedule
