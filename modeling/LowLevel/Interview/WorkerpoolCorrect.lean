import LowLevel.Interview.WorkerpoolInvariant

namespace LowLevel.Interview.WorkerpoolCorrect

open Function Workerpool WorkerpoolInvariant Basis.Transition
open scoped BigOperators

variable {n : ℕ} {items : List ℤ} {fn : ℤ → ℤ} {s t : State n} {l : Label n}
variable {tr : List (Label n)}

def carries (i : ℕ) : WorkerPc → ℕ
  | .holding job => if job.index = i then 1 else 0
  | .storing index _ => if index = i then 1 else 0
  | _ => 0

def stores (i : ℕ) : WorkerPc → ℕ
  | .storing index _ => if index = i then 1 else 0
  | _ => 0

def applies (i : ℕ) : Label n → Bool
  | .apply _ job => job.index = i
  | _ => false

def writes (i : ℕ) : Label n → Bool
  | .write _ index => index = i
  | _ => false

def sent (items : List ℤ) : MainPc → ℕ
  | .spawn _ => 0
  | .feed index => index
  | .waiting | .returned => items.length

def due (items : List ℤ) (pc : MainPc) (i : ℕ) : ℕ := if i < sent items pc then 1 else 0

/-- The trace accounts for every index: handed over means carried by exactly
one worker or already written, and written means applied. -/
structure Ledger (items : List ℤ) (fn : ℤ → ℤ) (tr : List (Label n)) (s : State n) : Prop where
  account : ∀ i, ∑ k, carries i (s.worker k) + tr.countP (writes i) = due items s.main i
  applied : ∀ i, ∑ k, stores i (s.worker k) + tr.countP (writes i) = tr.countP (applies i)
  args : ∀ k job, .apply k job ∈ tr → items[job.index]? = some job.val
  slots : ∀ i, tr.countP (writes i) ≠ 0 → s.results[i]? = items[i]?.map fn
  ended : s.main = .returned → ∃ tr', tr = tr' ++ [.wait]

theorem ledger_start (hi : items ≠ []) : Ledger items fn [] (start items n) where
  account := by simp [start, hi, carries, due, sent]
  applied := by simp [start, stores]
  args := by simp
  slots := by simp
  ended := by simp [start, hi]

theorem Ledger.quiet (h : Ledger items fn tr s)
    (hc : ∀ i, ∑ k, carries i (t.worker k) = ∑ k, carries i (s.worker k))
    (hs : ∀ i, ∑ k, stores i (t.worker k) = ∑ k, stores i (s.worker k))
    (hr : t.results = s.results) (hm : due items t.main = due items s.main)
    (ha : ∀ i, applies i l = false) (hw : ∀ i, writes i l = false)
    (he : t.main = .returned → l = .wait) : Ledger items fn (tr ++ [l]) t where
  account := by
    intro i
    simpa [List.countP_append, hw, hc, hm] using h.account i
  applied := by
    intro i
    simpa [List.countP_append, hw, ha, hs] using h.applied i
  args := by
    intro k job hmem
    rcases List.mem_append.mp hmem with hmem | hmem
    · exact h.args k job hmem
    · have hl := ha job.index
      rw [← List.mem_singleton.mp hmem] at hl
      simp [applies] at hl
  slots := by
    intro i hi
    rw [hr]
    exact h.slots i (by simpa [List.countP_append, hw] using hi)
  ended := by
    intro hret
    exact ⟨tr, by rw [he hret]⟩

theorem sum_goto (f : WorkerPc → ℕ) (s : State n) (k : Fin n) (pc : WorkerPc) {old : WorkerPc}
    (hw : s.worker k = old) (hf : f pc = f old) :
    ∑ j, f (update s.worker k pc j) = ∑ j, f (s.worker j) := by
  have hsum := sum_update f s.worker k pc
  rw [hf, hw] at hsum
  exact Nat.add_right_cancel hsum

theorem Ledger.step (h : Ledger items fn tr s) (hc : Carried items fn s) (hctl : Control items s)
    (hm : Move items fn s l t) : Ledger items fn (tr ++ [l]) t := by
  have hret : s.main ≠ .returned := fun hr ↦ hctl.final hr hm
  have hcalm : t.panicked = false := (hctl.step hc hm).calm
  cases hm with
  | spawn k hs =>
    have hk : s.worker k = .unborn := (hctl.unborn k).mpr ⟨k, hs, le_rfl⟩
    exact h.quiet (fun i ↦ sum_goto _ s k _ hk rfl) (fun i ↦ sum_goto _ s k _ hk rfl) rfl
      (by rw [hs]; rfl) (fun _ ↦ rfl) (fun _ ↦ rfl) (by simp)
  | launched hs =>
    exact h.quiet (fun _ ↦ rfl) (fun _ ↦ rfl) rfl (by rw [hs]; rfl)
      (fun _ ↦ rfl) (fun _ ↦ rfl) (by simp)
  | send k job hi hs hcl hw =>
    refine ⟨?_, ?_, ?_, ?_, by simp⟩
    · intro i
      have hsum := sum_update (carries i) s.worker k (.holding job)
      have ha := h.account i
      have hnew : carries i (.holding job) = if job.index = i then 1 else 0 := rfl
      have hold : carries i .receiving = 0 := rfl
      have hdue : due items (.feed (job.index + 1)) i =
          due items (.feed job.index) i + if job.index = i then 1 else 0 := by
        change (if i < job.index + 1 then 1 else 0) = (if i < job.index then 1 else 0) + _
        split_ifs <;> omega
      rw [hw, hold] at hsum
      rw [hs] at ha
      simp only [goto_worker, List.countP_append, List.countP_singleton, writes,
        Bool.false_eq_true, if_false]
      omega
    · intro i
      have hsum := sum_goto (stores i) s k (.holding job) hw rfl
      simpa [List.countP_append, hsum, applies, writes] using h.applied i
    · intro j job' hmem
      exact h.args j job' (by simpa using hmem)
    · intro i hi'
      exact h.slots i (by simpa [List.countP_append, writes] using hi')
  | apply k job hw =>
    refine ⟨?_, ?_, ?_, ?_, fun hr ↦ absurd hr hret⟩
    · intro i
      have hsum := sum_goto (carries i) s k (.storing job.index (fn job.val)) hw rfl
      simpa [List.countP_append, hsum, writes] using h.account i
    · intro i
      have hsum := sum_update (stores i) s.worker k (.storing job.index (fn job.val))
      have ha := h.applied i
      have hnew : stores i (.storing job.index (fn job.val)) = if job.index = i then 1 else 0 := rfl
      have hold : stores i (.holding job) = 0 := rfl
      rw [hw, hnew, hold] at hsum
      simp only [goto_worker, List.countP_append, List.countP_singleton, writes, applies,
        decide_eq_true_eq, Bool.false_eq_true, if_false]
      omega
    · intro j job' hmem
      rcases List.mem_append.mp hmem with hmem | hmem
      · exact h.args j job' hmem
      · cases List.mem_singleton.mp hmem
        exact hc.holding k job hw
    · intro i hi
      exact h.slots i (by simpa [List.countP_append, writes] using hi)
  | write k index v hw hlt =>
    have hv := hc.storing k index v hw
    refine ⟨?_, ?_, ?_, ?_, fun hr ↦ absurd hr hret⟩
    · intro i
      have hsum := sum_update (carries i) s.worker k .receiving
      have ha := h.account i
      have hnew : carries i .receiving = 0 := rfl
      have hold : carries i (.storing index v) = if index = i then 1 else 0 := rfl
      rw [hw, hnew, hold] at hsum
      simp only [goto_worker, goto_main, List.countP_append, List.countP_singleton, writes,
        decide_eq_true_eq]
      omega
    · intro i
      have hsum := sum_update (stores i) s.worker k .receiving
      have ha := h.applied i
      have hnew : stores i .receiving = 0 := rfl
      have hold : stores i (.storing index v) = if index = i then 1 else 0 := rfl
      rw [hw, hnew, hold] at hsum
      simp only [goto_worker, List.countP_append, List.countP_singleton, writes, applies,
        decide_eq_true_eq, Bool.false_eq_true, if_false]
      omega
    · intro j job' hmem
      exact h.args j job' (by simpa using hmem)
    · intro i hi
      rcases eq_or_ne index i with heq | hne
      · subst heq
        simpa [List.getElem?_set_self hlt] using hv.symm
      · rw [List.getElem?_set_ne hne]
        exact h.slots i (by simpa [List.countP_append, writes, hne] using hi)
  | close hs hcl =>
    exact h.quiet (fun _ ↦ rfl) (fun _ ↦ rfl) rfl (by rw [hs]; rfl)
      (fun _ ↦ rfl) (fun _ ↦ rfl) (by simp)
  | leave k hw hcl =>
    exact h.quiet (fun i ↦ sum_goto _ s k _ hw rfl) (fun i ↦ sum_goto _ s k _ hw rfl) rfl rfl
      (fun _ ↦ rfl) (fun _ ↦ rfl) (fun hr ↦ absurd hr hret)
  | done k hw hpos =>
    exact h.quiet (fun i ↦ sum_goto _ s k _ hw rfl) (fun i ↦ sum_goto _ s k _ hw rfl) rfl rfl
      (fun _ ↦ rfl) (fun _ ↦ rfl) (fun hr ↦ absurd hr hret)
  | wait hs hz =>
    exact h.quiet (fun _ ↦ rfl) (fun _ ↦ rfl) rfl (by rw [hs]; rfl)
      (fun _ ↦ rfl) (fun _ ↦ rfl) (fun _ ↦ rfl)
  | sendClosed | writeRange | closeClosed | doneNegative => cases hcalm

structure Sound (items : List ℤ) (fn : ℤ → ℤ) (tr : List (Label n)) (s : State n) : Prop where
  carried : Carried items fn s
  control : Control items s
  ledger : Ledger items fn tr s

theorem Sound.step (h : Sound items fn tr s) (hm : Move items fn s l t) :
    Sound items fn (tr ++ [l]) t :=
  ⟨h.carried.step hm, h.control.step h.carried hm, h.ledger.step h.carried h.control hm⟩

theorem sound_run (hi : items ≠ []) (h : Run (step items fn) (start items n) tr s) :
    Sound items fn tr s := by
  refine h.invariant ⟨carried_start, control_start hi, ledger_start hi⟩ ?_
  intro tr t l u hs hstep
  obtain ⟨-, hm⟩ := step_move hstep
  exact ⟨hs.carried.step hm, hs.control.step hs.carried hm, hs.ledger.step hs.carried hs.control hm⟩

theorem start_nil_stuck (l : Label n) : step [] fn (start [] n) l = none := by
  cases l <;> simp [step, start]

theorem Sound.returned (h : Sound items fn tr s) (hr : s.main = .returned) (i : ℕ) :
    tr.countP (applies i) = (if i < items.length then 1 else 0) ∧
    tr.countP (writes i) = (if i < items.length then 1 else 0) := by
  have hw := h.control.exited (h.control.drained hr)
  have ha := h.ledger.account i
  have hb := h.ledger.applied i
  simp only [hw, carries, stores, Finset.sum_const_zero, zero_add, hr, due, sent] at ha hb
  exact ⟨hb.symm.trans ha, ha⟩

/-- Under every schedule, when `Process` has returned the slots hold the
images of the items in order, `fn` has been applied once for each index and
to that item, and each slot was written once, before `wg.Wait` returned. -/
theorem process_correct (items : List ℤ) (workers : ℤ) (fn : ℤ → ℤ)
    (tr : List (Label (poolSize workers))) (s : State (poolSize workers))
    (h : Run (step items fn) (start items (poolSize workers)) tr s) (hr : s.main = .returned) :
    s.results.length = items.length ∧
    (∀ i : ℕ, s.results[i]? = items[i]?.map fn) ∧
    (∀ i, tr.countP (applies i) = (if i < items.length then 1 else 0) ∧
      tr.countP (writes i) = (if i < items.length then 1 else 0)) ∧
    (∀ k job, .apply k job ∈ tr → items[job.index]? = some job.val) ∧
    (items ≠ [] → ∃ tr', tr = tr' ++ [.wait]) := by
  rcases eq_or_ne items [] with heq | hne
  · subst heq
    obtain ⟨rfl, rfl⟩ := run_stuck h start_nil_stuck
    simp [start]
  · have hs := sound_run hne h
    have hlen := hs.carried.length
    refine ⟨hlen, fun i ↦ ?_, hs.returned hr, hs.ledger.args, fun _ ↦ hs.ledger.ended hr⟩
    rcases lt_or_ge i items.length with hi | hi
    · exact hs.ledger.slots i (by simp [(hs.returned hr i).2, hi])
    · rw [List.getElem?_eq_none (hlen ▸ hi), List.getElem?_eq_none hi]
      rfl

def oneWorker : List (Label (poolSize 0)) :=
  [.spawn ⟨0, by decide⟩, .launched, .send ⟨0, by decide⟩ 0, .apply ⟨0, by decide⟩ ⟨0, 3⟩,
    .write ⟨0, by decide⟩ 0, .send ⟨0, by decide⟩ 1, .close, .apply ⟨0, by decide⟩ ⟨1, 5⟩,
    .write ⟨0, by decide⟩ 1, .leave ⟨0, by decide⟩, .done ⟨0, by decide⟩, .wait]

theorem process_correct_one_worker :
    ∃ s, follow (step [3, 5] (fun x ↦ x + 1)) (start [3, 5] (poolSize 0)) oneWorker = some s ∧
      s.results[1]? = some 6 := by
  have hrun : follow (step [3, 5] (fun x ↦ x + 1)) (start [3, 5] (poolSize 0)) oneWorker =
    some _ := rfl
  exact ⟨_, hrun, (process_correct [3, 5] 0 (fun x ↦ x + 1) _ _ (run_follow hrun) rfl).2.1 1⟩

end LowLevel.Interview.WorkerpoolCorrect
