import Mathlib.Order.Bounds.Basic
import LowLevel.Interview.WorkerpoolProgress

namespace LowLevel.Interview.WorkerpoolOrder

open Function Workerpool WorkerpoolInvariant WorkerpoolCorrect WorkerpoolProgress Basis.Transition
open scoped BigOperators

variable {n : ℕ} {items : List ℤ} {fn : ℤ → ℤ} {s t : State n} {l : Label n}
variable {tr : List (Label n)}

section fifo

def workerOf : Label n → Option (Fin n)
  | .send k _ | .apply k _ | .write k _ | .leave k | .done k => some k
  | .spawn _ | .launched | .sendClosed _ | .close | .wait => none

def sendIndex : Label n → Option ℕ
  | .send _ index => some index
  | _ => none

def writeIndex : Label n → Option ℕ
  | .write _ index => some index
  | _ => none

/-- The jobs worker `k` took off the channel, in the order in which it did. -/
def handed (k : Fin n) (tr : List (Label n)) : List ℕ :=
  (tr.filter (fun l ↦ workerOf l = some k)).filterMap sendIndex

def stored (k : Fin n) (tr : List (Label n)) : List ℕ :=
  (tr.filter (fun l ↦ workerOf l = some k)).filterMap writeIndex

def inHand : WorkerPc → List ℕ
  | .holding job => [job.index]
  | .storing index _ => [index]
  | _ => []

structure InOrder (items : List ℤ) (tr : List (Label n)) (s : State n) : Prop where
  sends : tr.filterMap sendIndex = List.range (sent items s.main)
  queue : ∀ k, handed k tr = stored k tr ++ inHand (s.worker k)

theorem inOrder_start : InOrder items [] (start items n) where
  sends := by
    rcases eq_or_ne items [] with heq | hne
    · simp [start, sent, heq]
    · simp [start, sent, hne]
  queue := by simp [handed, stored, start, inHand]

theorem handed_snoc (k : Fin n) : handed k (tr ++ [l]) =
    handed k tr ++ if workerOf l = some k then (sendIndex l).toList else [] := by
  by_cases h : workerOf l = some k
  · cases hs : sendIndex l <;> simp [handed, h, hs]
  · simp [handed, h]

theorem stored_snoc (k : Fin n) : stored k (tr ++ [l]) =
    stored k tr ++ if workerOf l = some k then (writeIndex l).toList else [] := by
  by_cases h : workerOf l = some k
  · cases hs : writeIndex l <;> simp [stored, h, hs]
  · simp [stored, h]

/-- What a calm step does to the hand of worker `k`: a job comes in on a send,
and goes out when it is stored. -/
theorem move_hand (hctl : Control items s) (hm : Move items fn s l t) (ht : t.panicked = false)
    (k : Fin n) :
    inHand (s.worker k) ++ (if workerOf l = some k then (sendIndex l).toList else []) =
      (if workerOf l = some k then (writeIndex l).toList else []) ++ inHand (t.worker k) := by
  cases hm with
  | spawn j hs =>
    by_cases hjk : k = j
    · subst hjk
      have hu : s.worker k = .unborn := (hctl.unborn k).mpr ⟨k, hs, le_rfl⟩
      simp [workerOf, inHand, hu]
    · simp [workerOf, update_of_ne hjk]
  | send j job _ _ _ hw | apply j job hw | write j _ _ hw _ | leave j hw _ | done j hw _ =>
    by_cases hjk : k = j
    · subst hjk
      simp [workerOf, sendIndex, writeIndex, inHand, hw]
    · simp [workerOf, Ne.symm hjk, update_of_ne hjk]
  | launched | close | wait => simp [workerOf]
  | sendClosed | writeRange | closeClosed | doneNegative => cases ht

theorem move_sent (hm : Move items fn s l t) (ht : t.panicked = false) :
    List.range (sent items t.main) = List.range (sent items s.main) ++ (sendIndex l).toList := by
  cases hm with
  | send k job _ hs _ _ => simp [hs, sent, sendIndex, List.range_succ]
  | spawn k hs | launched hs | close hs | wait hs => simp [hs, sent, sendIndex]
  | apply | write | leave | done => simp [sendIndex]
  | sendClosed | writeRange | closeClosed | doneNegative => cases ht

theorem InOrder.step (h : InOrder items tr s) (hctl : Control items s)
    (hm : Move items fn s l t) (ht : t.panicked = false) : InOrder items (tr ++ [l]) t where
  sends := by
    rw [List.filterMap_append, h.sends, move_sent hm ht]
    cases hs : sendIndex l <;> simp [hs]
  queue := by
    intro k
    have hh := move_hand hctl hm ht k
    rw [handed_snoc, stored_snoc, h.queue k, List.append_assoc, List.append_assoc, hh]

theorem inOrder_run (h : Run (step items fn) (start items n) tr s) : InOrder items tr s := by
  rcases eq_or_ne items [] with heq | hne
  · subst heq
    obtain ⟨rfl, rfl⟩ := run_stuck h start_nil_stuck
    exact inOrder_start
  · have hboth : Sound items fn tr s ∧ InOrder items tr s := by
      refine h.invariant (I := fun tr s ↦ Sound items fn tr s ∧ InOrder items tr s)
        ⟨sound_run hne (.nil _), inOrder_start⟩ ?_
      rintro tr t l u ⟨hs, ho⟩ hstep
      obtain ⟨-, hm⟩ := step_move hstep
      have hs' := hs.step hm
      exact ⟨hs', ho.step hs.control hm hs'.control.calm⟩
    exact hboth.2

/-- Under every schedule the jobs leave in input order, and each worker stores
the results of its jobs in the order in which it was handed them, with at most
one in hand. -/
theorem jobs_in_order (items : List ℤ) (workers : ℤ) (fn : ℤ → ℤ)
    (tr : List (Label (poolSize workers))) (s : State (poolSize workers))
    (h : Run (step items fn) (start items (poolSize workers)) tr s) :
    tr.filterMap sendIndex = List.range (sent items s.main) ∧
    ∀ k, handed k tr = stored k tr ++ inHand (s.worker k) ∧
      (handed k tr).Pairwise (· < ·) := by
  have ho := inOrder_run h
  refine ⟨ho.sends, fun k ↦ ⟨ho.queue k, ?_⟩⟩
  have hsub : (handed k tr).Sublist (tr.filterMap sendIndex) :=
    List.filter_sublist.filterMap sendIndex
  rw [ho.sends] at hsub
  exact List.Pairwise.sublist hsub List.pairwise_lt_range

def twoWorkers : List (Label (poolSize 2)) :=
  [.spawn ⟨0, by decide⟩, .spawn ⟨1, by decide⟩, .launched, .send ⟨1, by decide⟩ 0,
    .send ⟨0, by decide⟩ 1, .apply ⟨0, by decide⟩ ⟨1, 5⟩, .write ⟨0, by decide⟩ 1,
    .send ⟨0, by decide⟩ 2]

theorem jobs_in_order_two_workers : ∃ s,
    follow (step [3, 5, 7] (fun x ↦ x + 1)) (start [3, 5, 7] (poolSize 2)) twoWorkers = some s ∧
      twoWorkers.filterMap sendIndex = List.range 3 := by
  have hrun : follow (step [3, 5, 7] (fun x ↦ x + 1)) (start [3, 5, 7] (poolSize 2)) twoWorkers =
    some _ := rfl
  exact ⟨_, hrun, (jobs_in_order [3, 5, 7] 2 (fun x ↦ x + 1) _ _ (run_follow hrun)).1⟩

end fifo

section peak

/-- A worker between the receive of a job and the return of `fn`. -/
def calling : WorkerPc → ℕ
  | .holding _ => 1
  | _ => 0

def inFlight (s : State n) : ℕ := ∑ k, calling (s.worker k)

theorem calling_le_one (pc : WorkerPc) : calling pc ≤ 1 := by
  cases pc <;> simp [calling]

theorem inFlight_le_workers (s : State n) : inFlight s ≤ n := by
  calc inFlight s ≤ ∑ _k : Fin n, 1 := Finset.sum_le_sum (fun k _ ↦ calling_le_one (s.worker k))
    _ = n := by simp

theorem calling_le_carries (h : Carried items fn s) (k : Fin n) :
    calling (s.worker k) ≤ ∑ i ∈ Finset.range items.length, carries i (s.worker k) := by
  cases hw : s.worker k with
  | holding job =>
    obtain ⟨hlt, -⟩ := List.getElem?_eq_some_iff.mp (h.holding k job hw)
    simp [calling, carries, hlt]
  | unborn | receiving | storing | leaving | exited => simp [calling]

/-- No two workers hold the same item, so there are no more calls than items. -/
theorem inFlight_le_items (h : Sound items fn tr s) : inFlight s ≤ items.length := by
  have hone : ∀ i, ∑ k, carries i (s.worker k) ≤ 1 := by
    intro i
    have ha := h.ledger.account i
    unfold due at ha
    split_ifs at ha <;> omega
  calc inFlight s ≤ ∑ k, ∑ i ∈ Finset.range items.length, carries i (s.worker k) :=
        Finset.sum_le_sum (fun k _ ↦ calling_le_carries h.carried k)
    _ = ∑ i ∈ Finset.range items.length, ∑ k, carries i (s.worker k) := Finset.sum_comm
    _ ≤ ∑ _i ∈ Finset.range items.length, 1 := Finset.sum_le_sum (fun i _ ↦ hone i)
    _ = items.length := by simp

def stage (items : List ℤ) (main : MainPc) (worker : Fin n → WorkerPc) : State n where
  main := main
  worker := worker
  closed := false
  counter := n
  results := List.replicate items.length 0
  panicked := false

/-- The first workers hold the first items, and none of them has finished. -/
def hands (items : List ℤ) (born busy : ℕ) (k : Fin n) : WorkerPc :=
  if (k : ℕ) < busy then .holding ⟨k, items.getD k 0⟩
  else if (k : ℕ) < born then .receiving else .unborn

theorem stage_spawn (w : Fin n → WorkerPc) (k : Fin n) :
    step items fn (stage items (.spawn k) w) (.spawn k) =
      some (stage items (.spawn (k + 1)) (update w k .receiving)) := by
  simp only [step, stage, Bool.false_eq_true, if_false, if_true]
  rfl

theorem stage_send (w : Fin n → WorkerPc) (k : Fin n) {index : ℕ} {item : ℤ}
    (hi : items[index]? = some item) (hw : w k = .receiving) :
    step items fn (stage items (.feed index) w) (.send k index) =
      some (stage items (.feed (index + 1)) (update w k (.holding ⟨index, item⟩))) := by
  simp only [step, stage, Bool.false_eq_true, if_false, hi, hw, and_self, if_true]
  rfl

theorem hands_spawn (k : Fin n) :
    update (hands items k 0) k .receiving = hands items (k + 1) 0 := by
  funext j
  rcases eq_or_ne j k with rfl | hj
  · simp [hands]
  · have hne : (j : ℕ) ≠ k := fun he ↦ hj (Fin.ext he)
    have hiff : (j : ℕ) < k + 1 ↔ (j : ℕ) < k := by omega
    simp [hands, update_of_ne hj, hiff]

theorem hands_send (k : Fin n) :
    update (hands items n k) k (.holding ⟨k, items.getD k 0⟩) = hands items n (k + 1) := by
  funext j
  rcases eq_or_ne j k with rfl | hj
  · simp [hands]
  · have hne : (j : ℕ) ≠ k := fun he ↦ hj (Fin.ext he)
    have hiff : (j : ℕ) < k + 1 ↔ (j : ℕ) < k := by omega
    simp [hands, update_of_ne hj, hiff]

theorem stage_start (hi : items ≠ []) :
    stage items (.spawn 0) (hands items 0 0) = start items n := by
  have hw : hands items 0 0 = fun _ : Fin n ↦ WorkerPc.unborn := by
    funext k
    simp [hands]
  simp [stage, hw, start, hi]

theorem spawned_run (fn : ℤ → ℤ) (hi : items ≠ []) (j : ℕ) (hj : j ≤ n) :
    ∃ tr, Run (step items fn) (start items n) tr (stage items (.spawn j) (hands items j 0)) := by
  induction j with
  | zero => exact ⟨[], stage_start hi ▸ .nil _⟩
  | succ j ih =>
    obtain ⟨tr, h⟩ := ih (by omega)
    exact ⟨_, hands_spawn ⟨j, hj⟩ ▸ h.snoc (stage_spawn (hands items j 0) ⟨j, hj⟩)⟩

theorem fed_run (fn : ℤ → ℤ) (hi : items ≠ []) (j : ℕ) (hj : j ≤ n) (hlen : j ≤ items.length) :
    ∃ tr, Run (step items fn) (start items n) tr (stage items (.feed j) (hands items n j)) := by
  induction j with
  | zero =>
    obtain ⟨tr, h⟩ := spawned_run fn hi n le_rfl
    exact ⟨_, h.snoc (l := .launched) (by simp [step, stage])⟩
  | succ j ih =>
    obtain ⟨tr, h⟩ := ih (by omega) (by omega)
    have hget : items[j]? = some (items.getD j 0) := by
      rw [List.getD_eq_getElem?_getD, List.getElem?_eq_getElem hlen, Option.getD_some]
    have hfree : hands items n j ⟨j, hj⟩ = .receiving := by simp [hands, Nat.lt_of_succ_le hj]
    exact ⟨_, hands_send ⟨j, hj⟩ ▸ h.snoc (stage_send (hands items n j) ⟨j, hj⟩ hget hfree)⟩

theorem inFlight_hands (main : MainPc) (born j : ℕ) (hj : j ≤ n) :
    inFlight (stage items main (hands items born j) : State n) = j := by
  have hcall : ∀ k : Fin n, calling (hands items born j k) = if (k : ℕ) < j then 1 else 0 := by
    intro k
    unfold hands
    split_ifs <;> rfl
  simp only [inFlight, stage, hcall, Finset.sum_boole]
  rw [Fin.card_filter_val_lt, min_eq_right hj, Nat.cast_id]

/-- The most calls of `fn` in flight at once, over all schedules: as many as
there are workers, or items if these are fewer. -/
theorem peak_concurrency (items : List ℤ) (workers : ℤ) (fn : ℤ → ℤ) :
    IsGreatest {c | ∃ tr s, Run (step items fn) (start items (poolSize workers)) tr s ∧
      inFlight s = c} (min (poolSize workers) items.length) := by
  rcases eq_or_ne items [] with heq | hne
  · subst heq
    refine ⟨⟨[], _, .nil _, by simp [inFlight, start, calling]⟩, ?_⟩
    rintro c ⟨tr, s, h, rfl⟩
    obtain ⟨-, rfl⟩ := run_stuck h start_nil_stuck
    simp [inFlight, start, calling]
  · constructor
    · obtain ⟨tr, h⟩ := fed_run fn hne (min (poolSize workers) items.length) (min_le_left _ _)
        (min_le_right _ _)
      exact ⟨tr, _, h, inFlight_hands _ _ _ (min_le_left _ _)⟩
    · rintro c ⟨tr, s, h, rfl⟩
      exact le_min (inFlight_le_workers s) (inFlight_le_items (sound_run hne h))

end peak

end LowLevel.Interview.WorkerpoolOrder
