import Mathlib.Algebra.BigOperators.Fin
import Mathlib.Algebra.Order.BigOperators.Group.Finset
import LowLevel.Interview.Workerpool

namespace LowLevel.Interview.WorkerpoolInvariant

open Function Workerpool Basis.Transition
open scoped BigOperators

variable {n : ℕ} {items : List ℤ} {fn : ℤ → ℤ} {s t : State n} {l : Label n}

theorem sum_update (f : WorkerPc → ℕ) (w : Fin n → WorkerPc) (k : Fin n) (pc : WorkerPc) :
    ∑ j, f (update w k pc j) + f (w k) = ∑ j, f (w j) + f pc := by
  have hu : ∀ j ∈ Finset.univ.erase k, f (update w k pc j) = f (w j) := by
    intro j hj
    rw [update_of_ne (Finset.ne_of_mem_erase hj)]
  rw [← Finset.add_sum_erase _ _ (Finset.mem_univ k), Finset.sum_congr rfl hu,
    ← Finset.add_sum_erase _ (fun j ↦ f (w j)) (Finset.mem_univ k), update_self]
  omega

/-- Every job a worker carries is an item under its own index, and every
value about to be stored is the image of that item. -/
structure Carried (items : List ℤ) (fn : ℤ → ℤ) (s : State n) : Prop where
  length : s.results.length = items.length
  holding : ∀ k job, s.worker k = .holding job → items[job.index]? = some job.val
  storing : ∀ k i v, s.worker k = .storing i v → items[i]?.map fn = some v

theorem carried_start : Carried items fn (start items n) where
  length := by simp [start]
  holding := by simp [start]
  storing := by simp [start]

theorem Carried.goto (h : Carried items fn s) (k : Fin n) (pc : WorkerPc)
    (hh : ∀ job, pc = .holding job → items[job.index]? = some job.val)
    (hs : ∀ i v, pc = .storing i v → items[i]?.map fn = some v) :
    Carried items fn (s.goto k pc) where
  length := h.length
  holding := by
    intro j job hj
    by_cases hjk : j = k
    · subst hjk
      exact hh job (by simpa using hj)
    · exact h.holding j job (by simpa [update_of_ne hjk] using hj)
  storing := by
    intro j i v hj
    by_cases hjk : j = k
    · subst hjk
      exact hs i v (by simpa using hj)
    · exact h.storing j i v (by simpa [update_of_ne hjk] using hj)

theorem Carried.step (h : Carried items fn s) (hm : Move items fn s l t) : Carried items fn t := by
  cases hm with
  | spawn k _ =>
    have hg := h.goto k .receiving (by simp) (by simp)
    exact ⟨hg.length, hg.holding, hg.storing⟩
  | send k job hi _ _ _ =>
    have hg := h.goto k (.holding job) (fun j hj ↦ WorkerPc.holding.inj hj ▸ hi) (by simp)
    exact ⟨hg.length, hg.holding, hg.storing⟩
  | apply k job hw =>
    have hi := h.holding k job hw
    exact h.goto k _ (by simp) (by simp [hi])
  | write k i v _ _ =>
    have hg := h.goto k .receiving (by simp) (by simp)
    exact ⟨by simpa using h.length, hg.holding, hg.storing⟩
  | leave k _ _ => exact h.goto k .leaving (by simp) (by simp)
  | done k _ _ =>
    have hg := h.goto k .exited (by simp) (by simp)
    exact ⟨hg.length, hg.holding, hg.storing⟩
  | launched | sendClosed | writeRange | close | closeClosed | doneNegative | wait =>
    exact ⟨h.length, h.holding, h.storing⟩

def alive : WorkerPc → ℕ
  | .exited => 0
  | _ => 1

theorem alive_of_ne {pc : WorkerPc} (h : pc ≠ .exited) : alive pc = 1 := by
  cases pc <;> first | rfl | exact absurd rfl h

/-- How the main goroutine, the channel and the counter agree. -/
structure Control (items : List ℤ) (s : State n) : Prop where
  calm : s.panicked = false
  position : ∀ i, s.main = .feed i → i ≤ items.length
  spawned : ∀ i, s.main = .spawn i → i ≤ n
  closed : s.closed = true ↔ s.main = .waiting ∨ s.main = .returned
  unborn : ∀ k, s.worker k = .unborn ↔ ∃ i, s.main = .spawn i ∧ i ≤ k
  parked : ∀ k, s.worker k = .leaving ∨ s.worker k = .exited → s.closed = true
  counter : s.counter = ∑ k, alive (s.worker k)
  drained : s.main = .returned → s.counter = 0

theorem control_start (hi : items ≠ []) : Control items (start items n) where
  calm := rfl
  position := by simp [start, hi]
  spawned := by simp [start, hi]
  closed := by simp [start, hi]
  unborn := by simp [start, hi]
  parked := by simp [start]
  counter := by simp [start, hi, alive]
  drained := by simp [start, hi]

theorem Control.goto (h : Control items s) (k : Fin n) (pc : WorkerPc)
    (hw : s.worker k ≠ .unborn) (hpc : pc ≠ .unborn)
    (ha : s.worker k ≠ .exited) (hpa : pc ≠ .exited)
    (hl : pc = .leaving → s.closed = true) : Control items (s.goto k pc) where
  calm := h.calm
  position := h.position
  spawned := h.spawned
  closed := h.closed
  unborn := by
    intro j
    by_cases hjk : j = k
    · subst hjk
      simpa [hpc] using fun i hi ↦ not_le.mp (fun hle ↦ hw ((h.unborn j).mpr ⟨i, hi, hle⟩))
    · simpa [update_of_ne hjk] using h.unborn j
  parked := by
    intro j hj
    by_cases hjk : j = k
    · subst hjk
      simp only [goto_worker, update_self, hpa, or_false] at hj
      exact hl hj
    · exact h.parked j (by simpa [update_of_ne hjk] using hj)
  counter := by
    have hsum := sum_update alive s.worker k pc
    rw [alive_of_ne ha, alive_of_ne hpa] at hsum
    rw [goto_counter, h.counter, goto_worker]
    exact_mod_cast (Nat.add_right_cancel hsum).symm
  drained := h.drained

theorem Control.step (h : Control items s) (hc : Carried items fn s) (hm : Move items fn s l t) :
    Control items t := by
  cases hm with
  | spawn k hs =>
    have hk : s.worker k = .unborn := (h.unborn k).mpr ⟨k, hs, le_rfl⟩
    refine ⟨h.calm, by simp, ?_, ?_, ?_, ?_, ?_, ?_⟩
    · intro i hi
      cases hi
      exact k.isLt
    · simpa [hs, goto_closed] using h.closed
    · intro j
      by_cases hjk : j = k
      · subst hjk
        simp
      · have hj := h.unborn j
        have hne : (j : ℕ) ≠ k := fun he ↦ hjk (Fin.ext he)
        simp only [hs, MainPc.spawn.injEq, exists_eq_left'] at hj
        simp only [goto_worker, update_of_ne hjk, hj, MainPc.spawn.injEq, exists_eq_left']
        omega
    · intro j hj
      by_cases hjk : j = k
      · subst hjk
        simp at hj
      · exact h.parked j (by simpa [update_of_ne hjk] using hj)
    · have hsum := sum_update alive s.worker k .receiving
      rw [hk] at hsum
      have heq : ∑ j, alive (update s.worker k .receiving j) = ∑ j, alive (s.worker j) :=
        Nat.add_right_cancel hsum
      simpa [heq] using h.counter
    · simp
  | launched hs =>
    refine ⟨h.calm, by simp, by simp, ?_, ?_, h.parked, h.counter, by simp⟩
    · simpa [hs] using h.closed
    · intro j
      have hj := h.unborn j
      simp only [hs, MainPc.spawn.injEq, exists_eq_left'] at hj
      have hlt := j.isLt
      simp only [hj, reduceCtorEq, false_and, exists_false, iff_false]
      omega
  | send k job hi hs hcl hw =>
    have hg := h.goto k (.holding job) (by simp [hw]) (by simp) (by simp [hw]) (by simp) (by simp)
    have hlt : job.index < items.length := by
      obtain ⟨hlt, -⟩ := List.getElem?_eq_some_iff.mp hi
      exact hlt
    refine ⟨h.calm, ?_, by simp, ?_, ?_, hg.parked, hg.counter, by simp⟩
    · intro i hi
      cases hi
      exact hlt
    · simpa [hs, goto_closed] using h.closed
    · intro j
      have hj := hg.unborn j
      simpa [hs] using hj
  | sendClosed index hs hcl =>
    have := h.closed.mp hcl
    simp [hs] at this
  | apply k job hw =>
    exact h.goto k _ (by simp [hw]) (by simp) (by simp [hw]) (by simp) (by simp)
  | write k i v hw _ =>
    have hg := h.goto k .receiving (by simp [hw]) (by simp) (by simp [hw]) (by simp) (by simp)
    exact ⟨hg.calm, hg.position, hg.spawned, hg.closed, hg.unborn, hg.parked, hg.counter,
      hg.drained⟩
  | writeRange k i v hw hle =>
    have hv := hc.storing k i v hw
    rw [hc.length] at hle
    rw [List.getElem?_eq_none hle] at hv
    cases hv
  | close hs hcl =>
    refine ⟨h.calm, by simp, by simp, by simp, ?_, fun _ _ ↦ rfl, h.counter, by simp⟩
    intro j
    simpa [hs] using h.unborn j
  | closeClosed hs hcl =>
    have := h.closed.mp hcl
    simp [hs] at this
  | leave k hw hcl =>
    exact h.goto k _ (by simp [hw]) (by simp) (by simp [hw]) (by simp) (fun _ ↦ hcl)
  | done k hw hpos =>
    have hcl := h.parked k (Or.inl hw)
    refine ⟨h.calm, h.position, h.spawned, h.closed, ?_, fun _ _ ↦ hcl, ?_, ?_⟩
    · intro j
      by_cases hjk : j = k
      · subst hjk
        have hj := h.unborn j
        simp only [hw, reduceCtorEq, false_iff] at hj
        simpa using hj
      · simpa [update_of_ne hjk] using h.unborn j
    · have hsum := sum_update alive s.worker k .exited
      have hex : alive .exited = 0 := rfl
      rw [hw, alive_of_ne (by simp), hex, add_zero] at hsum
      change s.counter - 1 = _
      rw [h.counter, goto_worker, ← hsum]
      simp
    · intro hr
      have hz := h.drained hr
      omega
  | doneNegative k hw hneg =>
    have hk : alive (s.worker k) ≤ ∑ j, alive (s.worker j) :=
      Finset.single_le_sum (f := fun j ↦ alive (s.worker j)) (fun _ _ ↦ Nat.zero_le _)
        (Finset.mem_univ k)
    rw [hw, alive_of_ne (by simp)] at hk
    rw [h.counter] at hneg
    omega
  | wait hs hz =>
    refine ⟨h.calm, by simp, by simp, ?_, ?_, h.parked, h.counter, fun _ ↦ hz⟩
    · simpa [hs] using h.closed
    · intro j
      simpa [hs] using h.unborn j

theorem Control.exited (h : Control items s) (hz : s.counter = 0) (k : Fin n) :
    s.worker k = .exited := by
  by_contra hk
  have hle : alive (s.worker k) ≤ ∑ j, alive (s.worker j) :=
    Finset.single_le_sum (f := fun j ↦ alive (s.worker j)) (fun _ _ ↦ Nat.zero_le _)
      (Finset.mem_univ k)
  have hc := h.counter
  rw [alive_of_ne hk] at hle
  omega

theorem Control.final (h : Control items s) (hr : s.main = .returned) : ¬ Move items fn s l t := by
  have hw := h.exited (h.drained hr)
  intro hm
  cases hm <;> simp_all

end LowLevel.Interview.WorkerpoolInvariant
