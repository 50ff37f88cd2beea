import LowLevel.ProperC.LinkedList
import LowLevel.Basis.PointerShape

namespace LowLevel.ProperC.LinkedListCycle

open Function Basis.AddressSpace Basis.PointerChain Basis.PointerShape Basis.Loop LinkedList

variable {m : Memory Node} {head : ℕ}

/-- The address `k` links after `head`. -/
def follow (m : Memory Node) (head k : ℕ) : ℕ := (succ Node.next m)^[k] head

theorem load_follow (h : Grounded Node.next m head) {k : ℕ} (hk : follow m head k ≠ 0) :
    ∃ v, m.load (follow m head k) = .ok v ∧ v.next = follow m head (k + 1) := by
  obtain ⟨v, hv, hnext⟩ := h.cell hk
  exact ⟨v, Memory.load_eq hv, hnext⟩

theorem follow_null {i j : ℕ} (h : follow m head i = 0) (hle : i ≤ j) : follow m head j = 0 :=
  iterate_null_of_le h hle

theorem twoAhead_follow (h : Grounded Node.next m head) {k : ℕ} (hk : follow m head k ≠ 0) :
    twoAhead m (follow m head k) = .ok (follow m head (k + 2) != 0) := by
  obtain ⟨v, hload, hnext⟩ := load_follow h hk
  rw [twoAhead, hload, ok_bind, hnext]
  rcases eq_or_ne (follow m head (k + 1)) 0 with hnull | hne
  · have hafter : follow m head (k + 2) = 0 := follow_null hnull (Nat.le_succ _)
    rw [hnull, hafter]
    rfl
  · obtain ⟨w, hload', hnext'⟩ := load_follow h hne
    rw [if_neg hne, hload', ok_bind, hnext']
    rfl

/-- What one pass of the race loads, when the hare has two nodes ahead. -/
theorem load_race (h : Grounded Node.next m head) {i : ℕ} (hgo : follow m head (2 * i + 2) ≠ 0) :
    ∃ u v w, m.load (follow m head i) = .ok u ∧ u.next = follow m head (i + 1) ∧
      m.load (follow m head (2 * i)) = .ok v ∧ m.load v.next = .ok w ∧
      w.next = follow m head (2 * i + 2) := by
  have hbefore : ∀ k, k ≤ 2 * i + 2 → follow m head k ≠ 0 := fun k hk hnull ↦
    hgo (follow_null hnull hk)
  obtain ⟨u, hu, hunext⟩ := load_follow h (hbefore i (by omega))
  obtain ⟨v, hv, hvnext⟩ := load_follow h (hbefore (2 * i) (by omega))
  obtain ⟨w, hw, hwnext⟩ := load_follow h (hbefore (2 * i + 1) (by omega))
  exact ⟨u, v, w, hu, hunext, hv, hvnext ▸ hw, hwnext⟩

/-- The tortoise is `i` links from the head, the hare twice as many, and they
meet after `i + n + 1` passes at the latest. -/
structure Racing (m : Memory Node) (head last n : ℕ) (s : Race) : Prop where
  place : ∃ i, i + n + 1 = last ∧ s = ⟨follow m head i, follow m head (2 * i)⟩ ∧
    follow m head (2 * i) ≠ 0

theorem Racing.pass {last n : ℕ} {s : Race} (hground : Grounded Node.next m head)
    (hmeet : follow m head last = follow m head (2 * last)) (h : Racing m head last n s) :
    (∃ b, s.pass m = .ok (.inl b) ∧ (b = true ↔ ∀ k, follow m head k ≠ 0)) ∨
      ∃ n' s', n = n' + 1 ∧ s.pass m = .ok (.inr s') ∧ Racing m head last n' s' := by
  obtain ⟨i, hlast, rfl, hfast⟩ := h
  have hahead := twoAhead_follow hground hfast
  rcases eq_or_ne (follow m head (2 * i + 2)) 0 with hend | hgo
  · refine .inl ⟨false, ?_, ?_⟩
    · rw [Race.pass, hahead, hend]
      rfl
    · exact iff_of_false Bool.false_ne_true (fun hall ↦ hall _ hend)
  · obtain ⟨u, v, w, hu, hunext, hv, hw, hwnext⟩ := load_race hground hgo
    have hpass : Race.pass m ⟨follow m head i, follow m head (2 * i)⟩ =
        if follow m head (i + 1) = follow m head (2 * i + 2) then .ok (.inl true)
        else .ok (.inr ⟨follow m head (i + 1), follow m head (2 * i + 2)⟩) := by
      have htrue : (follow m head (2 * i + 2) != 0) = true := by simpa using hgo
      rw [Race.pass, hahead, ok_bind, htrue, if_pos rfl, hu, ok_bind, hv, ok_bind, hw, ok_bind,
        hunext, hwnext]
      rfl
    rcases eq_or_ne (follow m head (i + 1)) (follow m head (2 * i + 2)) with heq | hne
    · refine .inl ⟨true, by rw [hpass, if_pos heq], iff_of_true rfl ?_⟩
      have hne : follow m head (i + 1) ≠ 0 := by
        rw [heq]
        exact hgo
      exact iterate_ne_null_of_meet (Nat.succ_pos i) heq hne
    · cases n with
      | zero =>
        have hi : i + 1 = last := by omega
        rw [← hi] at hmeet
        exact absurd hmeet hne
      | succ n =>
        exact .inr ⟨n, _, rfl, hpass.trans (if_neg hne), i + 1, by omega, rfl, hgo⟩

/-- Floyd's race: on a heap without dangling pointers the loop ends, no load
faults, and the answer is whether `next` can be followed for ever. -/
theorem list_has_cycle_iff (m : Memory Node) (head : ℕ) (h : Grounded Node.next m head) :
    ∃ b, Returns (fun fuel ↦ listHasCycle fuel m head) b ∧
      (b = true ↔ ∀ k, follow m head k ≠ 0) := by
  rcases eq_or_ne head 0 with rfl | hhead
  · refine ⟨false, ⟨0, fun fuel _ ↦ if_pos rfl⟩, ?_⟩
    exact iff_of_false Bool.false_ne_true (fun hall ↦ hall 0 rfl)
  · obtain ⟨last, hpos, hmeet⟩ := exists_iterate_double (Set.finite_lt_nat (2 ^ 64)) h.finite
    have hstart : Racing m head last (last - 1) ⟨head, head⟩ := ⟨0, by omega, rfl, hhead⟩
    have hrun : ∀ fuel, last ≤ fuel → ∃ b, listHasCycle fuel m head = .ok b ∧
        (b = true ↔ ∀ k, follow m head k ≠ 0) := by
      intro fuel hfuel
      rw [listHasCycle, if_neg hhead]
      have hlt : last - 1 < fuel := by omega
      exact loopFuel_ok .timeout (Racing m head last) _ (fun n s hs ↦ hs.pass h hmeet) hlt hstart
    exact exists_returns hrun (fun b b' hb hb' ↦ Bool.eq_iff_iff.mpr (hb.trans hb'.symm))

def selfLoop : Memory Node := Memory.ofList 100 [⟨7, 100⟩] (by decide) (by simp)

theorem selfLoop_shaped : Shaped Node.next selfLoop 100 (.lasso [] 100 []) :=
  ⟨.nil 100, .cons (v := ⟨7, 100⟩) rfl (.nil 100), by simp⟩

theorem list_has_cycle_self : Returns (fun fuel ↦ listHasCycle fuel selfLoop 100) true := by
  obtain ⟨b, hb, hiff⟩ := list_has_cycle_iff selfLoop 100 selfLoop_shaped.grounded
  rwa [hiff.mpr (selfLoop_shaped.never_null_iff.mpr ⟨_, _, _, rfl⟩)] at hb

/-- A node before a cycle of three. -/
def tailedLoop : Memory Node :=
  Memory.ofList 100 [⟨7, 101⟩, ⟨8, 102⟩, ⟨9, 103⟩, ⟨10, 101⟩] (by decide) (by simp)

theorem tailedLoop_shaped : Shaped Node.next tailedLoop 100 (.lasso [100] 101 [102, 103]) := by
  refine ⟨.cons (v := ⟨7, 101⟩) rfl (.nil 101), ?_, by simp⟩
  have hback : Segment Node.next tailedLoop 103 [103] 101 := .cons (v := ⟨10, 101⟩) rfl (.nil 101)
  have hcycle : Segment Node.next tailedLoop 102 [102, 103] 101 := .cons (v := ⟨9, 103⟩) rfl hback
  exact .cons (v := ⟨8, 102⟩) rfl hcycle

end LowLevel.ProperC.LinkedListCycle
