import LowLevel.Interview.BinarySearch
import Mathlib.Algebra.Group.Nat.Even

namespace LowLevel.Interview.BinarySearch

variable {α : Type*} [BEq α] [LT α] [DecidableLT α] {mid result : ℤ} {reads : List ℤ}

/-- What a search of a window of `n` elements costs. A pass that goes on reads
its element twice, and only a hit ends the search between the two. -/
structure Cost (n : ℕ) (result : ℤ) (reads : List ℤ) : Prop where
  most : ∀ k, n < 2 ^ k → reads.length ≤ 2 * k
  least : result = -1 → ∀ k, 2 ^ k ≤ n + 1 → 2 * k ≤ reads.length
  parity : result = -1 ↔ Even reads.length

theorem Cost.empty : Cost 0 (-1) [] where
  most _ _ := Nat.zero_le _
  least := by
    intro _ k hk
    have hzero : k = 0 := by
      by_contra hne
      have htwo := Nat.one_lt_two_pow hne
      omega
    rw [hzero]
    exact Nat.le_refl 0
  parity := by simp

theorem Cost.hit {n i : ℕ} (hn : 0 < n) : Cost n i [(i : ℤ)] where
  most := by
    intro k hk
    have hpos : k ≠ 0 := by
      rintro rfl
      rw [Nat.pow_zero] at hk
      omega
    rw [List.length_singleton]
    omega
  least := by
    intro hmiss
    omega
  parity := by
    refine ⟨fun hmiss ↦ by omega, fun heven ↦ absurd heven ?_⟩
    rw [List.length_singleton]
    exact Nat.not_even_one

/-- Either half of the window is at most half of it, and at least half of what
the middle leaves. -/
theorem Cost.pass {n m : ℕ} (h : Cost m result reads) (hmost : 2 * m ≤ n)
    (hleast : n ≤ 2 * m + 2) (hn : 0 < n) : Cost n result ([mid, mid] ++ reads) where
  most := by
    intro k hk
    obtain _ | k := k
    · rw [Nat.pow_zero] at hk
      omega
    · have hrest := h.most k (by rw [Nat.pow_succ] at hk; omega)
      rw [List.length_append, List.length_cons, List.length_singleton]
      omega
  least := by
    intro hmiss k hk
    obtain _ | k := k
    · exact Nat.zero_le _
    · have hrest := h.least hmiss k (by rw [Nat.pow_succ] at hk; omega)
      rw [List.length_append, List.length_cons, List.length_singleton]
      omega
  parity := by
    rw [h.parity, List.length_append, List.length_cons, List.length_singleton, Nat.even_add]
    exact (iff_true_left (by decide : Even 2)).symm

omit [DecidableLT α] in
theorem maintained_cost (l : List α) (target : α) : Maintained l target
    (fun lo hi result reads ↦ Cost (hi + 1 - lo).toNat result reads) where
  empty lo hi hgt := by
    rw [show (hi + 1 - lo).toNat = 0 by omega]
    exact Cost.empty
  hit lo hi k x hm _ := by
    have hlower := hm.lower
    have hupper := hm.upper
    exact Cost.hit (by omega)
  above lo hi k x result reads hm _ _ h := by
    have hlower := hm.lower
    have hupper := hm.upper
    have hmid := hm.mid
    exact h.pass (by omega) (by omega) (by omega)
  below lo hi k x result reads hm _ _ h := by
    have hlower := hm.lower
    have hupper := hm.upper
    have hmid := hm.mid
    exact h.pass (by omega) (by omega) (by omega)

/-- On every list, sorted or not, `binary_search` makes a logarithmic number of
reads, a miss no fewer than the window can be halved, and an even number
exactly on a miss. -/
theorem binary_search_reads (l : List α) (target : α) :
    ∃ result reads, binarySearch l target = .ok (result, reads) ∧
      reads.length ≤ 2 * (Nat.log2 l.length + 1) ∧
      (result = -1 → 2 * Nat.log2 (l.length + 1) ≤ reads.length) ∧
      (result = -1 ↔ Even reads.length) := by
  obtain ⟨result, reads, hrun, hcost⟩ := (maintained_cost l target).binarySearch
  have hwindow : ((l.length : ℤ) - 1 + 1 - 0).toNat = l.length := by omega
  rw [hwindow] at hcost
  refine ⟨result, reads, hrun, ?_, fun hmiss ↦ ?_, hcost.parity⟩
  · exact hcost.most _ Nat.lt_log2_self
  · exact hcost.least hmiss _ (Nat.log2_self_le (Nat.succ_ne_zero _))

end LowLevel.Interview.BinarySearch
