import Mathlib.Algebra.Ring.Parity
import Mathlib.Data.Nat.BitIndices
import Mathlib.Data.Nat.Bitwise

namespace LowLevel.Basis.LowBit

theorem land_pred_odd (m : ℕ) : (2 * m + 1) &&& (2 * m) = 2 * m := by
  have h := Nat.land_bit true m false m
  simpa using h

theorem land_pred_even {m : ℕ} (hm : m ≠ 0) : 2 * m &&& (2 * m - 1) = 2 * (m &&& (m - 1)) := by
  have h := Nat.land_bit false m true (m - 1)
  have hpred : 2 * m - 1 = 2 * (m - 1) + 1 := by omega
  rw [hpred]
  simpa using h

/-- `n & (n - 1)` clears the lowest of the set bits. -/
theorem bitIndices_land_pred (n : ℕ) : (n &&& (n - 1)).bitIndices = n.bitIndices.tail := by
  induction n using Nat.strong_induction_on with
  | h n ih =>
    obtain ⟨m, heven | hodd⟩ := Nat.even_or_odd' n
    · rcases eq_or_ne m 0 with rfl | hm
      · simp [heven]
      · rw [heven, land_pred_even hm, Nat.bitIndices_two_mul, Nat.bitIndices_two_mul,
          ih m (by omega), List.map_tail]
    · rw [hodd, Nat.add_sub_cancel, land_pred_odd, Nat.bitIndices_two_mul,
        Nat.bitIndices_two_mul_add_one, List.tail_cons]

theorem land_pred_lt {n : ℕ} (hn : n ≠ 0) : n &&& (n - 1) < n := by
  have hle : n &&& (n - 1) ≤ n - 1 := Nat.and_le_right
  omega

theorem bitIndices_eq_nil_iff {n : ℕ} : n.bitIndices = [] ↔ n = 0 := by
  constructor
  · intro h
    rw [← Nat.sum_map_two_pow_bitIndices n, h]
    rfl
  · intro h
    rw [h, Nat.bitIndices_zero]

/-- The set bits of a number of `w` bits, counted. -/
theorem length_bitIndices {n w : ℕ} (hn : n < 2 ^ w) :
    n.bitIndices.length = (List.range w).countP n.testBit := by
  rw [List.countP_eq_length_filter]
  apply List.Perm.length_eq
  rw [List.perm_ext_iff_of_nodup Nat.bitIndices_nodup (List.nodup_range.filter _)]
  intro i
  rw [Nat.mem_bitIndices, List.mem_filter, List.mem_range]
  refine ⟨fun hi ↦ ⟨?_, hi⟩, And.right⟩
  by_contra hw
  have hlarge : 2 ^ w ≤ 2 ^ i := Nat.pow_le_pow_right (by omega) (by omega)
  rw [Nat.testBit_lt_two_pow (hn.trans_le hlarge)] at hi
  cases hi

theorem length_bitIndices_eq_one_iff {n : ℕ} : n.bitIndices.length = 1 ↔ ∃ k, n = 2 ^ k := by
  rw [List.length_eq_one_iff]
  constructor
  · intro h
    obtain ⟨k, hk⟩ := h
    refine ⟨k, ?_⟩
    rw [← Nat.sum_map_two_pow_bitIndices n, hk]
    simp
  · intro h
    obtain ⟨k, rfl⟩ := h
    exact ⟨k, Nat.bitIndices_two_pow k⟩

end LowLevel.Basis.LowBit
