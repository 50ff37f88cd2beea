import Mathlib.Algebra.Group.Nat.Defs
import Mathlib.Data.List.Basic
import Mathlib.Tactic.Common

namespace LowLevel.Basis.Masks

variable {α : Type*} {l s : List α}

/-- The elements at the positions of the one bits. -/
def picked : ℕ → List α → List α
  | _, [] => []
  | mask, x :: l => if mask.testBit 0 then x :: picked (mask / 2) l else picked (mask / 2) l

theorem picked_sublist (mask : ℕ) (l : List α) : (picked mask l).Sublist l := by
  induction l generalizing mask with
  | nil => exact List.Sublist.slnil
  | cons x l ih =>
    rw [picked]
    split_ifs
    · exact (ih _).cons_cons x
    · exact (ih _).cons x

theorem picked_concat (mask : ℕ) (l : List α) (x : α) :
    picked mask (l ++ [x]) = picked mask l ++ if mask.testBit l.length then [x] else [] := by
  induction l generalizing mask with
  | nil => simp [picked]
  | cons y l ih =>
    rw [List.cons_append, picked, picked, ih, List.length_cons, Nat.testBit_succ]
    by_cases hy : mask.testBit 0
    · rw [if_pos hy, if_pos hy, List.cons_append]
    · rw [if_neg hy, if_neg hy]

theorem picked_take {i : ℕ} (mask : ℕ) (hi : i < l.length) : picked mask (l.take (i + 1)) =
    picked mask (l.take i) ++ if mask.testBit i then [l[i]] else [] := by
  rw [← List.take_append_getElem hi, picked_concat, List.length_take,
    Nat.min_eq_left (Nat.le_of_lt hi)]

/-- Every sublist is picked by a mask of as many bits as the list has elements. -/
theorem exists_mask (h : s.Sublist l) : ∃ mask < 2 ^ l.length, picked mask l = s := by
  induction h with
  | slnil => exact ⟨0, Nat.two_pow_pos _, rfl⟩
  | @cons s l x _ ih =>
    obtain ⟨mask, hlt, hs⟩ := ih
    refine ⟨2 * mask, by rw [List.length_cons, Nat.pow_succ]; omega, ?_⟩
    rw [picked, if_neg (by simp), Nat.mul_div_cancel_left _ Nat.two_pos, hs]
  | @cons_cons s l x _ ih =>
    obtain ⟨mask, hlt, hs⟩ := ih
    refine ⟨2 * mask + 1, by rw [List.length_cons, Nat.pow_succ]; omega, ?_⟩
    rw [picked, if_pos (by simp), Nat.mul_add_div Nat.two_pos, Nat.div_eq_of_lt Nat.one_lt_two,
      Nat.add_zero, hs]

end LowLevel.Basis.Masks
