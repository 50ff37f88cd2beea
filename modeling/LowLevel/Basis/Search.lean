import Mathlib.Data.Finset.Basic
import Mathlib.Data.Finset.Card
import Mathlib.Order.Bounds.Basic

namespace LowLevel.Basis.Search

open Function

variable {α : Type*} [DecidableEq α] {f : ℕ → α} {taken : List α} {n : ℕ}

noncomputable def ahead (f : ℕ → α) (taken : List α) (n : ℕ) : Finset α :=
  open Classical in taken.toFinset.filter (fun a ↦ ∃ k, n ≤ k ∧ f k = a)

theorem ahead_ssubset (hf : Injective f) (h : f n ∈ taken) :
    ahead f taken (n + 1) ⊂ ahead f taken n := by
  classical
  rw [Finset.ssubset_iff_of_subset]
  · refine ⟨f n, ?_, ?_⟩
    · simp only [ahead, Finset.mem_filter, List.mem_toFinset]
      exact ⟨h, n, Nat.le_refl n, rfl⟩
    · simp only [ahead, Finset.mem_filter, not_and, not_exists]
      intro _ k hk heq
      have hkn := hf heq
      omega
  · intro a ha
    simp only [ahead, Finset.mem_filter] at ha ⊢
    obtain ⟨hmem, k, hk, heq⟩ := ha
    exact ⟨hmem, k, by omega, heq⟩

/-- `while f(n) in taken: n += 1`. Distinct names run out of the finite list. -/
def firstFree (f : ℕ → α) (hf : Injective f) (taken : List α) (n : ℕ) : ℕ :=
  if h : f n ∈ taken then firstFree f hf taken (n + 1) else n
termination_by (ahead f taken n).card
decreasing_by exact Finset.card_lt_card (ahead_ssubset hf h)

theorem firstFree_isLeast (hf : Injective f) (taken : List α) (n : ℕ) :
    IsLeast {k | n ≤ k ∧ f k ∉ taken} (firstFree f hf taken n) := by
  induction n using firstFree.induct f hf taken with
  | case1 n h ih =>
    rw [firstFree, dif_pos h]
    obtain ⟨⟨hle, hfree⟩, hleast⟩ := ih
    refine ⟨⟨by omega, hfree⟩, ?_⟩
    intro k hall
    obtain ⟨hk, hkfree⟩ := hall
    have hne : k ≠ n := by
      intro heq
      subst heq
      exact hkfree h
    exact hleast ⟨by omega, hkfree⟩
  | case2 n h =>
    rw [firstFree, dif_neg h]
    exact ⟨⟨Nat.le_refl n, h⟩, fun k hk ↦ hk.1⟩

end LowLevel.Basis.Search
