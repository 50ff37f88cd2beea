import Mathlib.Data.List.Sort
import Mathlib.Order.Defs.LinearOrder

namespace LowLevel.Basis.SortBy

open Function

variable {α κ : Type*} [LinearOrder κ] {key : α → κ} {l l' : List α}

/-- A stable sort by a key, as `sorted` and `list.sort` in Python. -/
def sortBy (key : α → κ) (l : List α) : List α := l.mergeSort (fun a b ↦ key a ≤ key b)

theorem sortBy_perm (key : α → κ) (l : List α) : (sortBy key l).Perm l := List.mergeSort_perm l _

theorem sortBy_pairwise (key : α → κ) (l : List α) :
    (sortBy key l).Pairwise (fun a b ↦ key a ≤ key b) := by
  have hsorted : (sortBy key l).Pairwise (fun a b ↦ decide (key a ≤ key b) = true) := by
    apply List.pairwise_mergeSort
    · intro a b c hab hbc
      rw [decide_eq_true_eq] at hab hbc ⊢
      exact hab.trans hbc
    · intro a b
      rw [Bool.or_eq_true, decide_eq_true_eq, decide_eq_true_eq]
      exact le_total (key a) (key b)
  exact hsorted.imp (fun h ↦ decide_eq_true_eq.mp h)

theorem sortBy_of_pairwise (h : l.Pairwise (fun a b ↦ key a ≤ key b)) : sortBy key l = l :=
  List.mergeSort_of_pairwise (h.imp (fun hab ↦ decide_eq_true_eq.mpr hab))

theorem sortBy_eq_iff : sortBy key l = l ↔ l.Pairwise (fun a b ↦ key a ≤ key b) :=
  ⟨fun heq ↦ heq ▸ sortBy_pairwise key l, sortBy_of_pairwise⟩

theorem sortBy_map {β : Type*} (key : β → κ) (f : α → β) (l : List α) :
    (sortBy (fun a ↦ key (f a)) l).map f = sortBy key (l.map f) := by
  apply List.map_mergeSort
  intro a _ b _
  rfl

/-- With different keys for different elements the order of the input is lost. -/
theorem sortBy_congr (hkey : Injective key) (h : l.Perm l') : sortBy key l = sortBy key l' := by
  have hperm : (sortBy key l).Perm (sortBy key l') :=
    (sortBy_perm key l).trans (h.trans (sortBy_perm key l').symm)
  exact hperm.eq_of_pairwise (fun a b _ _ hab hba ↦ hkey (le_antisymm hab hba))
    (sortBy_pairwise key l) (sortBy_pairwise key l')

end LowLevel.Basis.SortBy
