import LowLevel.Basis.StaticArray

namespace LowLevel.Basis.SwapRemove

open AddressSpace StaticArray

variable {α : Type*} {a l pre post : List α} {x y : α} {i : ℕ}

/-- The last element takes the place of the one removed. -/
def swapRemove (l : List α) (i : ℕ) : List α :=
  match l.getLast? with
  | none => []
  | some y => (l.set i y).dropLast

theorem swapRemove_perm (pre post : List α) (x : α) :
    (swapRemove (pre ++ x :: post) pre.length).Perm (pre ++ post) := by
  rw [swapRemove]
  rcases List.eq_nil_or_concat post with rfl | ⟨mid, y, rfl⟩
  · rw [List.getLast?_concat]
    dsimp only
    rw [List.set_append_right _ _ (Nat.le_refl _), Nat.sub_self, List.set_cons_zero,
      List.dropLast_concat, List.append_nil]
  · have hlast : (pre ++ x :: (mid ++ [y])).getLast? = some y := by
      rw [← List.cons_append, ← List.append_assoc, List.getLast?_concat]
    rw [List.concat_eq_append, hlast]
    dsimp only
    rw [List.set_append_right _ _ (Nat.le_refl _), Nat.sub_self, List.set_cons_zero,
      ← List.cons_append, ← List.append_assoc, List.dropLast_concat]
    exact (List.perm_append_singleton y mid).symm.append_left pre

theorem length_swapRemove (hi : i < l.length) : (swapRemove l i).length = l.length - 1 := by
  rw [swapRemove]
  cases hlast : l.getLast? with
  | none =>
    rw [List.getLast?_eq_none_iff.mp hlast] at hi
    exact absurd hi (Nat.not_lt_zero i)
  | some y => rw [List.length_dropLast, List.length_set]

theorem map_swapRemove {β : Type*} (f : α → β) (l : List α) (i : ℕ) :
    swapRemove (l.map f) i = (swapRemove l i).map f := by
  rw [swapRemove, swapRemove, List.getLast?_map]
  cases l.getLast? with
  | none => rfl
  | some y =>
    dsimp only [Option.map_some]
    rw [← List.map_set, ← List.map_dropLast]

/-- `a[i] = a[n - 1];`, where the first `n` cells are in use. -/
theorem assign_last (h : l <+: a) (hi : i < l.length) :
    ∃ a', (read a (l.length - 1)).bind (assign a i) = .ok a' ∧ a'.length = a.length ∧
      swapRemove l i <+: a' := by
  have hle := h.length_le
  have hlast : l.getLast? = some l[l.length - 1] := by
    rw [List.getLast?_eq_getElem?, List.getElem?_eq_getElem (by omega)]
  refine ⟨a.set i l[l.length - 1], ?_, List.length_set, ?_⟩
  · rw [read_within h (by omega)]
    exact assign_eq (by omega) _
  · rw [swapRemove, hlast]
    exact (List.dropLast_prefix _).trans (prefix_set h _)

theorem findIdx?_split (p : α → Bool) (l : List α) :
    (l.findIdx? p = none ∧ ∀ x ∈ l, p x = false) ∨
      ∃ pre x post, l = pre ++ x :: post ∧ p x = true ∧ l.findIdx? p = some pre.length := by
  induction l with
  | nil => exact .inl ⟨rfl, by simp⟩
  | cons x l ih =>
    rw [List.findIdx?_cons]
    cases hx : p x with
    | true => exact .inr ⟨[], x, l, rfl, hx, if_pos rfl⟩
    | false =>
      rcases ih with ⟨hnone, hall⟩ | ⟨pre, y, post, rfl, hy, hsome⟩
      · refine .inl ⟨by rw [if_neg (by simp), hnone]; rfl, ?_⟩
        intro y hy
        rcases List.mem_cons.mp hy with rfl | hy
        · exact hx
        · exact hall y hy
      · exact .inr ⟨x :: pre, y, post, rfl, hy, by rw [if_neg (by simp), hsome]; rfl⟩

end LowLevel.Basis.SwapRemove
