import Mathlib.Data.List.Basic

namespace LowLevel.Basis.Mirror

variable {α : Type*} {l l' : List α} {i j : ℕ}

/-- `l` with its outermost `i` pairs exchanged. -/
structure Mirrored (l : List α) (i : ℕ) (l' : List α) : Prop where
  length : l'.length = l.length
  ends : ∀ x < l.length, x < i ∨ l.length ≤ x + i → l'[x]? = l[l.length - 1 - x]?
  middle : ∀ x, i ≤ x → x + i < l.length → l'[x]? = l[x]?

theorem mirrored_zero (l : List α) : Mirrored l 0 l :=
  ⟨rfl, fun x hx h ↦ by omega, fun _ _ _ ↦ rfl⟩

theorem Mirrored.step (h : Mirrored l i l') (hij : i < j) (hj : j + i + 1 = l.length)
    (hi' : i < l'.length) (hj' : j < l'.length) :
    Mirrored l (i + 1) ((l'.set i l'[j]).set j l'[i]) where
  length := by rw [List.length_set, List.length_set, h.length]
  ends := by
    intro x hx hend
    rcases Nat.lt_trichotomy x j with hlt | rfl | hgt
    · rw [List.getElem?_set_ne (Nat.ne_of_gt hlt)]
      rcases Nat.lt_trichotomy x i with hlt' | rfl | hgt'
      · rw [List.getElem?_set_ne (Nat.ne_of_gt hlt')]
        exact h.ends x hx (.inl hlt')
      · rw [List.getElem?_set_self hi', ← List.getElem?_eq_getElem hj',
          h.middle j (Nat.le_of_lt hij) (by omega)]
        congr 1
        omega
      · omega
    · rw [List.getElem?_set_self (by rwa [List.length_set]), ← List.getElem?_eq_getElem hi',
        h.middle i (Nat.le_refl i) (by omega)]
      congr 1
      omega
    · rw [List.getElem?_set_ne (Nat.ne_of_lt hgt), List.getElem?_set_ne (by omega)]
      exact h.ends x hx (.inr (by omega))
  middle := by
    intro x hlo hhi
    rw [List.getElem?_set_ne (by omega), List.getElem?_set_ne (by omega)]
    exact h.middle x (by omega) (by omega)

theorem Mirrored.reverse (h : Mirrored l i l') (hi : l.length ≤ 2 * i + 1) : l' = l.reverse := by
  apply List.ext_getElem?
  intro x
  rcases Nat.lt_or_ge x l.length with hx | hx
  · rw [List.getElem?_reverse hx]
    rcases Decidable.em (x < i ∨ l.length ≤ x + i) with hend | hmid
    · exact h.ends x hx hend
    · -- the middle element of an odd length
      rw [h.middle x (by omega) (by omega)]
      congr 1
      omega
  · rw [List.getElem?_eq_none (by rwa [h.length]),
      List.getElem?_eq_none (by rwa [List.length_reverse])]

end LowLevel.Basis.Mirror
