import Mathlib.Order.Bounds.Defs
import Mathlib.Order.MinMax
import Mathlib.Order.Nat
import Mathlib.Tactic.Common

namespace LowLevel.Basis.EditDistance

variable {α : Type*} {n n' : ℕ} {s t u : List α}

/-- One element is deleted, inserted or replaced, somewhere in the list. -/
inductive Edit : List α → List α → Prop
  | delete (x : α) (s : List α) : Edit (x :: s) s
  | insert (x : α) (s : List α) : Edit s (x :: s)
  | replace (x y : α) (s : List α) : Edit (x :: s) (y :: s)
  | keep (x : α) {s t : List α} : Edit s t → Edit (x :: s) (x :: t)

inductive Edits : ℕ → List α → List α → Prop
  | refl (s : List α) : Edits 0 s s
  | step {n : ℕ} {s t u : List α} : Edit s t → Edits n t u → Edits (n + 1) s u

theorem Edit.symm (h : Edit s t) : Edit t s := by
  induction h with
  | delete x s => exact .insert x s
  | insert x s => exact .delete x s
  | replace x y s => exact .replace y x s
  | keep x _ ih => exact .keep x ih

theorem Edits.trans (h : Edits n s t) (h' : Edits n' t u) : Edits (n + n') s u := by
  induction h with
  | refl s =>
    rw [Nat.zero_add]
    exact h'
  | step he _ ih =>
    rw [Nat.add_right_comm]
    exact .step he (ih h')

theorem Edits.symm (h : Edits n s t) : Edits n t s := by
  induction h with
  | refl s => exact .refl s
  | step he _ ih => exact ih.trans (.step he.symm (.refl _))

theorem Edits.keep (x : α) (h : Edits n s t) : Edits n (x :: s) (x :: t) := by
  induction h with
  | refl s => exact .refl _
  | step he _ ih => exact .step (he.keep x) ih

theorem edits_nil_right (s : List α) : Edits s.length s [] := by
  induction s with
  | nil => exact .refl []
  | cons x s ih => exact .step (.delete x s) ih

variable [DecidableEq α]

def distance : List α → List α → ℕ
  | [], t => t.length
  | s@(_ :: _), [] => s.length
  | x :: s, y :: t =>
    if x = y then distance s t
    else 1 + min (min (distance s (y :: t)) (distance (x :: s) t)) (distance s t)
termination_by s t => s.length + t.length

theorem distance_nil_left (t : List α) : distance [] t = t.length := by rw [distance]

theorem distance_nil_right (s : List α) : distance s [] = s.length := by cases s <;> rw [distance]

theorem distance_same (x : α) (s t : List α) : distance (x :: s) (x :: t) = distance s t := by
  rw [distance, if_pos rfl]

theorem distance_differ {x y : α} (h : x ≠ y) (s t : List α) : distance (x :: s) (y :: t) =
    1 + min (min (distance s (y :: t)) (distance (x :: s) t)) (distance s t) := by
  rw [distance, if_neg h]

theorem distance_comm (s t : List α) : distance s t = distance t s := by
  induction s, t using distance.induct with
  | case1 t => rw [distance_nil_left, distance_nil_right]
  | case2 x s => rw [distance_nil_left, distance_nil_right]
  | case3 s x t ih => rw [distance_same, distance_same, ih]
  | case4 x s y t hne ihd ihi ihs =>
    rw [distance_differ hne, distance_differ (Ne.symm hne), ihd, ihi, ihs,
      min_comm (distance (y :: t) s)]

theorem distance_le_max (s t : List α) : distance s t ≤ max s.length t.length := by
  induction s, t using distance.induct with
  | case1 t =>
    rw [distance_nil_left]
    exact le_max_right _ _
  | case2 x s =>
    rw [distance_nil_right]
    exact le_max_left _ _
  | case3 s x t ih =>
    rw [distance_same, List.length_cons, List.length_cons]
    omega
  | case4 x s y t hne ihd ihi ihs =>
    rw [distance_differ hne, List.length_cons, List.length_cons]
    omega

/-- The recursion is a script of as many edits. -/
theorem distance_edits (s t : List α) : Edits (distance s t) s t := by
  induction s, t using distance.induct with
  | case1 t =>
    rw [distance_nil_left]
    exact (edits_nil_right t).symm
  | case2 x s =>
    rw [distance_nil_right]
    exact edits_nil_right _
  | case3 s x t ih =>
    rw [distance_same]
    exact ih.keep x
  | case4 x s y t hne ihd ihi ihs =>
    rw [distance_differ hne, Nat.add_comm]
    rcases min_choice (min (distance s (y :: t)) (distance (x :: s) t)) (distance s t) with h | h
    · rcases min_choice (distance s (y :: t)) (distance (x :: s) t) with h' | h'
      · rw [h, h']
        exact .step (.delete x s) ihd
      · rw [h, h']
        exact ihi.trans (.step (.insert y t) (.refl _))
    · rw [h]
      exact .step (.replace x y s) (ihs.keep y)

/-- One element more at the front changes the distance by at most one. The two
bounds need each other, with the lists exchanged. -/
theorem distance_cons_le (k : ℕ) (s t : List α) (hk : s.length + t.length ≤ k) (x : α) :
    distance (x :: s) t ≤ distance s t + 1 ∧ distance s t ≤ distance (x :: s) t + 1 := by
  induction k generalizing s t x with
  | zero =>
    obtain rfl : s = [] := List.length_eq_zero_iff.mp (by omega)
    obtain rfl : t = [] := List.length_eq_zero_iff.mp (by omega)
    rw [distance_nil_right, distance_nil_right]
    exact ⟨Nat.le_refl _, Nat.le_succ_of_le (Nat.zero_le _)⟩
  | succ k ih =>
    cases t with
    | nil =>
      rw [distance_nil_right, distance_nil_right, List.length_cons]
      omega
    | cons y t =>
      rw [List.length_cons] at hk
      have hfront := ih t s (by omega) y
      rw [distance_comm _ s, distance_comm t s] at hfront
      by_cases hxy : x = y
      · subst hxy
        rw [distance_same]
        exact hfront.symm
      · have hrest := ih s t (by omega) x
        rw [distance_differ hxy]
        omega

theorem distance_cons_left (x : α) (s t : List α) : distance (x :: s) t ≤ distance s t + 1 :=
  (distance_cons_le _ s t (Nat.le_refl _) x).1

theorem le_distance_cons_left (x : α) (s t : List α) : distance s t ≤ distance (x :: s) t + 1 :=
  (distance_cons_le _ s t (Nat.le_refl _) x).2

theorem le_distance_cons_right (y : α) (s t : List α) :
    distance s t ≤ distance s (y :: t) + 1 := by
  rw [distance_comm s t, distance_comm s (y :: t)]
  exact le_distance_cons_left y t s

theorem distance_edit (h : Edit s t) (u : List α) : distance s u ≤ distance t u + 1 := by
  induction h generalizing u with
  | delete x s => exact distance_cons_left x s u
  | insert x s => exact le_distance_cons_left x s u
  | replace x y s =>
    induction u with
    | nil =>
      rw [distance_nil_right, distance_nil_right]
      exact Nat.le_succ _
    | cons z u ih =>
      have hin := le_distance_cons_left y s u
      have hout := le_distance_cons_right z s u
      by_cases hx : x = z
      · subst hx
        rw [distance_same]
        by_cases hy : y = x
        · subst hy
          rw [distance_same]
          exact Nat.le_succ _
        · rw [distance_differ hy]
          omega
      · rw [distance_differ hx]
        by_cases hy : y = z
        · subst hy
          rw [distance_same]
          omega
        · rw [distance_differ hy]
          omega
  | @keep x s t _ ih =>
    induction u with
    | nil =>
      have hlen := ih []
      rw [distance_nil_right, distance_nil_right] at hlen ⊢
      rw [List.length_cons, List.length_cons]
      omega
    | cons z u ihu =>
      by_cases hx : x = z
      · subst hx
        rw [distance_same, distance_same]
        exact ih u
      · have hdel := ih (z :: u)
        have hsub := ih u
        rw [distance_differ hx, distance_differ hx]
        omega

theorem distance_le (h : Edits n s t) : distance s t ≤ n := by
  induction h with
  | refl s =>
    induction s with
    | nil => exact Nat.le_of_eq (distance_nil_left [])
    | cons x s ih =>
      rw [distance_same]
      exact ih
  | @step n s t u he _ ih => exact Nat.le_trans (distance_edit he u) (Nat.add_le_add_right ih 1)

theorem distance_eq_zero : distance s t = 0 ↔ s = t := by
  constructor
  · intro h
    have hedits := distance_edits s t
    rw [h] at hedits
    cases hedits
    rfl
  · rintro rfl
    exact Nat.le_zero.mp (distance_le (.refl s))

theorem distance_least (s t : List α) : IsLeast {n | Edits n s t} (distance s t) :=
  ⟨distance_edits s t, fun _ h ↦ distance_le h⟩

end LowLevel.Basis.EditDistance
