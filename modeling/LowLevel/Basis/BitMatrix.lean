import Mathlib.Algebra.Group.Nat.Defs
import Mathlib.Data.Nat.Bitwise
import Mathlib.Data.Nat.Prime.Basic
import Mathlib.Dynamics.PeriodicPts.Lemmas

namespace LowLevel.Basis.BitMatrix

open Function

variable {f g : ℕ → ℕ} {cs : List ℕ} {k n w x : ℕ}

def Additive (f : ℕ → ℕ) : Prop := ∀ x y, f (x ^^^ y) = f x ^^^ f y

/-- The product of the matrix with the columns `cs` and the vector of the bits of `x`. -/
def apply : List ℕ → ℕ → ℕ
  | [], _ => 0
  | c :: cs, x => (if x.testBit 0 then c else 0) ^^^ apply cs (x / 2)

def columns (f : ℕ → ℕ) (w : ℕ) : List ℕ := (List.range w).map (fun i ↦ f (2 ^ i))

/-- The power `n` of the matrix, by squaring, applied to `x`. -/
def power : ℕ → List ℕ → ℕ → ℕ → ℕ
  | 0, _, _, x => x
  | k + 1, cs, n, x => power k (cs.map (apply cs)) (n / 2) (if n % 2 = 1 then apply cs x else x)

theorem Additive.zero (hf : Additive f) : f 0 = 0 := by
  have h := hf 0 0
  rwa [Nat.xor_self, Nat.xor_self] at h

theorem Additive.comp (hf : Additive f) (hg : Additive g) : Additive (f ∘ g) := by
  intro x y
  rw [comp_apply, hg, hf, comp_apply, comp_apply]

theorem apply_additive (cs : List ℕ) : Additive (apply cs) := by
  induction cs with
  | nil =>
    intro x y
    rw [apply, apply, apply, Nat.xor_self]
  | cons c cs ih =>
    intro x y
    rw [apply, apply, apply, Nat.xor_div_two, ih, Nat.testBit_xor]
    cases x.testBit 0 with
    | false =>
      cases y.testBit 0 with
      | false => simp
      | true => simp [Nat.xor_left_comm]
    | true =>
      cases y.testBit 0 with
      | false => simp [Nat.xor_assoc]
      | true =>
        simp only [bne_self_eq_false, Bool.false_eq_true, if_false, if_true, Nat.zero_xor]
        rw [Nat.xor_assoc, Nat.xor_left_comm _ c, ← Nat.xor_assoc c c, Nat.xor_self, Nat.zero_xor]

theorem apply_map (hg : Additive g) (cs : List ℕ) (x : ℕ) :
    apply (cs.map g) x = g (apply cs x) := by
  induction cs generalizing x with
  | nil => exact hg.zero.symm
  | cons c cs ih =>
    rw [List.map_cons, apply, apply, ih, hg, apply_ite g, hg.zero]

theorem apply_columns (hf : Additive f) (hx : x < 2 ^ w) : apply (columns f w) x = f x := by
  induction w generalizing f x with
  | zero =>
    obtain rfl : x = 0 := by omega
    exact hf.zero.symm
  | succ w ih =>
    have hdouble : Additive (fun x ↦ 2 * x) := by
      intro x y
      have h := Nat.shiftLeft_xor_distrib (a := x) (b := y) (i := 1)
      simpa [Nat.shiftLeft_eq, Nat.mul_comm] using h
    have hcolumns : columns f (w + 1) = f 1 :: columns (f ∘ fun x ↦ 2 * x) w := by
      rw [columns, List.range_succ_eq_map, List.map_cons, List.map_map, columns]
      congr 1
      apply List.map_congr_left
      intro i _
      rw [comp_apply, comp_apply, Nat.pow_succ, Nat.mul_comm]
    have hbits : (if x.testBit 0 then 1 else 0) ^^^ 2 * (x / 2) = x := by
      apply Nat.eq_of_testBit_eq
      intro i
      rw [Nat.testBit_xor]
      cases i with
      | zero => cases h : x.testBit 0 <;> simp
      | succ i =>
        cases h : x.testBit 0 <;> simp [Nat.testBit_succ]
    rw [hcolumns, apply, ih (hf.comp hdouble) (by rw [Nat.pow_succ] at hx; omega), comp_apply]
    conv_rhs => rw [← hbits, hf, apply_ite f, hf.zero]

/-- The matrix of `f` on the numbers below `2 ^ w`. -/
structure Represents (w : ℕ) (cs : List ℕ) (f : ℕ → ℕ) : Prop where
  closed : ∀ x < 2 ^ w, f x < 2 ^ w
  apply : ∀ x < 2 ^ w, apply cs x = f x

theorem Represents.square (h : Represents w cs f) :
    Represents w (cs.map (BitMatrix.apply cs)) f^[2] where
  closed x hx := h.closed _ (h.closed x hx)
  apply x hx := by
    rw [apply_map (apply_additive cs), h.apply x hx, h.apply _ (h.closed x hx)]
    rfl

theorem power_eq (h : Represents w cs f) (hn : n < 2 ^ k) (hx : x < 2 ^ w) :
    power k cs n x = f^[n] x := by
  induction k generalizing cs f n x with
  | zero =>
    obtain rfl : n = 0 := by omega
    rfl
  | succ k ih =>
    have hhalf : n / 2 < 2 ^ k := by
      rw [Nat.pow_succ] at hn
      omega
    have hsplit := Nat.div_add_mod n 2
    rw [power]
    rcases Nat.mod_two_eq_zero_or_one n with heven | hodd
    · rw [if_neg (by omega), ih h.square hhalf hx, ← iterate_mul]
      congr 2
      omega
    · rw [if_pos hodd, h.apply x hx, ih h.square hhalf (h.closed x hx), ← iterate_mul,
        ← iterate_succ_apply]
      congr 2
      omega

/-- A period of which no part is a period. -/
theorem minimalPeriod_eq {α : Type*} {f : α → α} {x : α} (hperiod : f^[n] x = x)
    (hpart : ∀ p, p.Prime → p ∣ n → f^[n / p] x ≠ x) : minimalPeriod f x = n := by
  have hdvd : minimalPeriod f x ∣ n := IsPeriodicPt.minimalPeriod_dvd hperiod
  obtain ⟨q, hq⟩ := hdvd
  by_contra hne
  have hq1 : q ≠ 1 := by
    rintro rfl
    exact hne (by rw [hq, Nat.mul_one])
  obtain ⟨p, hp, r, rfl⟩ := Nat.exists_prime_and_dvd hq1
  refine hpart p hp ⟨minimalPeriod f x * r, by rw [hq, Nat.mul_left_comm]⟩ ?_
  have hdiv : n / p = minimalPeriod f x * r := by
    rw [hq, Nat.mul_left_comm]
    exact Nat.mul_div_cancel_left _ hp.pos
  rw [hdiv]
  exact (isPeriodicPt_minimalPeriod f x).mul_const r

end LowLevel.Basis.BitMatrix
