import LowLevel.Basis.CArith
import LowLevel.Basis.Loop

namespace LowLevel.ProperC.Ub

open Function Basis.AddressSpace Basis.CArith Basis.Loop

def checkedAddI32 (m : Memory Int32) (a b : Int32) (out : ℕ) :
    Except Fault (Bool × Memory Int32) := do
  if 0 < b then
    let bound ← int32 (Int32.maxValue.toInt - b.toInt)
    if a > bound then
      return (false, m)
  if b < 0 then
    let bound ← int32 (Int32.minValue.toInt - b.toInt)
    if a < bound then
      return (false, m)
  let sum ← int32 (a.toInt + b.toInt)
  let m ← m.modify out (fun _ ↦ sum)
  return (true, m)

def checkedMulI32 (m : Memory Int32) (a b : Int32) (out : ℕ) :
    Except Fault (Bool × Memory Int32) := do
  let target ← int64 (a.toInt * b.toInt)
  if target < Int32.minValue.toInt64 ∨ target > Int32.maxValue.toInt64 then
    return (false, m)
  let value ← narrow target
  let m ← m.modify out (fun _ ↦ value)
  return (true, m)

def avgNoOverflow (a b : Int32) : Except Fault Int32 := do
  let sum ← int64 (a.toInt + b.toInt)
  let half ← int64 (sum.toInt.tdiv 2)
  narrow half

def safeLshift (x k : UInt32) : Except Fault UInt32 :=
  if k ≥ 32 then .ok 0 else shiftLeft x k.toNat

def loadU32Le (m : Memory UInt8) (p : ℕ) : Except Fault UInt32 := do
  let b0 ← shiftLeft (← m.load (p + 0)).toUInt32 0
  let b1 ← shiftLeft (← m.load (p + 1)).toUInt32 8
  let b2 ← shiftLeft (← m.load (p + 2)).toUInt32 16
  let b3 ← shiftLeft (← m.load (p + 3)).toUInt32 24
  return b0 ||| b1 ||| b2 ||| b3

/-- The contract of the checked operations, `exact` being the exact result. -/
structure Checked (m : Memory Int32) (out : ℕ) (exact : ℤ)
    (run : Except Fault (Bool × Memory Int32)) : Prop where
  fits : Fits 32 exact → ∃ v m', run = .ok (true, m') ∧ v.toInt = exact ∧
    m'.cell = update m.cell out (some v)
  refused : ¬ Fits 32 exact → run = .ok (false, m)

variable {m : Memory Int32} {out : ℕ}

theorem modify_const (h : (m.cell out).isSome) (v : Int32) :
    ∃ m', m.modify out (fun _ ↦ v) = .ok m' ∧ m'.cell = update m.cell out (some v) := by
  obtain ⟨old, hold⟩ := Option.isSome_iff_exists.mp h
  exact Memory.modify_spec hold (fun _ ↦ v)

/-- What is left of both functions after the guards. -/
theorem checked_store (h : (m.cell out).isSome) {x : ℤ} {value : Except Fault Int32}
    (hfits : Fits 32 x) (hvalue : ∃ v, value = .ok v ∧ v.toInt = x) :
    Checked m out x (do
      let v ← value
      let m ← m.modify out (fun _ ↦ v)
      return (true, m)) := by
  obtain ⟨v, hv, hvx⟩ := hvalue
  obtain ⟨m', hm, hcell⟩ := modify_const h v
  refine ⟨fun _ ↦ ⟨v, m', ?_, hvx, hcell⟩, fun hnot ↦ absurd hfits hnot⟩
  rw [hv, ok_bind, lift_ok hm, ok_bind]
  rfl

theorem checked_guard (h : (m.cell out).isSome) {x : ℤ} {value : Except Fault Int32} {bad : Prop}
    [Decidable bad] (hbad : bad ↔ ¬ Fits 32 x)
    (hvalue : Fits 32 x → ∃ v, value = .ok v ∧ v.toInt = x) :
    Checked m out x (if bad then return (false, m) else do
      let v ← value
      let m ← m.modify out (fun _ ↦ v)
      return (true, m)) := by
  rcases Decidable.em bad with h' | h'
  · rw [if_pos h']
    exact ⟨fun hfits ↦ absurd hfits (hbad.mp h'), fun _ ↦ rfl⟩
  · rw [if_neg h']
    have hfits : Fits 32 x := Decidable.not_not.mp (fun hnot ↦ h' (hbad.mpr hnot))
    exact checked_store h hfits (hvalue hfits)

theorem toInt_maxValue : Int32.maxValue.toInt = 2 ^ 31 - 1 := rfl

theorem toInt_minValue : Int32.minValue.toInt = -2 ^ 31 := rfl

theorem checkedAddI32_checked (h : (m.cell out).isSome) (a b : Int32) :
    Checked m out (a.toInt + b.toInt) (checkedAddI32 m a b out) := by
  have ha := fits_toInt a
  have hb := fits_toInt b
  unfold Fits at ha hb
  rcases Int.lt_trichotomy b.toInt 0 with hneg | hzero | hpos
  · have hlt : b < 0 := Int32.lt_iff_toInt_lt.mpr hneg
    have hnot : ¬ 0 < b := by
      rw [Int32.lt_iff_toInt_lt]
      exact Int.not_lt.mpr (Int.le_of_lt hneg)
    obtain ⟨bound, hbound, hval⟩ := int32_of_fits (x := Int32.minValue.toInt - b.toInt)
      (by rw [toInt_minValue]; unfold Fits; omega)
    rw [toInt_minValue] at hval
    simp only [checkedAddI32, hlt, hnot, if_true, if_false, hbound, ok_bind]
    refine checked_guard h ?_ int32_of_fits
    rw [Int32.lt_iff_toInt_lt, hval, Fits]
    omega
  · have hlt : ¬ b < 0 := by
      rw [Int32.lt_iff_toInt_lt]
      exact Int.not_lt.mpr (Int.le_of_eq hzero.symm)
    have hnot : ¬ 0 < b := by
      rw [Int32.lt_iff_toInt_lt]
      exact Int.not_lt.mpr (Int.le_of_eq hzero)
    have hfits : Fits 32 (a.toInt + b.toInt) := by
      rw [hzero, Int.add_zero]
      exact ha
    simp only [checkedAddI32, hlt, hnot, if_false]
    exact checked_store h hfits (int32_of_fits hfits)
  · have hlt : ¬ b < 0 := by
      rw [Int32.lt_iff_toInt_lt]
      exact Int.not_lt.mpr (Int.le_of_lt hpos)
    have hgt : 0 < b := Int32.lt_iff_toInt_lt.mpr hpos
    obtain ⟨bound, hbound, hval⟩ := int32_of_fits (x := Int32.maxValue.toInt - b.toInt)
      (by rw [toInt_maxValue]; unfold Fits; omega)
    rw [toInt_maxValue] at hval
    simp only [checkedAddI32, hlt, hgt, if_true, if_false, hbound, ok_bind]
    refine checked_guard h ?_ int32_of_fits
    rw [gt_iff_lt, Int32.lt_iff_toInt_lt, hval, Fits]
    omega

theorem fits_mul {x y : ℤ} (hx : Fits 32 x) (hy : Fits 32 y) : Fits 64 (x * y) := by
  obtain ⟨hx, hx'⟩ := hx
  obtain ⟨hy, hy'⟩ := hy
  have hnx : x.natAbs ≤ 2 ^ 31 := by omega
  have hny : y.natAbs ≤ 2 ^ 31 := by omega
  have habs : (x * y).natAbs ≤ 2 ^ 31 * 2 ^ 31 := by
    rw [Int.natAbs_mul]
    exact Nat.mul_le_mul hnx hny
  unfold Fits
  omega

theorem checkedMulI32_checked (h : (m.cell out).isSome) (a b : Int32) :
    Checked m out (a.toInt * b.toInt) (checkedMulI32 m a b out) := by
  obtain ⟨target, htarget, hval⟩ := int64_of_fits (fits_mul (fits_toInt a) (fits_toInt b))
  simp only [checkedMulI32, htarget, ok_bind]
  refine checked_guard h ?_ ?_
  · rw [gt_iff_lt, Int64.lt_iff_toInt_lt, Int64.lt_iff_toInt_lt, Int32.toInt_toInt64,
      Int32.toInt_toInt64, hval, toInt_minValue, toInt_maxValue, Fits]
    omega
  · intro hfits
    rw [← hval] at hfits ⊢
    exact narrow_of_fits hfits

theorem tdiv_between {x y : ℤ} : min x y ≤ (x + y).tdiv 2 ∧ (x + y).tdiv 2 ≤ max x y := by
  rw [Int.tdiv_eq_ediv, show Int.sign 2 = 1 from rfl]
  split
  · omega
  · omega

theorem avgNoOverflow_ok (a b : Int32) :
    ∃ v, avgNoOverflow a b = .ok v ∧ v.toInt = (a.toInt + b.toInt).tdiv 2 := by
  obtain ⟨ha, ha'⟩ := fits_toInt a
  obtain ⟨hb, hb'⟩ := fits_toInt b
  obtain ⟨hmin, hmax⟩ := tdiv_between (x := a.toInt) (y := b.toInt)
  obtain ⟨sum, hsum, hsumval⟩ := int64_of_fits (x := a.toInt + b.toInt) (by unfold Fits; omega)
  obtain ⟨half, hhalf, hhalfval⟩ := int64_of_fits (x := sum.toInt.tdiv 2)
    (by rw [hsumval]; unfold Fits; omega)
  obtain ⟨v, hv, hval⟩ := narrow_of_fits (x := half)
    (by rw [hhalfval, hsumval]; unfold Fits; omega)
  refine ⟨v, ?_, by rw [hval, hhalfval, hsumval]⟩
  rw [avgNoOverflow, hsum, ok_bind, hhalf, ok_bind]
  exact hv

theorem safeLshift_ok (x k : UInt32) :
    ∃ y, safeLshift x k = .ok y ∧ y.toNat = x.toNat * 2 ^ k.toNat % 2 ^ 32 := by
  rcases Nat.lt_or_ge k.toNat 32 with hlt | hge
  · have hk : ¬ k ≥ 32 := by
      rw [ge_iff_le, UInt32.le_iff_toNat_le]
      exact Nat.not_le.mpr hlt
    refine ⟨_, by rw [safeLshift, if_neg hk, shiftLeft_of_lt hlt], ?_⟩
    rw [UInt32.toNat_ofNat']
  · have hk : k ≥ 32 := UInt32.le_iff_toNat_le.mpr hge
    refine ⟨0, by rw [safeLshift, if_pos hk], ?_⟩
    obtain ⟨d, hd⟩ := Nat.exists_eq_add_of_le hge
    rw [hd, Nat.pow_add, Nat.mul_left_comm, Nat.mul_mod_right]
    rfl

theorem arithmetic_exact (h : (m.cell out).isSome) (a b : Int32) (x k : UInt32) :
    Checked m out (a.toInt + b.toInt) (checkedAddI32 m a b out) ∧
      Checked m out (a.toInt * b.toInt) (checkedMulI32 m a b out) ∧
      (∃ v, avgNoOverflow a b = .ok v ∧ v.toInt = (a.toInt + b.toInt).tdiv 2 ∧
        min a.toInt b.toInt ≤ v.toInt ∧ v.toInt ≤ max a.toInt b.toInt) ∧
      ∃ y, safeLshift x k = .ok y ∧ y.toNat = x.toNat * 2 ^ k.toNat % 2 ^ 32 := by
  refine ⟨checkedAddI32_checked h a b, checkedMulI32_checked h a b, ?_, safeLshift_ok x k⟩
  obtain ⟨v, hv, hval⟩ := avgNoOverflow_ok a b
  refine ⟨v, hv, hval, ?_⟩
  rw [hval]
  exact tdiv_between

theorem arithmetic_exact_limit :
    checkedAddI32 (Memory.sample [5] (by decide)) Int32.maxValue Int32.maxValue 100 =
      .ok (false, Memory.sample [5] (by decide)) :=
  (arithmetic_exact (by decide) Int32.maxValue Int32.maxValue 1 40).1.refused (by decide)

end LowLevel.ProperC.Ub
