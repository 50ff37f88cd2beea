import LowLevel.Basis.AddressSpace
import LowLevel.Basis.Loop
import Mathlib.Algebra.Group.Int.Defs

namespace LowLevel.Basis.CArith

open AddressSpace Loop

/-- Why a program stops: a bad access, or an operation without an exact result. -/
inductive Fault
  | memory (s : Stop)
  | overflow
  | narrowing
  | shift
  | wrap
  deriving DecidableEq, Repr

instance : MonadLift (Except Stop) (Except Fault) := ⟨Except.mapError .memory⟩

/-- `wrapping` is the arithmetic of the machine. `checked` stops at an `int`
shift without a representable result, and where `size_t` would wrap. -/
inductive Mode
  | checked
  | wrapping
  deriving Inhabited

def Fits (w : ℕ) (x : ℤ) : Prop := -2 ^ (w - 1) ≤ x ∧ x < 2 ^ (w - 1)

instance (w : ℕ) (x : ℤ) : Decidable (Fits w x) := instDecidableAnd

/-- An `int32_t` expression whose exact value is `x`. -/
def int32 (x : ℤ) : Except Fault Int32 :=
  if Fits 32 x then .ok (Int32.ofInt x) else .error .overflow

def int64 (x : ℤ) : Except Fault Int64 :=
  if Fits 64 x then .ok (Int64.ofInt x) else .error .overflow

/-- The conversion to `int32_t`, which C leaves to the implementation when the
value does not fit. -/
def narrow (x : Int64) : Except Fault Int32 :=
  if Fits 32 x.toInt then .ok (Int32.ofInt x.toInt) else .error .narrowing

/-- The conversion of a `size_t` to `int`. -/
def narrowSize (n : ℕ) : Except Fault Int32 :=
  if Fits 32 n then .ok (Int32.ofInt n) else .error .narrowing

/-- `x << k` for a `uint32_t`: the product with `2 ^ k`, reduced. -/
def shiftLeft (x : UInt32) (k : ℕ) : Except Fault UInt32 :=
  if k < 32 then .ok (UInt32.ofNat (x.toNat * 2 ^ k)) else .error .shift

def shiftRight (x : UInt32) (k : ℕ) : Except Fault UInt32 :=
  if k < 32 then .ok (UInt32.ofNat (x.toNat / 2 ^ k)) else .error .shift

/-- `x << k` for an `int`. -/
def shiftInt (mode : Mode) (x : Int32) (k : ℕ) : Except Fault Int32 :=
  if k < 32 then
    match mode with
    | .wrapping => .ok (Int32.ofInt (x.toInt * 2 ^ k))
    | .checked =>
      if 0 ≤ x.toInt ∧ Fits 32 (x.toInt * 2 ^ k) then .ok (Int32.ofInt (x.toInt * 2 ^ k))
      else .error .shift
  else .error .shift

/-- `for (int i = 0; i < n; i++)` -/
def forInt {σ : Type _} (body : ℕ → σ → Except Fault σ) (n : ℕ) (s : σ) : Except Fault σ :=
  forRange (fun i s ↦ do
    let s ← body i s
    let _ ← int32 (i + 1)
    return s) 0 n s

/-- `a - b` in `size_t`. -/
def Mode.sub (mode : Mode) (a b : ℕ) : Except Fault ℕ :=
  match mode with
  | .wrapping => .ok (sizeSub a b)
  | .checked => if b ≤ a then .ok (a - b) else .error .wrap

def Mode.add (mode : Mode) (a b : ℕ) : Except Fault ℕ :=
  match mode with
  | .wrapping => .ok (sizeAdd a b)
  | .checked => if a + b < 2 ^ 64 then .ok (a + b) else .error .wrap

variable {x : ℤ} {a b k : ℕ}

theorem int32_of_fits (h : Fits 32 x) : ∃ v, int32 x = .ok v ∧ v.toInt = x :=
  ⟨Int32.ofInt x, if_pos h, Int32.toInt_ofInt_of_le h.1 h.2⟩

theorem int64_of_fits (h : Fits 64 x) : ∃ v, int64 x = .ok v ∧ v.toInt = x :=
  ⟨Int64.ofInt x, if_pos h, Int64.toInt_ofInt_of_le h.1 h.2⟩

theorem narrow_of_fits {x : Int64} (h : Fits 32 x.toInt) :
    ∃ v, narrow x = .ok v ∧ v.toInt = x.toInt :=
  ⟨Int32.ofInt x.toInt, if_pos h, Int32.toInt_ofInt_of_le h.1 h.2⟩

theorem narrowSize_of_lt {n : ℕ} (h : n < 2 ^ 31) : ∃ v, narrowSize n = .ok v ∧ v.toInt = n := by
  have hfits : Fits 32 n := by
    rw [Fits]
    omega
  exact ⟨Int32.ofInt n, if_pos hfits, Int32.toInt_ofInt_of_le hfits.1 hfits.2⟩

/-- A bound that an `int` holds is reached without overflow. -/
theorem forInt_eq {σ : Type _} (body : ℕ → σ → Except Fault σ) {n : ℕ} (hn : n < 2 ^ 31) (s : σ) :
    forInt body n s = forRange body 0 n s := by
  refine forRange_congr (fun i _ hi s ↦ ?_)
  obtain ⟨v, hv, -⟩ := int32_of_fits (x := i + 1) (by unfold Fits; omega)
  cases hrun : body i s with
  | error e => rfl
  | ok t =>
    rw [ok_bind, hv]
    rfl

theorem fits_toInt (v : Int32) : Fits 32 v.toInt := ⟨v.le_toInt, v.toInt_lt⟩

theorem shiftLeft_of_lt {x : UInt32} (hk : k < 32) :
    shiftLeft x k = .ok (UInt32.ofNat (x.toNat * 2 ^ k)) := if_pos hk

theorem shiftRight_of_lt {x : UInt32} (hk : k < 32) :
    shiftRight x k = .ok (UInt32.ofNat (x.toNat / 2 ^ k)) := if_pos hk

theorem Mode.sub_of_le (mode : Mode) (h : b ≤ a) (ha : a < 2 ^ 64) :
    mode.sub a b = .ok (a - b) := by
  cases mode with
  | checked => exact if_pos h
  | wrapping => exact congrArg Except.ok (sizeSub_of_le h ha)

theorem Mode.add_of_lt (mode : Mode) (h : a + b < 2 ^ 64) : mode.add a b = .ok (a + b) := by
  cases mode with
  | checked => exact if_pos h
  | wrapping => exact congrArg Except.ok (sizeAdd_of_lt h)

theorem lift_ok {α : Type _} {m : Except Stop α} {v : α} (h : m = .ok v) :
    (liftM m : Except Fault α) = .ok v := by
  rw [h]
  rfl

theorem avoids_lift {α : Type _} (m : Except Stop α) :
    Avoids Fault.shift (liftM m : Except Fault α) := by
  cases m with
  | ok v => exact avoids_ok Fault.shift v
  | error s =>
    intro h
    cases h

theorem avoids_shiftLeft (x : UInt32) (hk : k < 32) : Avoids Fault.shift (shiftLeft x k) := by
  rw [shiftLeft_of_lt hk]
  exact avoids_ok _ _

theorem avoids_shiftRight (x : UInt32) (hk : k < 32) : Avoids Fault.shift (shiftRight x k) := by
  rw [shiftRight_of_lt hk]
  exact avoids_ok _ _

end LowLevel.Basis.CArith
