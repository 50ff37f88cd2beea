import LowLevel.Basis.LowBit
import LowLevel.Basis.Loop

namespace LowLevel.ProperC.Bits

open Basis.LowBit Basis.Loop

structure Clearing where
  x : UInt32
  count : ℕ

def Clearing.pass (s : Clearing) : Except Unit Clearing :=
  .ok ⟨s.x &&& (s.x - 1), s.count + 1⟩

/-- The count is at most 32, so that an `int` holds it. -/
def countSetBits (fuel : ℕ) (x : UInt32) : Except Unit ℕ :=
  (whileFuel () (fun s : Clearing ↦ s.x != 0) Clearing.pass fuel ⟨x, 0⟩).map Clearing.count

def isPowerOfTwo (fuel : ℕ) (x : UInt32) : Except Unit Bool :=
  (countSetBits fuel x).map (fun count ↦ count == 1)

/-- The number of one bits. -/
def ones (x : UInt32) : ℕ := (List.range 32).countP x.toNat.testBit

theorem toNat_land_pred {x : UInt32} (hx : x ≠ 0) :
    (x &&& (x - 1)).toNat = x.toNat &&& (x.toNat - 1) := by
  have hpos : x.toNat ≠ 0 := fun h ↦ hx (UInt32.toNat_inj.mp h)
  have hle : (1 : UInt32) ≤ x := UInt32.le_iff_toNat_le.mpr (Nat.one_le_iff_ne_zero.mpr hpos)
  rw [UInt32.toNat_and, UInt32.toNat_sub_of_le _ _ hle]
  rfl

theorem ones_eq (x : UInt32) : x.toNat.bitIndices.length = ones x :=
  length_bitIndices x.toNat_lt

/-- The loop of `count_set_bits` with `n` one bits to go. -/
structure Left (x : UInt32) (n : ℕ) (s : Clearing) : Prop where
  bits : s.x.toNat.bitIndices.length = n
  count : s.count + n = ones x

theorem Left.pass {x : UInt32} {n : ℕ} {s : Clearing} (h : Left x (n + 1) s) :
    (s.x != 0) = true ∧ ∃ s', s.pass = .ok s' ∧ Left x n s' := by
  have hbits := h.bits
  have hcount := h.count
  have hx : s.x ≠ 0 := by
    intro hzero
    rw [hzero] at hbits
    simp at hbits
  refine ⟨by simpa using hx, _, rfl, ?_, by dsimp only; omega⟩
  rw [toNat_land_pred hx, bitIndices_land_pred, List.length_tail, hbits, Nat.add_sub_cancel]

theorem countSetBits_returns (x : UInt32) : Returns (fun fuel ↦ countSetBits fuel x) (ones x) := by
  refine ⟨ones x, fun fuel hfuel ↦ ?_⟩
  have hend : ∀ s, Left x 0 s → (s.x != 0) = false := by
    intro s hs
    have hzero := bitIndices_eq_nil_iff.mp (List.length_eq_zero_iff.mp hs.bits)
    have hx : s.x = 0 := UInt32.toNat_inj.mp hzero
    simpa using hx
  obtain ⟨s, hrun, hs⟩ := whileFuel_ok () (Left x) hend (fun n s hs ↦ hs.pass) hfuel
    (s := ⟨x, 0⟩) ⟨ones_eq x, Nat.zero_add _⟩
  have hcount := hs.count
  rw [Nat.add_zero] at hcount
  change countSetBits fuel x = .ok (ones x)
  rw [countSetBits, hrun, ← hcount]
  rfl

/-- `count_set_bits` ends with the number of one bits, each pass clearing one,
and `is_power_of_two` holds of the powers of two. -/
theorem count_set_bits_ones (x : UInt32) :
    Returns (fun fuel ↦ countSetBits fuel x) (ones x) ∧ ones x ≤ 32 ∧
      (x ≠ 0 → x &&& (x - 1) < x) ∧
      ∃ b, Returns (fun fuel ↦ isPowerOfTwo fuel x) b ∧
        (b = true ↔ ∃ k, k ≤ 31 ∧ x.toNat = 2 ^ k) := by
  have hreturns := countSetBits_returns x
  refine ⟨hreturns, ?_, ?_, ones x == 1, ?_, ?_⟩
  · have hle := List.countP_le_length (p := x.toNat.testBit) (l := List.range 32)
    rwa [List.length_range] at hle
  · intro hx
    have hpos : x.toNat ≠ 0 := fun h ↦ hx (UInt32.toNat_inj.mp h)
    rw [UInt32.lt_iff_toNat_lt, toNat_land_pred hx]
    exact land_pred_lt hpos
  · obtain ⟨n, hn⟩ := hreturns
    refine ⟨n, fun fuel hfuel ↦ ?_⟩
    have hrun : countSetBits fuel x = .ok (ones x) := hn fuel hfuel
    change isPowerOfTwo fuel x = _
    rw [isPowerOfTwo, hrun]
    rfl
  · rw [beq_iff_eq, ← ones_eq, length_bitIndices_eq_one_iff]
    refine ⟨fun h ↦ ?_, fun h ↦ h.imp (fun k hk ↦ hk.2)⟩
    obtain ⟨k, hk⟩ := h
    have hlt : 2 ^ k < 2 ^ 32 := hk ▸ x.toNat_lt
    have hk' : k < 32 := (Nat.pow_lt_pow_iff_right (by omega)).mp hlt
    exact ⟨k, by omega, hk⟩

end LowLevel.ProperC.Bits
