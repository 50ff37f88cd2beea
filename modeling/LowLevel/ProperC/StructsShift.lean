import LowLevel.ProperC.Structs
import LowLevel.ProperC.Ub

namespace LowLevel.ProperC.Structs

open Basis.AddressSpace Basis.CArith Basis.Loop

/-- None of the seven functions stops at an undefined shift. -/
structure ShiftsDefined (m : Memory UInt8) (v : UInt32) (p : ℕ) (r g b a : UInt8)
    (pr pg pb pa : ℕ) : Prop where
  toBytesLe : Avoids Fault.shift (u32ToBytesLe m v p)
  toBytesBe : Avoids Fault.shift (u32ToBytesBe m v p)
  fromBytesLe : Avoids Fault.shift (u32FromBytesLe m p)
  fromBytesBe : Avoids Fault.shift (u32FromBytesBe m p)
  pack : Avoids Fault.shift (packRgba .checked r g b a)
  unpack : Avoids Fault.shift (unpackRgba m v pr pg pb pa)
  load : Avoids Fault.shift (Ub.loadU32Le m p)

variable (m : Memory UInt8) (v : UInt32) (p : ℕ)

theorem avoids_u32ToBytesLe : Avoids Fault.shift (u32ToBytesLe m v p) := by
  apply Avoids.forRange
  intro i _ hi m
  exact (avoids_shiftRight v (by omega)).bind (fun _ ↦ avoids_lift _)

theorem avoids_u32ToBytesBe : Avoids Fault.shift (u32ToBytesBe m v p) := by
  apply Avoids.forRange
  intro i _ hi m
  exact (avoids_shiftRight v (by omega)).bind (fun _ ↦ avoids_lift _)

theorem avoids_u32FromBytesLe : Avoids Fault.shift (u32FromBytesLe m p) := by
  apply Avoids.forRange
  intro i _ hi new
  refine (avoids_lift _).bind (fun byte ↦ ?_)
  exact (avoids_shiftLeft _ (by omega)).bind (fun _ ↦ avoids_ok _ _)

theorem avoids_u32FromBytesBe : Avoids Fault.shift (u32FromBytesBe m p) := by
  refine (avoids_lift _).bind (fun first ↦ Avoids.forRange ?_)
  intro i _ _ new
  refine (avoids_shiftLeft new (by decide)).bind (fun new ↦ ?_)
  exact (avoids_lift _).bind (fun _ ↦ avoids_ok _ _)

theorem avoids_loadU32Le : Avoids Fault.shift (Ub.loadU32Le m p) := by
  have hbyte : ∀ q k : ℕ, k < 32 → ∀ next : UInt32 → Except Fault UInt32,
      (∀ x, Avoids Fault.shift (next x)) →
      Avoids Fault.shift (liftM (m.load q) >>= fun b : UInt8 ↦ shiftLeft b.toUInt32 k >>= next) :=
    fun q k hk next hnext ↦ (avoids_lift _).bind (fun _ ↦ (avoids_shiftLeft _ hk).bind hnext)
  refine hbyte _ 0 (by decide) _ (fun b0 ↦ hbyte _ 8 (by decide) _ (fun b1 ↦ ?_))
  exact hbyte _ 16 (by decide) _ (fun b2 ↦ hbyte _ 24 (by decide) _ (fun _ ↦ avoids_ok _ _))

theorem avoids_storeUnlessNull {byte : Except Fault UInt8} (h : Avoids Fault.shift byte) :
    Avoids Fault.shift (storeUnlessNull m p byte) := by
  rw [storeUnlessNull]
  split
  · exact avoids_ok _ _
  · exact h.bind (fun _ ↦ avoids_lift _)

theorem avoids_unpackRgba (r g b a : ℕ) : Avoids Fault.shift (unpackRgba m v r g b a) := by
  have hshift : ∀ k < 32, ∀ f : UInt32 → UInt8,
      Avoids Fault.shift (do return f (← shiftRight v k)) :=
    fun k hk f ↦ (avoids_shiftRight v hk).bind (fun _ ↦ avoids_ok _ _)
  refine (avoids_storeUnlessNull m r (hshift 24 (by decide) _)).bind (fun m ↦ ?_)
  refine (avoids_storeUnlessNull m g (hshift 16 (by decide) (fun x ↦ (x &&& 0xFF).toUInt8))).bind
    (fun m ↦ ?_)
  refine (avoids_storeUnlessNull m b (hshift 8 (by decide) (fun x ↦ (x &&& 0xFF).toUInt8))).bind
    (fun m ↦ ?_)
  exact avoids_storeUnlessNull m a (avoids_ok _ _)

theorem shiftInt_checked (x : UInt8) {k : ℕ} (hk : k < 32) :
    (x.toNat * 2 ^ k < 2 ^ 31 → ∃ y, shiftInt .checked (promote x) k = .ok y) ∧
      (2 ^ 31 ≤ x.toNat * 2 ^ k → shiftInt .checked (promote x) k = .error .shift) := by
  have hcast : ((x.toNat : ℤ) * 2 ^ k) = ((x.toNat * 2 ^ k : ℕ) : ℤ) := by simp
  have hdef : shiftInt .checked (promote x) k =
      if 0 ≤ (x.toNat : ℤ) ∧ Fits 32 ((x.toNat * 2 ^ k : ℕ) : ℤ) then
        .ok (Int32.ofInt ((x.toNat * 2 ^ k : ℕ) : ℤ)) else .error .shift := by
    rw [shiftInt, if_pos hk, promote_toInt, hcast]
  rw [hdef]
  constructor
  · intro hlt
    exact ⟨_, if_pos ⟨by omega, by unfold Fits; omega⟩⟩
  · intro hge
    exact if_neg (by unfold Fits; omega)

theorem avoids_packRgba (r g b a : UInt8) :
    Avoids Fault.shift (packRgba .checked r g b a) ↔ r.toNat < 128 := by
  have hg := g.toNat_lt
  have hb := b.toNat_lt
  obtain ⟨green, hgreen⟩ := (shiftInt_checked g (k := 16) (by decide)).1 (by omega)
  obtain ⟨blue, hblue⟩ := (shiftInt_checked b (k := 8) (by decide)).1 (by omega)
  rcases Nat.lt_or_ge r.toNat 128 with hlt | hge
  · obtain ⟨red, hred⟩ := (shiftInt_checked r (k := 24) (by decide)).1 (by omega)
    rw [packRgba, hred, ok_bind, hgreen, ok_bind, hblue, ok_bind]
    exact ⟨fun _ ↦ hlt, fun _ ↦ avoids_ok _ _⟩
  · have hred := (shiftInt_checked r (k := 24) (by decide)).2 (by omega)
    rw [packRgba, hred]
    exact ⟨fun h ↦ absurd rfl h, fun h ↦ absurd h (Nat.not_lt.mpr hge)⟩

theorem shifts_defined_iff (r g b a : UInt8) (pr pg pb pa : ℕ) :
    ShiftsDefined m v p r g b a pr pg pb pa ↔ r.toNat < 128 := by
  constructor
  · intro h
    exact (avoids_packRgba r g b a).mp h.pack
  · intro h
    exact ⟨avoids_u32ToBytesLe m v p, avoids_u32ToBytesBe m v p, avoids_u32FromBytesLe m p,
      avoids_u32FromBytesBe m p, (avoids_packRgba r g b a).mpr h, avoids_unpackRgba m v pr pg pb pa,
      avoids_loadU32Le m p⟩

/-- An opaque red: `pack_rgba(255, 0, 0, 255)`. -/
theorem opaque_red_shift_undefined :
    ¬ ShiftsDefined (Memory.sample [0, 0, 0, 0] (by decide)) 0 100 255 0 0 255 0 0 0 0 := by
  intro h
  exact h.pack (by decide)

end LowLevel.ProperC.Structs
