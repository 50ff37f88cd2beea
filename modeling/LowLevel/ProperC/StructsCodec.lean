import LowLevel.Basis.Layout
import LowLevel.ProperC.Structs
import LowLevel.ProperC.Ub

namespace LowLevel.ProperC.Structs

open Basis.AddressSpace Basis.ByteOrder Basis.CArith Basis.Layout Basis.Loop

/-- Values written side by side in any order are read back, and four bytes that
were read are written as they were. -/
structure RoundTrips (enc : Memory UInt8 → UInt32 → ℕ → Except Fault (Memory UInt8))
    (dec : Memory UInt8 → ℕ → Except Fault UInt32) : Prop where
  readBack : ∀ (m : Memory UInt8) (base : ℕ) (vs : List UInt32) (writes : List (UInt32 × ℕ)),
    writes.Perm vs.zipIdx → (∀ i < 4 * vs.length, (m.cell (base + i)).isSome) →
    ∃ m', writeAll 4 enc base writes m = .ok m' ∧
      (∀ k v, vs[k]? = some v → dec m' (base + 4 * k) = .ok v) ∧
      Memory.Outside base (base + 4 * vs.length) m m'
  writeBack : ∀ (m : Memory UInt8) (p q : ℕ) (l : List UInt8), l.length = 4 → m.Holds p l →
    (∀ i < 4, (m.cell (q + i)).isSome) → ∃ v m', dec m p = .ok v ∧ enc m v q = .ok m' ∧
      m'.Holds q l ∧ Memory.Outside q (q + 4) m m'

variable {m : Memory UInt8} {v : UInt32} {p : ℕ} {l : List UInt8}

theorem encodes_le : Encodes 4 u32ToBytesLe wordBytes :=
  ⟨wordBytes_length, fun _ _ _ ↦ u32ToBytesLe_spec⟩

theorem encodes_be : Encodes 4 u32ToBytesBe (fun v ↦ (wordBytes v).reverse) :=
  ⟨fun v ↦ by rw [List.length_reverse, wordBytes_length], fun _ _ _ ↦ u32ToBytesBe_spec⟩

theorem roundTrips_of {enc : Memory UInt8 → UInt32 → ℕ → Except Fault (Memory UInt8)}
    {dec : Memory UInt8 → ℕ → Except Fault UInt32} {image : UInt32 → List UInt8}
    {read : List UInt8 → UInt32} (henc : Encodes 4 enc image)
    (hdec : ∀ m p l, m.Holds p l → l.length = 4 → dec m p = .ok (read l))
    (hread : ∀ v, read (image v) = v) (himage : ∀ l, l.length = 4 → image (read l) = l) :
    RoundTrips enc dec where
  readBack := by
    intro m base vs writes hperm hroom
    obtain ⟨m', hrun, hholds, hout⟩ := writeAll_perm henc hperm hroom
    refine ⟨m', hrun, ?_, hout⟩
    intro k v hv
    rw [hdec m' _ _ (hholds k v hv) (henc.length v), hread]
  writeBack := by
    intro m p q l hl hholds hroom
    obtain ⟨m', hrun, hwritten, hout⟩ := henc.run m (read l) q hroom
    rw [himage l hl] at hwritten
    exact ⟨read l, m', hdec m p l hholds hl, hrun, hwritten, hout⟩

theorem shiftLeft_zero (x : UInt32) : shiftLeft x 0 = .ok x := by
  rw [shiftLeft_of_lt (by decide), Nat.pow_zero, Nat.mul_one, UInt32.ofNat_toNat]

/-- The four shifts of a word read or packed at once. -/
theorem shifted_bytes (x₀ x₁ x₂ x₃ : UInt8) :
    ∃ y₁ y₂ y₃, shiftLeft x₁.toUInt32 8 = .ok y₁ ∧ shiftLeft x₂.toUInt32 16 = .ok y₂ ∧
      shiftLeft x₃.toUInt32 24 = .ok y₃ ∧
      x₀.toUInt32 ||| y₁ ||| y₂ ||| y₃ = word [x₀, x₁, x₂, x₃] := by
  obtain ⟨y₁, hy₁, hor₁⟩ := shiftLeft_high (l := [x₀]) (b := x₁) (by simp)
  obtain ⟨y₂, hy₂, hor₂⟩ := shiftLeft_high (l := [x₀, x₁]) (b := x₂) (by simp)
  obtain ⟨y₃, hy₃, hor₃⟩ := shiftLeft_high (l := [x₀, x₁, x₂]) (b := x₃) (by simp)
  refine ⟨y₁, y₂, y₃, hy₁, hy₂, hy₃, ?_⟩
  calc x₀.toUInt32 ||| y₁ ||| y₂ ||| y₃
      = word [x₀] ||| y₁ ||| y₂ ||| y₃ := by rw [word_singleton]
    _ = word [x₀, x₁] ||| y₂ ||| y₃ := congrArg (· ||| y₂ ||| y₃) hor₁
    _ = word [x₀, x₁, x₂] ||| y₃ := congrArg (· ||| y₃) hor₂
    _ = word [x₀, x₁, x₂, x₃] := hor₃

theorem four_bytes (hl : l.length = 4) : ∃ x₀ x₁ x₂ x₃, l = [x₀, x₁, x₂, x₃] :=
  match l, hl with
  | [x₀, x₁, x₂, x₃], _ => ⟨x₀, x₁, x₂, x₃, rfl⟩

theorem loadU32Le_spec (h : m.Holds p l) (hl : l.length = 4) :
    Ub.loadU32Le m p = .ok (word l) := by
  obtain ⟨x₀, x₁, x₂, x₃, rfl⟩ := four_bytes hl
  obtain ⟨y₁, y₂, y₃, hy₁, hy₂, hy₃, hor⟩ := shifted_bytes x₀ x₁ x₂ x₃
  have hload₀ : m.load (p + 0) = .ok x₀ := Memory.load_eq (h 0 x₀ rfl)
  have hload₁ : m.load (p + 1) = .ok x₁ := Memory.load_eq (h 1 x₁ rfl)
  have hload₂ : m.load (p + 2) = .ok x₂ := Memory.load_eq (h 2 x₂ rfl)
  have hload₃ : m.load (p + 3) = .ok x₃ := Memory.load_eq (h 3 x₃ rfl)
  rw [Ub.loadU32Le, lift_ok hload₀, ok_bind, shiftLeft_zero, ok_bind, lift_ok hload₁, ok_bind,
    hy₁, ok_bind, lift_ok hload₂, ok_bind, hy₂, ok_bind, lift_ok hload₃, ok_bind, hy₃, ok_bind,
    hor]
  rfl

theorem shiftInt_wrapping (b : UInt8) {k : ℕ} (hk : k < 32) :
    ∃ x, shiftInt .wrapping (promote b) k = .ok x ∧ shiftLeft b.toUInt32 k = .ok x.toUInt32 := by
  refine ⟨Int32.ofInt ((promote b).toInt * 2 ^ k), by rw [shiftInt, if_pos hk], ?_⟩
  rw [shiftLeft_of_lt hk, promote_toInt]
  congr 1

theorem packRgba_wrapping (r g b a : UInt8) :
    packRgba .wrapping r g b a = .ok (word [a, b, g, r]) := by
  obtain ⟨blue, green, red, hblue, hgreen, hred, hor⟩ := shifted_bytes a b g r
  obtain ⟨x₂₄, hx₂₄, hr⟩ := shiftInt_wrapping r (k := 24) (by decide)
  obtain ⟨x₁₆, hx₁₆, hg⟩ := shiftInt_wrapping g (k := 16) (by decide)
  obtain ⟨x₈, hx₈, hb⟩ := shiftInt_wrapping b (k := 8) (by decide)
  obtain rfl : red = x₂₄.toUInt32 := Except.ok.inj (hred.symm.trans hr)
  obtain rfl : green = x₁₆.toUInt32 := Except.ok.inj (hgreen.symm.trans hg)
  obtain rfl : blue = x₈.toUInt32 := Except.ok.inj (hblue.symm.trans hb)
  rw [packRgba, hx₂₄, ok_bind, hx₁₆, ok_bind, hx₈, ok_bind, ← hor]
  refine congrArg Except.ok ?_
  ac_rfl

theorem storeUnlessNull_spec (hp : p ≠ 0 → (m.cell p).isSome) (x : UInt8) :
    ∃ m', storeUnlessNull m p (.ok x) = .ok m' ∧ m.SameDomain m' ∧
      ∀ a, a ≠ 0 → m'.cell a = if a = p then some x else m.cell a := by
  rcases Nat.eq_zero_or_pos p with rfl | hpos
  · refine ⟨m, by rw [storeUnlessNull, if_pos rfl], fun _ ↦ rfl, ?_⟩
    intro a ha
    rw [if_neg ha]
  · have hne : p ≠ 0 := Nat.ne_of_gt hpos
    refine ⟨m.write p (some x) (hp hne), ?_, Memory.sameDomain_write (hp hne) x, ?_⟩
    · rw [storeUnlessNull, if_neg hne, ok_bind]
      exact lift_ok (Memory.store_eq (hp hne) x)
    · intro a _
      exact Function.update_apply m.cell p (some x) a

theorem channel_bytes (v : UInt32) :
    (do return (← shiftRight v 24).toUInt8 : Except Fault UInt8) = .ok (byteAt v.toNat 3) ∧
    (do return ((← shiftRight v 16) &&& 0xFF).toUInt8 : Except Fault UInt8) =
      .ok (byteAt v.toNat 2) ∧
    (do return ((← shiftRight v 8) &&& 0xFF).toUInt8 : Except Fault UInt8) =
      .ok (byteAt v.toNat 1) ∧
    (v &&& 0xFF).toUInt8 = byteAt v.toNat 0 := by
  obtain ⟨x₃, hx₃, hb₃⟩ := shiftRight_byte (v := v) (i := 3) (by decide)
  obtain ⟨x₂, hx₂, hb₂⟩ := shiftRight_byte (v := v) (i := 2) (by decide)
  obtain ⟨x₁, hx₁, hb₁⟩ := shiftRight_byte (v := v) (i := 1) (by decide)
  refine ⟨?_, ?_, ?_, ?_⟩
  · rw [show shiftRight v 24 = .ok x₃ from hx₃, ok_bind, hb₃]
    rfl
  · rw [show shiftRight v 16 = .ok x₂ from hx₂, ok_bind, mask_byte, hb₂]
    rfl
  · rw [show shiftRight v 8 = .ok x₁ from hx₁, ok_bind, mask_byte, hb₁]
    rfl
  · rw [mask_byte, byteAt, Nat.pow_zero, Nat.div_one]
    rfl

theorem unpackRgba_spec {r g b a : ℕ} (hptr : ∀ p ∈ [r, g, b, a], p ≠ 0 → (m.cell p).isSome) :
    ∃ m', unpackRgba m v r g b a = .ok m' ∧ ∀ addr, addr ≠ 0 → m'.cell addr =
      if addr = a then some (byteAt v.toNat 0)
      else if addr = b then some (byteAt v.toNat 1)
      else if addr = g then some (byteAt v.toNat 2)
      else if addr = r then some (byteAt v.toNat 3)
      else m.cell addr := by
  obtain ⟨h₃, h₂, h₁, h₀⟩ := channel_bytes v
  obtain ⟨m₁, hrun₁, hdom₁, hcell₁⟩ := storeUnlessNull_spec (hptr r (by simp)) (byteAt v.toNat 3)
  obtain ⟨m₂, hrun₂, hdom₂, hcell₂⟩ := storeUnlessNull_spec (m := m₁) (p := g)
    (fun h ↦ (hdom₁ g).trans (hptr g (by simp) h)) (byteAt v.toNat 2)
  obtain ⟨m₃, hrun₃, hdom₃, hcell₃⟩ := storeUnlessNull_spec (m := m₂) (p := b)
    (fun h ↦ ((hdom₁.trans hdom₂) b).trans (hptr b (by simp) h)) (byteAt v.toNat 1)
  obtain ⟨m₄, hrun₄, -, hcell₄⟩ := storeUnlessNull_spec (m := m₃) (p := a)
    (fun h ↦ ((hdom₁.trans (hdom₂.trans hdom₃)) a).trans (hptr a (by simp) h)) (byteAt v.toNat 0)
  refine ⟨m₄, ?_, ?_⟩
  · rw [unpackRgba, h₃, hrun₁, ok_bind, h₂, hrun₂, ok_bind, h₁, hrun₃, ok_bind, h₀]
    exact hrun₄
  · intro addr haddr
    rw [hcell₄ addr haddr, hcell₃ addr haddr, hcell₂ addr haddr, hcell₁ addr haddr]

theorem byte_codecs_agree :
    RoundTrips u32ToBytesLe u32FromBytesLe ∧ RoundTrips u32ToBytesLe Ub.loadU32Le ∧
      RoundTrips u32ToBytesBe u32FromBytesBe ∧
      (∀ (m : Memory UInt8) (v : UInt32) (p : ℕ), (∀ i < 4, (m.cell (p + i)).isSome) →
        ∃ m₁ m₂ l, u32ToBytesLe m v p = .ok m₁ ∧ u32ToBytesBe m v p = .ok m₂ ∧ l.length = 4 ∧
          m₁.Holds p l ∧ m₂.Holds p l.reverse) ∧
      (∀ (m : Memory UInt8) (p : ℕ) (r g b a : UInt8), m.Holds p [r, g, b, a] →
        ∃ v, packRgba .wrapping r g b a = .ok v ∧ u32FromBytesBe m p = .ok v) ∧
      ∀ (m mb : Memory UInt8) (rgba : UInt32) (r g b a out : ℕ),
        (∀ p ∈ [r, g, b, a], p ≠ 0 → (m.cell p).isSome) →
        (∀ i < 4, (mb.cell (out + i)).isSome) →
        ∃ m' mb', unpackRgba m rgba r g b a = .ok m' ∧ u32ToBytesBe mb rgba out = .ok mb' ∧
          ∀ addr, addr ≠ 0 → m'.cell addr =
            if addr = a then mb'.cell (out + 3)
            else if addr = b then mb'.cell (out + 2)
            else if addr = g then mb'.cell (out + 1)
            else if addr = r then mb'.cell (out + 0)
            else m.cell addr := by
  refine ⟨?_, ?_, ?_, ?_, ?_, ?_⟩
  · exact roundTrips_of encodes_le (fun _ _ _ ↦ u32FromBytesLe_spec) word_wordBytes
      (fun _ ↦ wordBytes_word)
  · exact roundTrips_of encodes_le (fun _ _ _ ↦ loadU32Le_spec) word_wordBytes
      (fun _ ↦ wordBytes_word)
  · refine roundTrips_of encodes_be (fun _ _ _ ↦ u32FromBytesBe_spec) ?_ ?_
    · intro v
      rw [List.reverse_reverse, word_wordBytes]
    · intro l hl
      rw [wordBytes_word (by rw [List.length_reverse, hl]), List.reverse_reverse]
  · intro m v p hroom
    obtain ⟨m₁, hrun₁, hholds₁, -⟩ := u32ToBytesLe_spec (v := v) hroom
    obtain ⟨m₂, hrun₂, hholds₂, -⟩ := u32ToBytesBe_spec (v := v) hroom
    exact ⟨m₁, m₂, wordBytes v, hrun₁, hrun₂, wordBytes_length v, hholds₁, hholds₂⟩
  · intro m p r g b a hholds
    exact ⟨_, packRgba_wrapping r g b a, u32FromBytesBe_spec hholds rfl⟩
  · intro m mb rgba r g b a out hptr hroom
    obtain ⟨m', hrun, hcell⟩ := unpackRgba_spec (v := rgba) hptr
    obtain ⟨mb', hbe, hholds, -⟩ := u32ToBytesBe_spec (v := rgba) hroom
    refine ⟨m', mb', hrun, hbe, ?_⟩
    rw [hholds 0 _ rfl, hholds 1 _ rfl, hholds 2 _ rfl, hholds 3 _ rfl]
    exact hcell

/-- Ten bytes. -/
def buffer : Memory UInt8 := Memory.sample [7, 7, 7, 7, 7, 7, 7, 7, 7, 7] (by decide)

theorem byte_codecs_agree_buffer :
    ∃ m', writeAll 4 u32ToBytesLe 101 [(0xDEADBEEF, 1), (0x01020304, 0)] buffer = .ok m' ∧
      u32FromBytesLe m' 101 = .ok 0x01020304 ∧ Ub.loadU32Le m' 105 = .ok 0xDEADBEEF ∧
      m'.cell 100 = some 7 := by
  obtain ⟨hle, hload, -⟩ := byte_codecs_agree
  have hperm : List.Perm [((0xDEADBEEF : UInt32), 1), (0x01020304, 0)]
      (List.zipIdx [0x01020304, 0xDEADBEEF]) := List.Perm.swap _ _ _
  have hroom : ∀ i < 4 * 2, (buffer.cell (101 + i)).isSome := by decide
  obtain ⟨m', hrun, hread, hout⟩ := hle.readBack buffer 101 _ _ hperm hroom
  obtain ⟨m'', hrun', hread', -⟩ := hload.readBack buffer 101 _ _ hperm hroom
  cases hrun.symm.trans hrun'
  refine ⟨m', hrun, hread 0 _ rfl, hread' 1 _ rfl, ?_⟩
  rw [hout 100 (by decide)]
  rfl

end LowLevel.ProperC.Structs
