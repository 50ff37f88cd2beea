import LowLevel.Basis.ByteOrder
import LowLevel.Basis.CArith
import LowLevel.Basis.Loop

namespace LowLevel.ProperC.Structs

open Basis.AddressSpace Basis.ByteOrder Basis.CArith Basis.Loop

def u32ToBytesLe (m : Memory UInt8) (v : UInt32) (out : ℕ) : Except Fault (Memory UInt8) :=
  forRange (fun i m ↦ do
    let byte ← shiftRight v (8 * i)
    m.store (out + i) (byte &&& 0xFF).toUInt8) 0 4 m

def u32FromBytesLe (m : Memory UInt8) (src : ℕ) : Except Fault UInt32 :=
  forRange (fun i new ↦ do
    let byte ← shiftLeft (← m.load (src + i)).toUInt32 (8 * i)
    return new ||| byte) 0 4 0

def u32ToBytesBe (m : Memory UInt8) (v : UInt32) (out : ℕ) : Except Fault (Memory UInt8) :=
  forRange (fun i m ↦ do
    let byte ← shiftRight v (8 * i)
    m.store (out + (3 - i)) (byte &&& 0xFF).toUInt8) 0 4 m

def u32FromBytesBe (m : Memory UInt8) (src : ℕ) : Except Fault UInt32 := do
  let first ← m.load (src + 0)
  forRange (fun i new ↦ do
    let new ← shiftLeft new 8
    return new ||| (← m.load (src + i)).toUInt32) 1 4 first.toUInt32

/-- The promotion of a `uint8_t` operand. -/
def promote (x : UInt8) : Int32 := Int32.ofNat x.toNat

def packRgba (mode : Mode) (r g b a : UInt8) : Except Fault UInt32 := do
  let red ← shiftInt mode (promote r) 24
  let green ← shiftInt mode (promote g) 16
  let blue ← shiftInt mode (promote b) 8
  return red.toUInt32 ||| green.toUInt32 ||| blue.toUInt32 ||| a.toUInt32

/-- `if (p) *p = byte;` -/
def storeUnlessNull (m : Memory UInt8) (p : ℕ) (byte : Except Fault UInt8) :
    Except Fault (Memory UInt8) :=
  if p = 0 then .ok m else do
    m.store p (← byte)

def unpackRgba (m : Memory UInt8) (rgba : UInt32) (r g b a : ℕ) : Except Fault (Memory UInt8) := do
  let m ← storeUnlessNull m r (do return (← shiftRight rgba 24).toUInt8)
  let m ← storeUnlessNull m g (do return ((← shiftRight rgba 16) &&& 0xFF).toUInt8)
  let m ← storeUnlessNull m b (do return ((← shiftRight rgba 8) &&& 0xFF).toUInt8)
  storeUnlessNull m a (return (rgba &&& 0xFF).toUInt8)

variable {m : Memory UInt8} {v : UInt32} {p i : ℕ} {l : List UInt8} {b : UInt8}

theorem promote_toInt (x : UInt8) : (promote x).toInt = x.toNat := by
  have hlt := x.toNat_lt
  exact Int32.toInt_ofNat_of_lt (by omega)

theorem shiftRight_byte (hi : i < 4) :
    ∃ x, shiftRight v (8 * i) = .ok x ∧ x.toUInt8 = byteAt v.toNat i := by
  have hlt : v.toNat / 2 ^ (8 * i) < 2 ^ 32 := Nat.lt_of_le_of_lt (Nat.div_le_self _ _) v.toNat_lt
  refine ⟨_, shiftRight_of_lt (by omega), ?_⟩
  apply UInt8.toNat_inj.mp
  rw [UInt32.toNat_toUInt8, UInt32.toNat_ofNat_of_lt' hlt, two_pow_mul, byteAt, UInt8.toNat_ofNat']

theorem mask_byte (x : UInt32) : (x &&& 0xFF).toUInt8 = x.toUInt8 := by
  apply UInt8.toNat_inj.mp
  have hmask : x.toNat &&& 0xFF = x.toNat % 2 ^ 8 := Nat.and_two_pow_sub_one_eq_mod x.toNat 8
  rw [UInt32.toNat_toUInt8, UInt32.toNat_toUInt8, UInt32.toNat_and]
  rw [show (0xFF : UInt32).toNat = 0xFF from rfl, hmask, Nat.mod_mod]

/-- The pass of both encoders, `pos` being where byte `i` goes. -/
def storeByte (v : UInt32) (p : ℕ) (pos : ℕ → ℕ) (i : ℕ) (m : Memory UInt8) :
    Except Fault (Memory UInt8) := do
  let byte ← shiftRight v (8 * i)
  m.store (p + pos i) (byte &&& 0xFF).toUInt8

theorem storeByte_ok {pos : ℕ → ℕ} (hi : i < 4) (ha : (m.cell (p + pos i)).isSome) :
    storeByte v p pos i m = .ok (m.write (p + pos i) (some (byteAt v.toNat i)) ha) := by
  obtain ⟨x, hx, hbyte⟩ := shiftRight_byte (v := v) hi
  rw [storeByte, hx, ok_bind, mask_byte, hbyte]
  exact lift_ok (Memory.store_eq ha _)

theorem storeBytes_spec {pos : ℕ → ℕ} (hpos : ∀ i < 4, pos i < 4)
    (hinj : ∀ i < 4, ∀ j < 4, pos i = pos j → i = j)
    (hroom : ∀ i < 4, (m.cell (p + i)).isSome) :
    ∃ m', forRange (storeByte v p pos) 0 4 m = .ok m' ∧
      (∀ i < 4, m'.cell (p + pos i) = some (byteAt v.toNat i)) ∧ m.SameDomain m' ∧
      Memory.Outside p (p + 4) m m' := by
  refine forRange_ok (fun i m' ↦ (∀ j < i, m'.cell (p + pos j) = some (byteAt v.toNat j)) ∧
    m.SameDomain m' ∧ Memory.Outside p (p + 4) m m') (by decide)
    ⟨fun j hj ↦ absurd hj (Nat.not_lt_zero j), fun _ ↦ rfl, fun _ _ ↦ rfl⟩ ?_
  intro i _ hi m₁ h
  obtain ⟨hbytes, hdom, hout⟩ := h
  have hlt := hpos i hi
  have ha : (m₁.cell (p + pos i)).isSome := (hdom _).trans (hroom _ hlt)
  refine ⟨_, storeByte_ok hi ha, ?_, ?_, ?_⟩
  · intro j hj
    rw [Memory.write_cell]
    rcases Nat.lt_succ_iff_lt_or_eq.mp hj with hj' | rfl
    · have hne : pos j ≠ pos i := fun heq ↦ Nat.ne_of_lt hj' (hinj j (by omega) i hi heq)
      rw [Function.update_of_ne (by omega), hbytes j hj']
    · rw [Function.update_self]
  · exact hdom.trans (Memory.sameDomain_write ha _)
  · exact hout.trans (Memory.outside_write ha _ (by omega) (by omega))

theorem u32ToBytesLe_spec (hroom : ∀ i < 4, (m.cell (p + i)).isSome) :
    ∃ m', u32ToBytesLe m v p = .ok m' ∧ m'.Holds p (wordBytes v) ∧
      Memory.Outside p (p + 4) m m' := by
  have hpos : ∀ i < 4, id i < 4 := fun _ hi ↦ hi
  obtain ⟨m', hrun, hbytes, -, hout⟩ := storeBytes_spec (v := v) hpos (fun _ _ _ _ h ↦ h) hroom
  refine ⟨m', hrun, ?_, hout⟩
  intro i b hb
  obtain ⟨hi, -⟩ := List.getElem?_eq_some_iff.mp hb
  rw [wordBytes_length] at hi
  rw [wordBytes, bytes_getElem? hi] at hb
  rw [← hb]
  exact hbytes i hi

theorem u32ToBytesBe_spec (hroom : ∀ i < 4, (m.cell (p + i)).isSome) :
    ∃ m', u32ToBytesBe m v p = .ok m' ∧ m'.Holds p (wordBytes v).reverse ∧
      Memory.Outside p (p + 4) m m' := by
  have hpos : ∀ i < 4, (fun i ↦ 3 - i) i < 4 := fun i _ ↦ show 3 - i < 4 by omega
  obtain ⟨m', hrun, hbytes, -, hout⟩ := storeBytes_spec (v := v) hpos (by omega) hroom
  refine ⟨m', hrun, ?_, hout⟩
  intro i b hb
  obtain ⟨hi, -⟩ := List.getElem?_eq_some_iff.mp hb
  rw [List.length_reverse, wordBytes_length] at hi
  rw [List.getElem?_reverse (by simpa using hi), wordBytes_length, wordBytes,
    bytes_getElem? (by omega)] at hb
  rw [← hb, ← hbytes (3 - i) (by omega)]
  congr 2
  omega

/-- A byte shifted to its place and set there. -/
theorem shiftLeft_high (h : l.length < 4) :
    ∃ x, shiftLeft b.toUInt32 (8 * l.length) = .ok x ∧ word l ||| x = word (l ++ [b]) := by
  have hlen : (l ++ [b]).length ≤ 4 := by
    rw [List.length_append]
    exact h
  have hlt : b.toNat * 256 ^ l.length < 2 ^ 32 :=
    Nat.lt_of_le_of_lt (by rw [← value_or_high]; exact Nat.right_le_or) (value_lt_word hlen)
  refine ⟨_, shiftLeft_of_lt (by omega), ?_⟩
  apply UInt32.toNat_inj.mp
  rw [UInt32.toNat_or, toNat_word (Nat.le_of_lt h), toNat_word hlen, UInt8.toNat_toUInt32,
    two_pow_mul, UInt32.toNat_ofNat_of_lt' hlt, value_or_high]

/-- A word shifted up by a byte, and one set below. -/
theorem shiftLeft_low (h : l.length < 4) :
    ∃ x, shiftLeft (word l) 8 = .ok x ∧ x ||| b.toUInt32 = word (b :: l) := by
  have hlt : value l * 2 ^ 8 < 2 ^ 32 :=
    Nat.lt_of_le_of_lt (by rw [← value_or_low (b := 0)]; exact Nat.left_le_or)
      (value_lt_word (l := 0 :: l) h)
  refine ⟨_, shiftLeft_of_lt (by decide), ?_⟩
  apply UInt32.toNat_inj.mp
  rw [UInt32.toNat_or, toNat_word (Nat.le_of_lt h), toNat_word (l := b :: l) h,
    UInt8.toNat_toUInt32, UInt32.toNat_ofNat_of_lt' hlt, value_or_low]

theorem word_nil : word [] = 0 := rfl

theorem word_singleton : word [b] = b.toUInt32 := by
  obtain ⟨x, hx, hor⟩ := shiftLeft_low (l := []) (b := b) (by decide)
  obtain rfl : (0 : UInt32) = x := Except.ok.inj hx
  rw [← hor, UInt32.zero_or]

theorem load_getElem (h : m.Holds p l) (hi : i < l.length) : m.load (p + i) = .ok l[i] :=
  Memory.load_eq (h i l[i] (List.getElem?_eq_getElem hi))

theorem take_succ_word (hi : i < l.length) (hlt : i < 4) :
    ∃ x, shiftLeft l[i].toUInt32 (8 * i) = .ok x ∧
      word (l.take i) ||| x = word (l.take (i + 1)) := by
  have hlen : (l.take i).length = i := List.length_take_of_le (Nat.le_of_lt hi)
  obtain ⟨x, hx, hor⟩ := shiftLeft_high (l := l.take i) (b := l[i]) (by omega)
  rw [hlen] at hx
  rw [List.take_succ_eq_append_getElem hi]
  exact ⟨x, hx, hor⟩

theorem take_succ_word_reverse (hi : i < l.length) (hlt : i < 4) :
    ∃ x, shiftLeft (word (l.take i).reverse) 8 = .ok x ∧
      x ||| l[i].toUInt32 = word (l.take (i + 1)).reverse := by
  have hlen : (l.take i).reverse.length = i := by
    rw [List.length_reverse, List.length_take_of_le (Nat.le_of_lt hi)]
  rw [List.take_succ_eq_append_getElem hi, List.reverse_concat]
  exact shiftLeft_low (by omega)

theorem u32FromBytesLe_spec (h : m.Holds p l) (hl : l.length = 4) :
    u32FromBytesLe m p = .ok (word l) := by
  have hrun : ∃ new, u32FromBytesLe m p = .ok new ∧ new = word (l.take 4) := by
    refine forRange_ok (fun i new ↦ new = word (l.take i)) (by decide) word_nil.symm ?_
    intro i _ hi new hnew
    have hi' : i < l.length := by omega
    obtain ⟨x, hx, hor⟩ := take_succ_word hi' hi
    refine ⟨word (l.take (i + 1)), ?_, rfl⟩
    rw [lift_ok (load_getElem h hi'), ok_bind, hx, ok_bind, hnew, hor]
    rfl
  obtain ⟨new, hok, hnew⟩ := hrun
  rw [hok, hnew, List.take_of_length_le (Nat.le_of_eq hl)]

theorem u32FromBytesBe_spec (h : m.Holds p l) (hl : l.length = 4) :
    u32FromBytesBe m p = .ok (word l.reverse) := by
  have hfirst : l[0].toUInt32 = word (l.take 1).reverse := by
    rw [List.take_succ_eq_append_getElem (by omega)]
    exact word_singleton.symm
  have hrun : ∃ new, u32FromBytesBe m p = .ok new ∧ new = word (l.take 4).reverse := by
    rw [u32FromBytesBe, lift_ok (load_getElem h (i := 0) (by omega)), ok_bind]
    refine forRange_ok (fun i new ↦ new = word (l.take i).reverse) (by decide) hfirst ?_
    intro i _ hi new hnew
    have hi' : i < l.length := by omega
    obtain ⟨x, hx, hor⟩ := take_succ_word_reverse hi' hi
    refine ⟨word (l.take (i + 1)).reverse, ?_, rfl⟩
    rw [hnew, hx, ok_bind, lift_ok (load_getElem h hi'), ok_bind, hor]
    rfl
  obtain ⟨new, hok, hnew⟩ := hrun
  rw [hok, hnew, List.take_of_length_le (Nat.le_of_eq hl)]

end LowLevel.ProperC.Structs
