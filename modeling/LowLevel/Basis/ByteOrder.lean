import Mathlib.Data.Nat.Digits.Defs

namespace LowLevel.Basis.ByteOrder

/-- The number whose bytes are `l`, the lowest first. -/
def value (l : List UInt8) : ℕ := Nat.ofDigits 256 (l.map UInt8.toNat)

def byteAt (x i : ℕ) : UInt8 := UInt8.ofNat (x / 256 ^ i)

/-- The `w` lowest bytes of `x`, the lowest first. -/
def bytes (w x : ℕ) : List UInt8 := (List.range w).map (byteAt x)

variable {l l' : List UInt8} {b : UInt8} {w x : ℕ}

@[simp] theorem bytes_length : (bytes w x).length = w := by simp [bytes]

theorem bytes_succ : bytes (w + 1) x = bytes w x ++ [byteAt x w] := by
  rw [bytes, List.range_succ, List.map_append]
  rfl

theorem bytes_getElem? {i : ℕ} (hi : i < w) : (bytes w x)[i]? = some (byteAt x i) := by
  rw [bytes, List.getElem?_map, List.getElem?_range hi]
  rfl

theorem value_cons : value (b :: l) = b.toNat + 256 * value l := Nat.ofDigits_cons

theorem value_concat : value (l ++ [b]) = value l + 256 ^ l.length * b.toNat := by
  rw [value, List.map_append, Nat.ofDigits_append, List.length_map]
  rfl

theorem digit_lt (l : List UInt8) : ∀ d ∈ l.map UInt8.toNat, d < 256 := by
  intro d hd
  obtain ⟨b, -, rfl⟩ := List.mem_map.mp hd
  exact b.toNat_lt

theorem value_lt (l : List UInt8) : value l < 256 ^ l.length := by
  have h := Nat.ofDigits_lt_base_pow_length (by decide) (digit_lt l)
  rwa [List.length_map] at h

theorem value_inj (hlen : l.length = l'.length) (h : value l = value l') : l = l' := by
  have heq := Nat.ofDigits_inj_of_len_eq (by decide) (by simpa using hlen) (digit_lt l)
    (digit_lt l') h
  exact (List.map_inj_right (fun _ _ ↦ UInt8.toNat_inj.mp)).mp heq

theorem value_bytes (w x : ℕ) : value (bytes w x) = x % 256 ^ w := by
  induction w with
  | zero => simp [bytes, value, Nat.mod_one]
  | succ w ih =>
    have hdigit : (byteAt x w).toNat = x / 256 ^ w % 256 := UInt8.toNat_ofNat'
    rw [bytes_succ, value_concat, ih, bytes_length, hdigit, Nat.mod_pow_succ]

theorem bytes_value (l : List UInt8) : bytes l.length (value l) = l := by
  apply value_inj bytes_length
  rw [value_bytes, Nat.mod_eq_of_lt (value_lt l)]

theorem two_pow_mul (i : ℕ) : 2 ^ (8 * i) = 256 ^ i := by
  rw [Nat.pow_mul]

/-- A further byte set above the ones there. -/
theorem value_or_high : value l ||| b.toNat * 256 ^ l.length = value (l ++ [b]) := by
  have hlt := value_lt l
  rw [← two_pow_mul] at hlt ⊢
  rw [value_concat, Nat.or_comm, Nat.mul_comm, ← Nat.two_pow_add_eq_or_of_lt hlt, two_pow_mul,
    Nat.add_comm]

/-- The bytes there moved up by one, and a byte set below. -/
theorem value_or_low : value l * 2 ^ 8 ||| b.toNat = value (b :: l) := by
  have h := Nat.two_pow_add_eq_or_of_lt (i := 8) b.toNat_lt (value l)
  rw [value_cons, Nat.add_comm, Nat.mul_comm (value l)]
  exact h.symm

def word (l : List UInt8) : UInt32 := UInt32.ofNat (value l)

def wordBytes (v : UInt32) : List UInt8 := bytes 4 v.toNat

@[simp] theorem wordBytes_length (v : UInt32) : (wordBytes v).length = 4 := bytes_length

theorem value_lt_word (h : l.length ≤ 4) : value l < 2 ^ 32 :=
  Nat.lt_of_lt_of_le (value_lt l) (Nat.pow_le_pow_right (by decide) h)

theorem toNat_word (h : l.length ≤ 4) : (word l).toNat = value l :=
  UInt32.toNat_ofNat_of_lt' (value_lt_word h)

theorem word_wordBytes (v : UInt32) : word (wordBytes v) = v := by
  have hlt : v.toNat < 256 ^ 4 := v.toNat_lt
  rw [word, wordBytes, value_bytes, Nat.mod_eq_of_lt hlt, UInt32.ofNat_toNat]

theorem wordBytes_word (h : l.length = 4) : wordBytes (word l) = l := by
  rw [wordBytes, toNat_word (Nat.le_of_eq h), ← h, bytes_value]

end LowLevel.Basis.ByteOrder
