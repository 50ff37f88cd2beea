import LowLevel.Basis.AddressSpace
import LowLevel.Basis.Loop

namespace LowLevel.ProperC.Safety

open Basis.AddressSpace Basis.Loop

/-- `strlen`, from offset `n` on: it reads until it meets the NUL byte. -/
def strlenFrom (m : Memory UInt8) (p n : ℕ) : Except Stop ℕ :=
  match h : m.cell (p + n) with
  | none => .error (.load (p + n))
  | some c => if c = 0 then .ok n else strlenFrom m p (n + 1)
termination_by 2 ^ 64 - (p + n)
decreasing_by
  have hlt := Memory.lt_top h
  omega

def safeStrcpy (m : Memory UInt8) (dst dstsize src : ℕ) : Except Stop (ℕ × Memory UInt8) := do
  let srcSize ← strlenFrom m src 0
  if dstsize = 0 then
    return (srcSize, m)
  let m ← forRange (fun i m ↦
    if i < srcSize then do
      let c ← m.load (src + i)
      m.store (dst + i) c
    else m.store (dst + i) 0) 0 (sizeSub dstsize 1) m
  let m ← m.store (dst + sizeSub dstsize 1) 0
  return (srcSize, m)

def safeStrcat (m : Memory UInt8) (dst dstsize src : ℕ) : Except Stop (ℕ × Memory UInt8) := do
  let srcLen ← strlenFrom m src 0
  let dstLen ← strlenFrom m dst 0
  let m ← forRange (fun i m ↦
    if sizeSub i dstLen < srcLen then do
      let c ← m.load (src + sizeSub i dstLen)
      m.store (dst + i) c
    else m.store (dst + i) 0) dstLen (sizeSub dstsize 1) m
  let m ← m.store (dst + sizeSub dstsize 1) 0
  let actual := sizeAdd srcLen dstLen
  return (if actual < dstsize then actual else dstsize, m)

def copyNSafe (m : Memory UInt8) (dst dstcap src n : ℕ) : Except Stop (Bool × Memory UInt8) := do
  if n > dstcap then
    return (false, m)
  let m ← forRange (fun i m ↦ do
    let c ← m.load (src + i)
    m.store (dst + i) c) 0 n m
  return (true, m)

structure CStr (m : Memory UInt8) (p : ℕ) (s : List UInt8) : Prop where
  noNul : 0 ∉ s
  holds : m.Holds p (s ++ [0])

variable {m m' : Memory UInt8} {p : ℕ} {s : List UInt8}

theorem CStr.byte (h : CStr m p s) {i : ℕ} (hi : i < s.length) : m.cell (p + i) = some s[i] :=
  h.holds i s[i] (by simp [List.getElem?_append_left hi])

theorem CStr.isSome (h : CStr m p s) (i : ℕ) (hi : i < s.length) : (m.cell (p + i)).isSome := by
  rw [h.byte hi]
  rfl

theorem CStr.terminator (h : CStr m p s) : m.cell (p + s.length) = some 0 :=
  h.holds s.length 0 (by simp)

theorem CStr.lt_top (h : CStr m p s) : p + s.length < 2 ^ 64 := Memory.lt_top h.terminator

theorem CStr.pos (h : CStr m p s) : 0 < p := by
  have hp : p ≠ 0 := by
    cases s with
    | nil => exact Memory.ne_null h.terminator
    | cons c s => exact Memory.ne_null (h.byte (i := 0) (by simp))
  omega

theorem strlenFrom_eq (h : CStr m p s) (n : ℕ) (hn : n ≤ s.length) :
    strlenFrom m p n = .ok s.length := by
  obtain ⟨k, hk⟩ := Nat.exists_eq_add_of_le hn
  induction k generalizing n with
  | zero =>
    have hend : m.cell (p + n) = some 0 := by
      rw [show n = s.length by omega]
      exact h.terminator
    rw [strlenFrom]
    split
    · simp_all
    · simp_all
  | succ k ih =>
    have hlt : n < s.length := by omega
    have hbyte := h.byte hlt
    have hne : s[n] ≠ 0 := fun h0 ↦ h.noNul (h0 ▸ List.getElem_mem hlt)
    rw [strlenFrom]
    split
    · simp_all
    · rename_i c hc
      rw [hbyte] at hc
      cases hc
      rw [if_neg hne]
      exact ih (n + 1) (by omega) (by omega)

theorem strlen_eq (h : CStr m p s) : strlenFrom m p 0 = .ok s.length :=
  strlenFrom_eq h 0 (Nat.zero_le _)

end LowLevel.ProperC.Safety
