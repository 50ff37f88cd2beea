import LowLevel.Basis.PyStr
import Mathlib.Data.List.TakeWhile
import Mathlib.Data.Int.Notation

namespace LowLevel.Basis.PyInt

open PyStr

/-- The white space of `str.isspace` and of `\s`. -/
def spaces : List ℕ :=
  [0x9, 0xa, 0xb, 0xc, 0xd, 0x1c, 0x1d, 0x1e, 0x1f, 0x20, 0x85, 0xa0, 0x1680, 0x2000, 0x2001,
    0x2002, 0x2003, 0x2004, 0x2005, 0x2006, 0x2007, 0x2008, 0x2009, 0x200a, 0x2028, 0x2029,
    0x202f, 0x205f, 0x3000]

def isSpace (c : CodePoint) : Bool := spaces.contains c.val

/-- `int` does not skip the four separators from 0x1c on. -/
def intSpace (c : CodePoint) : Bool := isSpace c && !(0x1c ≤ c.val && c.val ≤ 0x1f)

/-- The zeros of the decimal digits of Unicode 14. The other nine follow each. -/
def zeros : List ℕ :=
  [48, 1632, 1776, 1984, 2406, 2534, 2662, 2790, 2918, 3046, 3174, 3302, 3430, 3558, 3664, 3792,
    3872, 4160, 4240, 6112, 6160, 6470, 6608, 6784, 6800, 6992, 7088, 7232, 7248, 42528, 43216,
    43264, 43472, 43504, 43600, 44016, 65296, 66720, 68912, 69734, 69872, 69942, 70096, 70384,
    70736, 70864, 71248, 71360, 71472, 71904, 72016, 72784, 73040, 73120, 92768, 92864, 93008,
    120782, 120792, 120802, 120812, 120822, 123200, 123632, 125264, 130032]

def decimalValue (n : ℕ) : Option ℕ :=
  (zeros.find? (fun z ↦ z ≤ n && n < z + 10)).map (n - ·)

def decimal (c : CodePoint) : Option ℕ := decimalValue c.val

def isDecimal (c : CodePoint) : Bool := (decimal c).isSome

def grouped : Str → Bool
  | [] => false
  | [c] => isDecimal c
  | c :: d :: s => isDecimal c && if d = ord '_' then grouped s else grouped (d :: s)

def digitsValue (s : Str) : ℕ := (s.filterMap decimal).foldl (fun n d ↦ 10 * n + d) 0

/-- The default of `sys.get_int_max_str_digits()`. -/
def maxStrDigits : ℕ := 4300

def signOf : Str → ℤ × Str
  | [] => (1, [])
  | c :: s => if c = ord '+' then (1, s) else if c = ord '-' then (-1, s) else (1, c :: s)

def inRun (c : CodePoint) : Bool := isDecimal c || c == ord '_'

/-- `int(s)`, with `none` for `ValueError`. -/
def intOf (s : Str) : Option ℤ :=
  let (sign, s) := signOf (s.dropWhile intSpace)
  let run := s.takeWhile inRun
  let rest := s.dropWhile inRun
  if grouped run ∧ (run.filterMap decimal).length ≤ maxStrDigits ∧ rest.all intSpace then
    some (sign * digitsValue run)
  else none

variable {c : CodePoint} {s w : Str}

theorem isDecimal_of_isSpace (h : isSpace c) : isDecimal c = false := by
  have hall : ∀ n ∈ spaces, (decimalValue n).isSome = false := by decide
  exact hall c.val (by simpa [isSpace] using h)

theorem isDecimal_of_ascii (h : 48 ≤ c.val ∧ c.val ≤ 57) : isDecimal c := by
  have hlt : c.val < 48 + 10 := by omega
  simp [isDecimal, decimal, decimalValue, zeros, h.1, hlt]

theorem not_intSpace_of_isDecimal (h : isDecimal c) : intSpace c = false := by
  cases hs : isSpace c with
  | false => simp [intSpace, hs]
  | true => rw [isDecimal_of_isSpace hs] at h; cases h

theorem not_inRun_of_intSpace (h : intSpace c) : inRun c = false := by
  have hs : isSpace c := by
    rw [intSpace, Bool.and_eq_true] at h
    exact h.1
  have hne : c ≠ ord '_' := by
    intro heq
    subst heq
    cases hs
  rw [inRun, isDecimal_of_isSpace hs, Bool.false_or, beq_eq_false_iff_ne]
  exact hne

theorem inRun_blank (hw : ∀ c ∈ w, intSpace c) :
    w.takeWhile inRun = [] ∧ w.dropWhile inRun = w := by
  cases w with
  | nil => exact ⟨rfl, rfl⟩
  | cons d w =>
    have hd := not_inRun_of_intSpace (hw d List.mem_cons_self)
    simp [hd]

/-- White space behind the number does not matter to `int`. -/
theorem intOf_pad (hw : ∀ c ∈ w, intSpace c) (s : Str) : intOf (s ++ w) = intOf s := by
  have hblank : w.all intSpace := List.all_eq_true.mpr hw
  obtain ⟨htake, hdrop⟩ := inRun_blank hw
  cases hfront : s.dropWhile intSpace with
  | nil =>
    have hall : (s ++ w).dropWhile intSpace = [] := by
      rw [List.dropWhile_append, hfront, List.isEmpty_nil, if_pos rfl]
      exact List.dropWhile_eq_nil_iff.mpr hw
    rw [intOf, intOf, hall, hfront]
  | cons c t =>
    have hstrip : (s ++ w).dropWhile intSpace = c :: t ++ w := by
      rw [List.dropWhile_append, hfront, List.isEmpty_cons, if_neg Bool.false_ne_true]
    have hsign : signOf (c :: t ++ w) = ((signOf (c :: t)).1, (signOf (c :: t)).2 ++ w) := by
      rw [List.cons_append, signOf, signOf]
      split_ifs <;> rfl
    have hrun : ∀ u : Str, (u ++ w).takeWhile inRun = u.takeWhile inRun := by
      intro u
      rw [List.takeWhile_append, htake, List.append_nil]
      split_ifs with hlen
      · exact (List.takeWhile_sublist inRun).eq_of_length hlen |>.symm
      · rfl
    have hrest : ∀ u : Str, (u ++ w).dropWhile inRun = u.dropWhile inRun ++ w := by
      intro u
      rw [List.dropWhile_append, hdrop]
      split_ifs with hnil
      · rw [List.isEmpty_iff.mp hnil, List.nil_append]
      · rfl
    rw [intOf, intOf, hstrip, hfront, hsign]
    simp only [hrun, hrest, List.all_append, hblank, Bool.and_true]

theorem ne_of_isDecimal (h : isDecimal c) {d : CodePoint} (hd : isDecimal d = false) : c ≠ d := by
  intro heq
  subst heq
  rw [hd] at h
  cases h

theorem grouped_digits (hne : s ≠ []) (h : ∀ c ∈ s, isDecimal c) : grouped s := by
  induction s with
  | nil => exact absurd rfl hne
  | cons c s ih =>
    cases s with
    | nil => exact h c List.mem_cons_self
    | cons d s =>
      have hd : d ≠ ord '_' := ne_of_isDecimal (h d (by simp)) (by decide)
      rw [grouped, if_neg hd, h c List.mem_cons_self, Bool.true_and]
      exact ih (by simp) (fun e he ↦ h e (List.mem_cons_of_mem _ he))

theorem length_digits (h : ∀ c ∈ s, isDecimal c) : (s.filterMap decimal).length = s.length := by
  induction s with
  | nil => rfl
  | cons c s ih =>
    obtain ⟨d, hd⟩ := Option.isSome_iff_exists.mp (h c List.mem_cons_self)
    rw [List.filterMap_cons_some hd, List.length_cons, List.length_cons,
      ih (fun e he ↦ h e (List.mem_cons_of_mem _ he))]

theorem intOf_digits (hne : s ≠ []) (hs : ∀ c ∈ s, isDecimal c) (hw : ∀ c ∈ w, intSpace c) :
    intOf (s ++ w) = if s.length ≤ maxStrDigits then some (digitsValue s : ℤ) else none := by
  obtain ⟨c, t, rfl⟩ := List.exists_cons_of_ne_nil hne
  have hc := hs c List.mem_cons_self
  have hskip : ((c :: t) ++ w).dropWhile intSpace = (c :: t) ++ w := by
    rw [List.cons_append, List.dropWhile_cons, not_intSpace_of_isDecimal hc]
    rfl
  have hsign : signOf ((c :: t) ++ w) = (1, (c :: t) ++ w) := by
    have hplus : c ≠ ord '+' := ne_of_isDecimal hc (by decide)
    have hminus : c ≠ ord '-' := ne_of_isDecimal hc (by decide)
    rw [List.cons_append, signOf, if_neg hplus, if_neg hminus]
  have hrun : ∀ d ∈ c :: t, inRun d := fun d hd ↦ by simp [inRun, hs d hd]
  have hrest := inRun_blank hw
  have hblank : w.all intSpace := List.all_eq_true.mpr hw
  rw [intOf, hskip, hsign]
  simp only [List.takeWhile_append_of_pos hrun, List.dropWhile_append_of_pos hrun, hrest,
    List.append_nil, grouped_digits hne hs, length_digits hs, Int.one_mul, hblank, and_true,
    true_and]

theorem intOf_digits_value {v : ℤ} (hne : s ≠ []) (hs : ∀ c ∈ s, isDecimal c)
    (hw : ∀ c ∈ w, intSpace c) (h : intOf (s ++ w) = some v) : v = digitsValue s := by
  rw [intOf_digits hne hs hw] at h
  split at h
  · exact (Option.some.inj h).symm
  · cases h

end LowLevel.Basis.PyInt
