import LowLevel.Basis.StaticArray
import LowLevel.ProperC.CtestVerdict

namespace LowLevel.ProperC.CtestWatchdog

open Basis.AddressSpace Basis.CArith Basis.Loop Basis.StaticArray Ctest

def byte (c : Char) : UInt8 := UInt8.ofNat c.toNat

/-- The bytes of a string literal, without the final zero. -/
def bytes (s : String) : List UInt8 := s.toList.map byte

/-- `ctest__wstr`: what is written, `text` giving the string at a pointer. -/
def wstr (text : ℕ → List UInt8) (s : ℕ) : List UInt8 := if s ≠ 0 then text s else []

/-- The locals of `ctest__wint`. -/
structure Digits where
  buf : List UInt8
  i : ℕ
  u : UInt32

def Digits.pass (s : Digits) : Except Stop Digits := do
  let i := s.i - 1
  let buf ← assign s.buf i (48 + s.u % 10).toUInt8
  return ⟨buf, i, s.u / 10⟩

/-- The negation is done in `long`, where it cannot overflow. -/
def magnitude (v : Int32) : UInt32 :=
  if v < 0 then (-v.toInt64).toUInt64.toUInt32 else v.toUInt32

/-- `ctest__wint`: the bytes it writes, whatever was in its buffer. -/
def wint (buf : Fin 24 → UInt8) (v : Int32) : Except Stop (List UInt8) := do
  let sign := if v < 0 then bytes "-" else []
  if magnitude v = 0 then
    return sign ++ bytes "0"
  let s ← whileFuel .timeout (fun s ↦ decide (s.u ≠ 0) && decide (s.i > 0)) Digits.pass 24
    ⟨List.ofFn buf, 24, magnitude v⟩
  return sign ++ s.buf.drop s.i

def timeoutStatus : ℕ := 124

/-- `ctest_on_timeout`: the bytes on standard error, and the exit status. -/
def onTimeout (buf : Fin 24 → UInt8) (text : ℕ → List UInt8) (secs : Int32) (s : Harness) :
    Except Fault (List UInt8 × ℕ) := do
  let budget ← wint buf secs
  let reached ← Harness.increment s.sectionIdx
  let number ← wint buf reached
  return (bytes "\n*** TIMEOUT after " ++ budget ++ bytes "s in section: " ++ wstr text s.name ++
    bytes " (reached check #" ++ number ++
    bytes ")\n    Likely an infinite loop or a stuck call in this function.\n", timeoutStatus)

section decimal

/-- The decimal digits of a number, none for zero. -/
def digits (n : ℕ) : List UInt8 := if n = 0 then [] else (Nat.toDigits 10 n).map byte

theorem digits_length (n : ℕ) (h : n < 2 ^ 32) : (digits n).length ≤ 10 := by
  unfold digits
  split_ifs
  · simp
  · rw [List.length_map, Nat.length_toDigits_le_iff (by decide) (by decide)]
    omega

theorem digits_length_eq_zero (n : ℕ) : (digits n).length = 0 ↔ n = 0 := by
  unfold digits
  split_ifs with h
  · simp [h]
  · rw [List.length_map]
    have hpos : 0 < (Nat.toDigits 10 n).length := Nat.length_toDigits_pos
    omega

theorem digits_step {n : ℕ} (h : n ≠ 0) :
    digits n = digits (n / 10) ++ [byte (Nat.digitChar (n % 10))] := by
  rcases Nat.lt_or_ge n 10 with hlt | hle
  · have hzero : n / 10 = 0 := Nat.div_eq_of_lt hlt
    rw [digits, digits, if_neg h, if_pos hzero, Nat.toDigits_of_lt_base hlt,
      Nat.mod_eq_of_lt hlt]
    rfl
  · have hpos : n / 10 ≠ 0 := by omega
    rw [digits, digits, if_neg h, if_neg hpos, Nat.toDigits_of_base_le (by decide) hle,
      List.map_append, List.map_singleton]

theorem byte_digitChar {d : ℕ} (h : d < 10) : (byte (Nat.digitChar d)).toNat = 48 + d := by
  have hall : ∀ d : Fin 10, (byte (Nat.digitChar d)).toNat = 48 + d := by decide
  exact hall ⟨d, h⟩

theorem digit_byte (u : UInt32) : (48 + u % 10).toUInt8 = byte (Nat.digitChar (u.toNat % 10)) := by
  have hlt : u.toNat % 10 < 10 := Nat.mod_lt _ (by decide)
  apply UInt8.toNat_inj.mp
  rw [byte_digitChar hlt]
  simp
  omega

/-- The digits already in the buffer are those that `u` no longer has. -/
structure Written (n : ℕ) (s : Digits) : Prop where
  length : s.buf.length = 24
  index : s.i ≤ 24
  split : digits s.u.toNat ++ s.buf.drop s.i = digits n

theorem drop_set_pred {buf : List UInt8} {i : ℕ} (hi : i < buf.length) (b : UInt8) :
    (buf.set i b).drop i = b :: buf.drop (i + 1) := by
  rw [List.drop_eq_getElem_cons (by rwa [List.length_set]), List.getElem_set_self,
    List.drop_set_of_lt (Nat.lt_succ_self i)]

/-- A number of 32 bits has ten digits at most, so the buffer has room. -/
theorem Written.pass {n : ℕ} {s : Digits} (hn : n < 2 ^ 32) (h : Written n s) (hu : s.u ≠ 0) :
    0 < s.i ∧ ∃ s', s.pass = .ok s' ∧ Written n s' ∧
      (digits s'.u.toNat).length + 1 = (digits s.u.toNat).length := by
  have hu' : s.u.toNat ≠ 0 := fun hz ↦ hu (UInt32.toNat_inj.mp hz)
  have hstep := digits_step hu'
  have hlen := congrArg List.length h.split
  have hten := digits_length n hn
  have hbuf := h.length
  have hone := congrArg List.length hstep
  simp only [List.length_append, List.length_drop, List.length_singleton] at hlen hone
  have hindex := h.index
  have hi : 0 < s.i := by omega
  have hdiv : (s.u / 10).toNat = s.u.toNat / 10 := by simp
  refine ⟨hi, ⟨s.buf.set (s.i - 1) (48 + s.u % 10).toUInt8, s.i - 1, s.u / 10⟩, ?_, ?_, ?_⟩
  · rw [Digits.pass, assign_eq (by omega), ok_bind]
    rfl
  · refine ⟨by simpa using hbuf, by dsimp only; omega, ?_⟩
    dsimp only
    rw [drop_set_pred (by omega), Nat.sub_add_cancel hi, digit_byte, hdiv, ← h.split, hstep,
      List.append_assoc, List.singleton_append]
  · dsimp only
    rw [hdiv]
    omega

theorem wintLoop_eq (buf : Fin 24 → UInt8) (u : UInt32) :
    ∃ s, whileFuel Stop.timeout (fun s ↦ decide (s.u ≠ 0) && decide (s.i > 0)) Digits.pass 24
      ⟨List.ofFn buf, 24, u⟩ = .ok s ∧ s.buf.drop s.i = digits u.toNat := by
  have hu := u.toNat_lt
  have hten := digits_length u.toNat hu
  have hstart : Written u.toNat ⟨List.ofFn buf, 24, u⟩ :=
    ⟨List.length_ofFn, Nat.le_refl 24, by simp⟩
  have hloop : ∃ s, whileFuel Stop.timeout (fun s ↦ decide (s.u ≠ 0) && decide (s.i > 0))
      Digits.pass 24 ⟨List.ofFn buf, 24, u⟩ = .ok s ∧
      (Written u.toNat s ∧ (digits s.u.toNat).length = 0) := by
    refine whileFuel_ok _ (fun k s ↦ Written u.toNat s ∧ (digits s.u.toNat).length = k) ?_ ?_
      (show (digits u.toNat).length ≤ 24 by omega) ⟨hstart, rfl⟩
    · rintro s ⟨-, hz⟩
      have hzero : s.u = 0 := UInt32.toNat_inj.mp ((digits_length_eq_zero _).mp hz)
      simp [hzero]
    · rintro k s ⟨hs, hk⟩
      have hne : s.u ≠ 0 := by
        intro hzero
        rw [hzero] at hk
        exact absurd hk (Nat.succ_ne_zero k).symm
      obtain ⟨hi, s', hpass, hs', hless⟩ := hs.pass hu hne
      exact ⟨by simp [hne, hi], s', hpass, hs', by omega⟩
  obtain ⟨s, hrun, hs, hz⟩ := hloop
  refine ⟨s, hrun, ?_⟩
  rw [← hs.split, List.length_eq_zero_iff.mp hz, List.nil_append]

theorem magnitude_toNat (v : Int32) : (magnitude v).toNat = v.toInt.natAbs := by
  have hlow := v.le_toInt
  have hzero : (0 : Int32).toInt = 0 := rfl
  unfold magnitude
  by_cases h : v < 0
  · rw [if_pos h, UInt64.toNat_toUInt32]
    rw [Int32.lt_iff_toInt_lt, hzero] at h
    have hneg : (-v.toInt64).toInt = -v.toInt := by
      rw [Int64.toInt_neg, Int32.toInt_toInt64]
      exact Int.bmod_eq_of_le (by omega) (by omega)
    have hpos : 0 ≤ -v.toInt64 := by
      rw [Int64.le_iff_toInt_le, hneg]
      exact Int.neg_nonneg_of_nonpos (Int.le_of_lt h)
    have hwide : (-v.toInt64).toUInt64.toNat = v.toInt.natAbs := by
      rw [Int64.toNat_toUInt64_of_le hpos]
      change (-v.toInt64).toInt.toNat = _
      rw [hneg]
      omega
    rw [hwide]
    omega
  · rw [if_neg h, Int32.toNat_toUInt32_of_le (Int32.not_lt.mp h)]
    rw [Int32.lt_iff_toInt_lt, hzero] at h
    change v.toInt.toNat = _
    omega

theorem bytes_append (a b : String) : bytes (a ++ b) = bytes a ++ bytes b := by
  simp [bytes]

theorem bytes_repr {n : ℕ} (h : n ≠ 0) : bytes n.repr = digits n := by
  rw [bytes, Nat.toList_repr, digits, if_neg h]

theorem wint_unsigned (buf : Fin 24 → UInt8) (v : Int32) :
    wint buf v = .ok ((if v < 0 then bytes "-" else []) ++ bytes v.toInt.natAbs.repr) := by
  have hmag := magnitude_toNat v
  obtain ⟨s, hrun, hs⟩ := wintLoop_eq buf (magnitude v)
  rw [hmag] at hs
  rw [wint, hrun]
  by_cases hzero : magnitude v = 0
  · have hval : v.toInt.natAbs = 0 := by rw [← hmag, hzero]; rfl
    rw [if_pos hzero, hval]
    rfl
  · have hval : v.toInt.natAbs ≠ 0 := by
      intro hn
      exact hzero (UInt32.toNat_inj.mp (hmag.trans hn))
    rw [if_neg hzero, ok_bind, bytes_repr hval, hs]
    rfl

/-- `ctest__wint` writes every `int` in decimal, the least one included. -/
theorem wint_eq (buf : Fin 24 → UInt8) (v : Int32) :
    wint buf v = .ok (bytes (toString v.toInt)) := by
  have hzero : (0 : Int32).toInt = 0 := rfl
  rw [wint_unsigned, Int.toString_eq_repr, Int.repr_eq_if]
  by_cases h : v < 0
  · rw [if_pos h]
    rw [Int32.lt_iff_toInt_lt, hzero] at h
    have habs : (-v.toInt).toNat = v.toInt.natAbs := by omega
    rw [if_neg (by omega), bytes_append, habs]
  · rw [if_neg h]
    rw [Int32.lt_iff_toInt_lt, hzero] at h
    have habs : v.toInt.toNat = v.toInt.natAbs := by omega
    rw [if_pos (by omega), habs, List.nil_append]

end decimal

section run

variable {s s' : Harness} {name : ℕ} {a : List Bool} {b : Bool} {events : List Event}

/-- The section under way, with the outcomes of its checks so far. -/
def advance (cur : ℕ × List Bool) : Event → ℕ × List Bool
  | .newSection name => (name, [])
  | .check c => (cur.1, cur.2 ++ [c.outcome])

def underWay (topLevel : ℕ) (events : List Event) : ℕ × List Bool :=
  events.foldl advance (topLevel, [])

theorem recorded_snoc (a : List Bool) (b : Bool) :
    recorded (a ++ [b]) = if false ∈ a then recorded a else recorded a + 1 := by
  induction a with
  | nil => cases b <;> rfl
  | cons x a ih =>
    cases x with
    | false => simp [recorded_false]
    | true =>
      rw [List.cons_append, recorded_true, recorded_true, ih]
      split_ifs <;> simp_all

structure Tracks (s : Harness) (cur : ℕ × List Bool) : Prop where
  name : s.name = cur.1
  index : s.sectionIdx.toInt = recorded cur.2
  aborted : s.sectionAborted = true ↔ false ∈ cur.2

theorem Tracks.step {cur : ℕ × List Bool} {e : Event} (h : Tracks s cur) (hs : s.step e = .ok s') :
    Tracks s' (advance cur e) := by
  cases e with
  | newSection name =>
    cases hs
    exact ⟨rfl, rfl, by simp [advance]⟩
  | check c =>
    have hres := check_result s c
    rw [show s.check c = .ok s' from hs] at hres
    have hrec := recorded_snoc cur.2 c.outcome
    have hab := h.aborted
    have hidx := h.index
    cases hres with
    | skipped ha =>
      have hmem := hab.mp ha
      exact ⟨h.name, by rw [advance, hrec, if_pos hmem, hidx], by simp [advance, ha, hmem]⟩
    | pass idx passed ha hc hi hp =>
      have hmem : ¬ false ∈ cur.2 := by rw [← hab, ha]; decide
      refine ⟨h.name, ?_, by simp [advance, ha, hc, hmem]⟩
      rw [advance, hrec, if_neg hmem, hi, hidx, Int.natCast_add, Int.natCast_one]
    | fail idx failed ha hc hi hf =>
      have hmem : ¬ false ∈ cur.2 := by rw [← hab, ha]; decide
      refine ⟨h.name, ?_, by simp [advance, hc]⟩
      rw [advance, hrec, if_neg hmem, hi, hidx, Int.natCast_add, Int.natCast_one]

theorem Tracks.run {cur : ℕ × List Bool} (h : Tracks s cur) (hs : s.run events = .ok s') :
    Tracks s' (events.foldl advance cur) := by
  induction events generalizing s cur with
  | nil =>
    cases hs
    exact h
  | cons e events ih =>
    rw [Harness.run, List.foldlM_cons] at hs
    cases hstep : s.step e with
    | error f =>
      rw [hstep] at hs
      cases hs
    | ok t =>
      rw [hstep, ok_bind] at hs
      exact ih (h.step hstep) hs

theorem recorded_le (a : List Bool) : recorded a ≤ a.length := by
  induction a with
  | nil => exact Nat.le_refl _
  | cons b a ih =>
    cases b with
    | false => simp [recorded_false]
    | true =>
      rw [recorded_true, List.length_cons]
      omega

theorem recorded_clean (h : false ∉ a) : recorded a = a.length := by
  induction a with
  | nil => rfl
  | cons b a ih =>
    cases b with
    | false => exact absurd List.mem_cons_self h
    | true => rw [recorded_true, ih (fun hm ↦ h (List.mem_cons_of_mem _ hm)), List.length_cons]

/-- The checks of a section were all recorded when none but the last failed. -/
theorem recorded_all_iff (a : List Bool) : recorded a = a.length ↔ false ∉ a.dropLast := by
  rcases List.eq_nil_or_concat a with rfl | ⟨a, b, rfl⟩
  · exact iff_of_true rfl List.not_mem_nil
  · rw [List.concat_eq_append, recorded_snoc, List.dropLast_concat, List.length_append,
      List.length_singleton]
    by_cases h : false ∈ a
    · have hle := recorded_le a
      rw [if_pos h]
      exact iff_of_false (by omega) (fun hn ↦ hn h)
    · rw [if_neg h, recorded_clean h]
      exact iff_of_true rfl h

/-- The message of the handler: the budget, the section, and a check number. -/
def message (secs : ℤ) (name : List UInt8) (number : ℤ) : List UInt8 :=
  bytes ("\n*** TIMEOUT after " ++ toString secs ++ "s in section: ") ++ name ++
    bytes (" (reached check #" ++ toString number ++
      ")\n    Likely an infinite loop or a stuck call in this function.\n")

theorem onTimeout_eq (buf : Fin 24 → UInt8) (text : ℕ → List UInt8) (secs : Int32)
    {cur : ℕ × List Bool} (h : Tracks s cur) : onTimeout buf text secs s =
      if recorded cur.2 + 1 < 2 ^ 31 then
        .ok (message secs.toInt (wstr text cur.1) (recorded cur.2 + 1), timeoutStatus)
      else .error .overflow := by
  have hidx := h.index
  rw [onTimeout, lift_ok (wint_eq buf secs), ok_bind]
  by_cases hroom : recorded cur.2 + 1 < 2 ^ 31
  · obtain ⟨reached, hinc, hval⟩ := increment_ok (x := s.sectionIdx) (by omega)
    rw [if_pos hroom, hinc, ok_bind, lift_ok (wint_eq buf reached), ok_bind, hval, hidx, h.name]
    simp only [message, bytes_append, List.append_assoc]
    rfl
  · rw [if_neg hroom, increment_error (by omega)]
    rfl

/-- When the alarm goes off after any run of a test program, the handler names
the section under way and exits with 124. The check it numbers comes after the
last one recorded, which is the check under way just if no check but the last
has failed in the section; an index past the largest `int` is the one defect. -/
theorem watchdog_message (topLevel : ℕ) (events : List Event) (s : Harness)
    (h : (Harness.start topLevel).run events = .ok s) (buf : Fin 24 → UInt8)
    (text : ℕ → List UInt8) (secs : Int32) :
    onTimeout buf text secs s =
      (if recorded (underWay topLevel events).2 + 1 < 2 ^ 31 then
        .ok (message secs.toInt (wstr text (underWay topLevel events).1)
          (recorded (underWay topLevel events).2 + 1), timeoutStatus)
      else .error .overflow) ∧
    (recorded (underWay topLevel events).2 = (underWay topLevel events).2.length ↔
      false ∉ (underWay topLevel events).2.dropLast) := by
  have hstart : Tracks (.start topLevel) (topLevel, []) := ⟨rfl, rfl, by simp [Harness.start]⟩
  exact ⟨onTimeout_eq buf text secs (hstart.run h), recorded_all_iff _⟩

/-- The second check fails, the fourth never returns, and the message names the third. -/
theorem watchdog_message_third : ∃ s,
    (Harness.start 0).run
      [.newSection 7, .check (.bool true), .check (.bool false), .check (.bool true)] = .ok s ∧
    onTimeout (fun _ ↦ 0) (fun _ ↦ bytes "list_length") 10 s =
      .ok (message 10 (bytes "list_length") 3, 124) := by
  have hrun : (Harness.start 0).run
      [.newSection 7, .check (.bool true), .check (.bool false), .check (.bool true)] =
      .ok _ := rfl
  exact ⟨_, hrun, (watchdog_message 0 _ _ hrun (fun _ ↦ 0) (fun _ ↦ bytes "list_length") 10).1⟩

end run

end LowLevel.ProperC.CtestWatchdog
