import LowLevel.Basis.CArith
import LowLevel.Basis.EditDistance
import LowLevel.ProperC.Safety

namespace LowLevel.ProperDS.Strdp

open Basis.AddressSpace Basis.CArith Basis.EditDistance Basis.Loop ProperC.Safety

/-- The fuel bounds the depth of the recursion. -/
def bruteEdit : ℕ → Memory UInt8 → ℕ → ℕ → Except Fault Int32
  | 0, _, _, _ => .error (.memory .timeout)
  | fuel + 1, m, a, b => do
    if (← m.load a) = 0 then
      return ← narrowSize (← strlenFrom m b 0)
    if (← m.load b) = 0 then
      return ← narrowSize (← strlenFrom m a 0)
    if (← m.load a) = (← m.load b) then
      return ← bruteEdit fuel m (a + 1) (b + 1)
    let del ← bruteEdit fuel m (a + 1) b
    let ins ← bruteEdit fuel m a (b + 1)
    let sub ← bruteEdit fuel m (a + 1) (b + 1)
    let least := if del < ins then del else ins
    let least := if least < sub then least else sub
    int32 (1 + least.toInt)

/-- The difference of the first bytes that differ, among the first `n`. -/
def strncmp (m : Memory UInt8) : ℕ → ℕ → ℕ → Except Stop ℤ
  | _, _, 0 => .ok 0
  | p, q, n + 1 => do
    let c ← m.load p
    let d ← m.load q
    if c ≠ d then
      return (c.toNat : ℤ) - d.toNat
    if c = 0 then
      return 0
    strncmp m (p + 1) (q + 1) n

def findPass (m : Memory UInt8) (hay nee nh nn i : ℕ) : Except Fault (Int32 ⊕ ℕ) := do
  if sizeAdd i nn ≤ nh then
    if (← strncmp m (hay + i) nee nn) = 0 then
      return .inl (← narrowSize i)
    return .inr (sizeAdd i 1)
  return .inl (-1)

def bruteFind (fuel : ℕ) (m : Memory UInt8) (hay nee : ℕ) : Except Fault Int32 := do
  let nh ← strlenFrom m hay 0
  let nn ← strlenFrom m nee 0
  if nn > nh then
    return -1
  loopFuel (.memory .timeout) (findPass m hay nee nh nn) fuel 0

variable {m : Memory UInt8} {a b c fuel : ℕ} {s t u : List UInt8} {x y : UInt8}

theorem cstr_head (h : CStr m a (x :: s)) : m.load a = .ok x ∧ x ≠ 0 :=
  ⟨Memory.load_eq (h.byte (i := 0) (by simp)), fun h0 ↦ h.noNul (h0 ▸ List.mem_cons_self)⟩

theorem cstr_tail (h : CStr m a (x :: s)) : CStr m (a + 1) s where
  noNul hmem := h.noNul (List.mem_cons_of_mem x hmem)
  holds := by
    intro i v hv
    rw [Nat.add_assoc, Nat.add_comm 1]
    exact h.holds (i + 1) v (by simpa using hv)

theorem cstr_nil (h : CStr m a []) : m.load a = .ok 0 := Memory.load_eq h.terminator

theorem cstr_drop (h : CStr m a s) (i : ℕ) (hi : i ≤ s.length) : CStr m (a + i) (s.drop i) := by
  induction i with
  | zero => exact h
  | succ i ih =>
    have hdrop := ih (by omega)
    rw [List.drop_eq_getElem_cons (by omega)] at hdrop
    exact cstr_tail hdrop

theorem toInt_least (v w : Int32) :
    (if v < w then v else w).toInt = min v.toInt w.toInt := by
  split_ifs with hlt
  · rw [Int32.lt_iff_toInt_lt] at hlt
    omega
  · rw [Int32.lt_iff_toInt_lt] at hlt
    omega

theorem bruteEdit_eq (hs : CStr m a s) (ht : CStr m b t) (hslen : s.length < 2 ^ 31)
    (htlen : t.length < 2 ^ 31) (hfuel : s.length + t.length < fuel) :
    ∃ d, bruteEdit fuel m a b = .ok d ∧ d.toInt = distance s t := by
  induction fuel generalizing a b s t with
  | zero => exact absurd hfuel (Nat.not_lt_zero _)
  | succ fuel ih =>
    rw [bruteEdit]
    cases s with
    | nil =>
      obtain ⟨d, hd, hval⟩ := narrowSize_of_lt htlen
      refine ⟨d, ?_, by rw [distance_nil_left, hval]⟩
      rw [lift_ok (cstr_nil hs), ok_bind, if_pos rfl, lift_ok (strlen_eq ht), ok_bind, hd]
    | cons x s =>
      obtain ⟨hx, hx0⟩ := cstr_head hs
      rw [lift_ok hx, ok_bind, if_neg hx0]
      cases t with
      | nil =>
        obtain ⟨d, hd, hval⟩ := narrowSize_of_lt hslen
        refine ⟨d, ?_, by rw [distance_nil_right, hval]⟩
        rw [lift_ok (cstr_nil ht), ok_bind, if_pos rfl, lift_ok (strlen_eq hs), ok_bind, hd]
      | cons y t =>
        obtain ⟨hy, hy0⟩ := cstr_head ht
        rw [List.length_cons] at hslen htlen hfuel
        rw [List.length_cons] at hfuel
        obtain ⟨dsub, hsub, hvsub⟩ :=
          ih (cstr_tail hs) (cstr_tail ht) (by omega) (by omega) (by omega)
        rw [lift_ok hy, ok_bind, if_neg hy0, ok_bind, ok_bind]
        by_cases hxy : x = y
        · subst hxy
          refine ⟨dsub, ?_, by rw [distance_same, hvsub]⟩
          rw [if_pos rfl, hsub]
        · obtain ⟨ddel, hdel, hvdel⟩ := ih (cstr_tail hs) ht (by omega)
            (by rwa [List.length_cons]) (by rw [List.length_cons]; omega)
          obtain ⟨dins, hins, hvins⟩ := ih hs (cstr_tail ht)
            (by rwa [List.length_cons]) (by omega) (by rw [List.length_cons]; omega)
          have hmax := distance_le_max (x :: s) (y :: t)
          rw [distance_differ hxy, List.length_cons, List.length_cons] at hmax
          rw [if_neg hxy, hdel, ok_bind, hins, ok_bind, hsub, ok_bind]
          dsimp only
          have hleast := toInt_least (if ddel < dins then ddel else dins) dsub
          rw [toInt_least ddel dins] at hleast
          have hfits : Fits 32 (1 + min (min ddel.toInt dins.toInt) dsub.toInt) := by
            rw [Fits]
            omega
          obtain ⟨d, hd, hval⟩ := int32_of_fits hfits
          rw [hleast]
          refine ⟨d, hd, ?_⟩
          rw [hval, distance_differ hxy, hvdel, hvins, hvsub]
          omega

theorem bruteEdit_returns (hs : CStr m a s) (ht : CStr m b t) (hslen : s.length < 2 ^ 31)
    (htlen : t.length < 2 ^ 31) :
    ∃ d : Int32, Returns (fun fuel ↦ bruteEdit fuel m a b) d ∧ d.toInt = distance s t := by
  obtain ⟨d, -, hval⟩ := bruteEdit_eq hs ht hslen htlen (Nat.lt_succ_self _)
  refine ⟨d, ⟨s.length + t.length + 1, fun fuel hfuel ↦ ?_⟩, hval⟩
  obtain ⟨d', hrun, hval'⟩ := bruteEdit_eq hs ht hslen htlen hfuel
  rwa [Int32.toInt_inj.mp (hval'.trans hval.symm)] at hrun

/-- The exponential recursion of the tests ends, without a bad access or an
overflow, in the length of the shortest script of edits. -/
theorem brute_edit_least (hs : CStr m a s) (ht : CStr m b t) (hslen : s.length < 2 ^ 31)
    (htlen : t.length < 2 ^ 31) :
    ∃ (d : Int32) (n : ℕ), Returns (fun fuel ↦ bruteEdit fuel m a b) d ∧ d.toInt = n ∧
      IsLeast {n | Edits n s t} n := by
  obtain ⟨d, hret, hval⟩ := bruteEdit_returns hs ht hslen htlen
  exact ⟨d, distance s t, hret, hval, distance_least s t⟩

/-- "flaw" at 100 and "lawn" at 105. -/
def flawLawn : Memory UInt8 :=
  Memory.sample [102, 108, 97, 119, 0, 108, 97, 119, 110, 0] (by decide)

theorem flaw_str : CStr flawLawn 100 [102, 108, 97, 119] :=
  ⟨by decide, (Memory.holds_sample _).within [] [108, 97, 119, 110, 0]⟩

theorem lawn_str : CStr flawLawn 105 [108, 97, 119, 110] :=
  ⟨by decide, (Memory.holds_sample _).within [102, 108, 97, 119, 0] []⟩

theorem brute_edit_flaw_lawn :
    ∃ (d : Int32) (n : ℕ), Returns (fun fuel ↦ bruteEdit fuel flawLawn 100 105) d ∧ d.toInt = n ∧
      IsLeast {n | Edits n ([102, 108, 97, 119] : List UInt8) [108, 97, 119, 110]} n :=
  brute_edit_least flaw_str lawn_str (by decide) (by decide)

/-- The oracle measures a metric: it is symmetric, zero between equal strings
only, and no detour is shorter. -/
theorem brute_edit_metric (hs : CStr m a s) (ht : CStr m b t) (hu : CStr m c u)
    (hslen : s.length < 2 ^ 31) (htlen : t.length < 2 ^ 31) (hulen : u.length < 2 ^ 31) :
    ∃ dab dbc dac : Int32, Returns (fun fuel ↦ bruteEdit fuel m a b) dab ∧
      Returns (fun fuel ↦ bruteEdit fuel m b a) dab ∧
      Returns (fun fuel ↦ bruteEdit fuel m b c) dbc ∧
      Returns (fun fuel ↦ bruteEdit fuel m a c) dac ∧
      (dab = 0 ↔ s = t) ∧ dac.toInt ≤ dab.toInt + dbc.toInt := by
  obtain ⟨dab, hab, hvab⟩ := bruteEdit_returns hs ht hslen htlen
  obtain ⟨dba, hba, hvba⟩ := bruteEdit_returns ht hs htlen hslen
  obtain ⟨dbc, hbc, hvbc⟩ := bruteEdit_returns ht hu htlen hulen
  obtain ⟨dac, hac, hvac⟩ := bruteEdit_returns hs hu hslen hulen
  have hsame : dba = dab := by
    rw [← Int32.toInt_inj, hvba, hvab, distance_comm]
  have hdetour := distance_le ((distance_edits s t).trans (distance_edits t u))
  refine ⟨dab, dbc, dac, hab, hsame ▸ hba, hbc, hac, ?_, by omega⟩
  rw [← distance_eq_zero, ← Int32.toInt_inj, hvab, Int32.toInt_zero, Int.natCast_eq_zero]

theorem brute_edit_metric_flaw_lawn :
    ∃ dab dbc dac : Int32, Returns (fun fuel ↦ bruteEdit fuel flawLawn 100 105) dab ∧
      Returns (fun fuel ↦ bruteEdit fuel flawLawn 105 100) dab ∧
      Returns (fun fuel ↦ bruteEdit fuel flawLawn 105 100) dbc ∧
      Returns (fun fuel ↦ bruteEdit fuel flawLawn 100 100) dac ∧
      (dab = 0 ↔ ([102, 108, 97, 119] : List UInt8) = [108, 97, 119, 110]) ∧
      dac.toInt ≤ dab.toInt + dbc.toInt :=
  brute_edit_metric flaw_str lawn_str flaw_str (by decide) (by decide) (by decide)

theorem strncmp_eq (hs : CStr m a s) (ht : CStr m b t) :
    ∃ r, strncmp m a b t.length = .ok r ∧ (r = 0 ↔ t <+: s) := by
  induction t generalizing a b s with
  | nil => exact ⟨0, rfl, by simp⟩
  | cons y t ih =>
    obtain ⟨hy, hy0⟩ := cstr_head ht
    rw [List.length_cons, strncmp]
    cases s with
    | nil =>
      refine ⟨(0 : UInt8).toNat - y.toNat, ?_, ?_⟩
      · rw [cstr_nil hs, ok_bind, hy, ok_bind, if_pos (Ne.symm hy0)]
        rfl
      · have hpos : y.toNat ≠ 0 := fun h ↦ hy0 (UInt8.toNat_inj.mp h)
        simp only [List.prefix_nil, reduceCtorEq, iff_false]
        exact fun h ↦ hpos (by simpa using h)
    | cons x s =>
      obtain ⟨hx, hx0⟩ := cstr_head hs
      rw [hx, ok_bind, hy, ok_bind]
      by_cases hxy : x = y
      · subst hxy
        obtain ⟨r, hr, hiff⟩ := ih (cstr_tail hs) (cstr_tail ht)
        rw [if_neg (not_not_intro rfl), if_neg hx0]
        exact ⟨r, hr, hiff.trans (by simp)⟩
      · refine ⟨x.toNat - y.toNat, if_pos hxy, ?_⟩
        have hne : x.toNat ≠ y.toNat := fun h ↦ hxy (UInt8.toNat_inj.mp h)
        simp only [List.cons_prefix_cons, Ne.symm hxy, false_and, iff_false]
        omega

/-- `brute_find` before pass `i`: no occurrence starts further to the left. -/
structure Missed (s t : List UInt8) (left i : ℕ) : Prop where
  left : i + left = s.length + 1 - t.length
  none : ∀ j < i, ¬ t <+: s.drop j

def IsFirst (s t : List UInt8) (r : Int32) : Prop :=
  (r = -1 ∧ ¬ t <:+: s) ∨
    ∃ i : ℕ, r.toInt = i ∧ t <+: s.drop i ∧ ∀ j < i, ¬ t <+: s.drop j

theorem not_infix (h : ∀ j, j + t.length ≤ s.length → ¬ t <+: s.drop j) : ¬ t <:+: s := by
  rintro ⟨pre, post, rfl⟩
  refine h pre.length (by simp) ?_
  rw [List.append_assoc, List.drop_left]
  exact List.prefix_append t post

theorem Missed.pass {left i : ℕ} (h : Missed s t left i) (hs : CStr m a s) (ht : CStr m b t)
    (hslen : s.length < 2 ^ 31) (hle : t.length ≤ s.length) :
    (∃ r, findPass m a b s.length t.length i = .ok (.inl r) ∧ IsFirst s t r) ∨
      ∃ left' i', left = left' + 1 ∧ findPass m a b s.length t.length i = .ok (.inr i') ∧
        Missed s t left' i' := by
  have hleft := h.left
  rw [findPass, sizeAdd_of_lt (by omega)]
  by_cases hin : i + t.length ≤ s.length
  · obtain ⟨r, hr, hiff⟩ := strncmp_eq (cstr_drop hs i (by omega)) ht
    rw [if_pos hin, lift_ok hr, ok_bind]
    by_cases hzero : r = 0
    · obtain ⟨v, hv, hval⟩ := narrowSize_of_lt (n := i) (by omega)
      refine .inl ⟨v, ?_, .inr ⟨i, hval, hiff.mp hzero, h.none⟩⟩
      rw [if_pos hzero, hv]
      rfl
    · refine .inr ⟨left - 1, i + 1, by omega, ?_, by omega, fun j hj ↦ ?_⟩
      · rw [if_neg hzero, sizeAdd_of_lt (by omega)]
        rfl
      · rcases Nat.lt_succ_iff_lt_or_eq.mp hj with hlt | rfl
        · exact h.none j hlt
        · exact fun hpre ↦ hzero (hiff.mpr hpre)
  · refine .inl ⟨-1, if_neg hin, .inl ⟨rfl, not_infix (fun j hj ↦ h.none j (by omega))⟩⟩

/-- The naive scan ends at the first occurrence, without a read past the end
of either string. -/
theorem brute_find_first (hs : CStr m a s) (ht : CStr m b t) (hslen : s.length < 2 ^ 31) :
    ∃ r, Returns (fun fuel ↦ bruteFind fuel m a b) r ∧ IsFirst s t r := by
  apply exists_returns (n := s.length + 2)
  · intro fuel hfuel
    rw [bruteFind, lift_ok (strlen_eq hs), ok_bind, lift_ok (strlen_eq ht), ok_bind]
    by_cases hlong : t.length > s.length
    · rw [if_pos hlong]
      refine ⟨-1, rfl, .inl ⟨rfl, fun hin ↦ ?_⟩⟩
      have hlen := hin.length_le
      omega
    · rw [if_neg hlong]
      have hstart : Missed s t (s.length + 1 - t.length) 0 :=
        ⟨Nat.zero_add _, fun j hj ↦ absurd hj (Nat.not_lt_zero j)⟩
      exact loopFuel_ok _ (Missed s t) (IsFirst s t)
        (fun left i h ↦ h.pass hs ht hslen (by omega)) (by omega) hstart
  · rintro r r' (⟨rfl, hnot⟩ | ⟨i, hr, hi, hbefore⟩) (⟨rfl, hnot'⟩ | ⟨i', hr', hi', hbefore'⟩)
    · rfl
    · exact absurd (hi'.isInfix.trans (List.drop_suffix i' s).isInfix) hnot
    · exact absurd (hi.isInfix.trans (List.drop_suffix i s).isInfix) hnot'
    · rcases Nat.lt_trichotomy i i' with hlt | rfl | hgt
      · exact absurd hi (hbefore' i hlt)
      · exact Int32.toInt_inj.mp (hr.trans hr'.symm)
      · exact absurd hi' (hbefore i' hgt)

theorem brute_find_flaw_lawn :
    ∃ r, Returns (fun fuel ↦ bruteFind fuel flawLawn 100 105) r ∧
      IsFirst [102, 108, 97, 119] [108, 97, 119, 110] r :=
  brute_find_first flaw_str lawn_str (by decide)

end LowLevel.ProperDS.Strdp
