import LowLevel.Basis.CArith
import LowLevel.Basis.Masks
import Mathlib.Algebra.GroupWithZero.Nat
import Mathlib.Algebra.Ring.Int.Defs
import Mathlib.Data.List.Chain
import Mathlib.Data.Nat.Bitwise
import Mathlib.Order.Bounds.Defs

namespace LowLevel.ProperDS.StrdpMasks

open Basis.AddressSpace Basis.CArith Basis.Loop Basis.Masks

/-- The loop over a subsequence in `brute_lis`, left when `ok` is false. -/
structure Climb where
  count : Int32
  last : Int32
  ok : Bool

/-- `count > 0 && a[i] <= last`, where addresses count `int` cells. -/
def Climb.falls (m : Memory Int32) (a i : ℕ) (s : Climb) : Except Stop Bool :=
  if 0 < s.count then (m.load (a + i)).map (fun v ↦ decide (v ≤ s.last)) else .ok false

def Climb.pass (m : Memory Int32) (a : ℕ) (mask : UInt32) (i : ℕ) (s : Climb) :
    Except Fault Climb := do
  if s.ok then
    if (mask &&& (← shiftLeft 1 i)) ≠ 0 then
      if ← s.falls m a i then
        return { s with ok := false }
      let last ← m.load (a + i)
      let count ← int32 (s.count.toInt + 1)
      return { s with last := last, count := count }
    return s
  return s

def climb (m : Memory Int32) (a n : ℕ) (mask : UInt32) : Except Fault Climb :=
  forRange (Climb.pass m a mask) 0 n ⟨0, 0, true⟩

def bruteLis (m : Memory Int32) (a n : ℕ) : Except Fault Int32 := do
  let hi ← shiftLeft 1 n
  forRange (fun mask best ↦ do
    let s ← climb m a n (UInt32.ofNat mask)
    return if s.ok && best < s.count then s.count else best) 0 hi.toNat 0

structure Totals where
  tw : Int32
  tv : Int32

def Totals.pass (m : Memory Int32) (w v : ℕ) (mask : UInt32) (i : ℕ) (s : Totals) :
    Except Fault Totals := do
  if (mask &&& (← shiftLeft 1 i)) ≠ 0 then
    let tw ← int32 (s.tw.toInt + (← m.load (w + i)).toInt)
    let tv ← int32 (s.tv.toInt + (← m.load (v + i)).toInt)
    return ⟨tw, tv⟩
  return s

def bruteKnapsack (m : Memory Int32) (w v n : ℕ) (cap : Int32) : Except Fault Int32 := do
  let hi ← shiftLeft 1 n
  forRange (fun mask best ↦ do
    let s ← forRange (Totals.pass m w v (UInt32.ofNat mask)) 0 n ⟨0, 0⟩
    return if s.tw ≤ cap && best < s.tv then s.tv else best) 0 hi.toNat 0

variable {m : Memory Int32} {a w v i mask : ℕ} {l : List Int32}

theorem shiftLeft_one (hi : i < 32) : ∃ b, shiftLeft 1 i = .ok b ∧ b.toNat = 2 ^ i := by
  have hlt : 2 ^ i < 2 ^ 32 := Nat.pow_lt_pow_right Nat.one_lt_two hi
  refine ⟨_, shiftLeft_of_lt hi, ?_⟩
  rw [UInt32.toNat_ofNat', UInt32.toNat_one, Nat.one_mul, Nat.mod_eq_of_lt hlt]

theorem land_bit {b : UInt32} (hmask : mask < 2 ^ 32) (hb : b.toNat = 2 ^ i) :
    (UInt32.ofNat mask &&& b) ≠ 0 ↔ mask.testBit i = true := by
  rw [Ne, ← UInt32.toNat_inj, UInt32.toNat_and, UInt32.toNat_ofNat', Nat.mod_eq_of_lt hmask, hb,
    Nat.and_two_pow]
  cases mask.testBit i with
  | false => simp
  | true => simp

/-- The passes up to `i` in `brute_lis`, over the elements that `mask` picks. -/
structure Climbed (l : List Int32) (mask i : ℕ) (s : Climb) : Prop where
  rises : s.ok = true ↔ (picked mask (l.take i)).IsChain (· < ·)
  count : s.ok = true → s.count.toInt = (picked mask (l.take i)).length
  last : s.ok = true → ∀ x ∈ (picked mask (l.take i)).getLast?, s.last = x

theorem picked_length_le (mask i : ℕ) : (picked mask (l.take i)).length ≤ i :=
  Nat.le_trans (picked_sublist mask _).length_le (List.length_take_le i l)

theorem Climbed.falls {s : Climb} (h : Climbed l mask i s) (hok : s.ok = true) {x : Int32}
    (hload : m.load (a + i) = .ok x) : ∃ b, s.falls m a i = .ok b ∧
      (b = false ↔ (picked mask (l.take i) ++ [x]).IsChain (· < ·)) := by
  have hcount := h.count hok
  have hchain := h.rises.mp hok
  have hpositive : 0 < s.count ↔ 0 < (picked mask (l.take i)).length := by
    rw [Int32.lt_iff_toInt_lt, hcount, Int32.toInt_zero, Int.natCast_pos]
  rw [Climb.falls]
  cases hlast : (picked mask (l.take i)).getLast? with
  | none =>
    rw [List.getLast?_eq_none_iff.mp hlast] at hpositive ⊢
    exact ⟨false, if_neg (fun hlt ↦ Nat.lt_irrefl 0 (hpositive.mp hlt)), by simp⟩
  | some y =>
    have hpos : picked mask (l.take i) ≠ [] := by
      intro hnil
      rw [hnil] at hlast
      cases hlast
    rw [if_pos (hpositive.mpr (List.length_pos_of_ne_nil hpos)), hload, h.last hok y hlast]
    refine ⟨decide (x ≤ y), rfl, ?_⟩
    rw [List.isChain_append, hlast, decide_eq_false_iff_not, Int32.not_le]
    simp [hchain]

theorem Climbed.pass {s : Climb} (h : Climbed l mask i s) (hl : m.Holds a l) (hi : i < l.length)
    (hlen : l.length < 32) (hmask : mask < 2 ^ 32) :
    ∃ s', Climb.pass m a (UInt32.ofNat mask) i s = .ok s' ∧ Climbed l mask (i + 1) s' := by
  have hload := Memory.load_eq (hl i l[i] (List.getElem?_eq_getElem hi))
  obtain ⟨b, hb, hval⟩ := shiftLeft_one (Nat.lt_trans hi hlen)
  have htake := picked_take mask hi
  rw [Climb.pass]
  cases hok : s.ok with
  | false =>
    refine ⟨s, if_neg (by simp), ?_, by simp [hok], by simp [hok]⟩
    rw [htake, hok]
    refine iff_of_false (by simp) (fun hchain ↦ ?_)
    exact absurd (h.rises.mpr (List.isChain_append.mp hchain).1) (by simp [hok])
  | true =>
    have hcount := h.count hok
    have hle := picked_length_le (l := l) mask i
    rw [if_pos rfl, hb, ok_bind]
    by_cases hbit : mask.testBit i = true
    · obtain ⟨falls, hfalls, hiff⟩ := h.falls hok hload
      rw [if_pos hbit] at htake
      rw [if_pos ((land_bit hmask hval).mpr hbit), lift_ok hfalls, ok_bind]
      cases falls with
      | true =>
        refine ⟨{ s with ok := false }, rfl, ?_, by simp, by simp⟩
        rw [htake]
        exact iff_of_false (by simp) (fun hchain ↦ absurd (hiff.mpr hchain) (by simp))
      | false =>
        obtain ⟨count, hrun, hone⟩ := int32_of_fits (x := s.count.toInt + 1) (by
          rw [hcount, Fits]
          omega)
        refine ⟨⟨count, l[i], true⟩, ?_, ?_, ?_, ?_⟩
        · rw [if_neg (by simp), lift_ok hload, ok_bind, hrun]
          rfl
        · rw [htake]
          exact iff_of_true rfl (hiff.mp rfl)
        · intro _
          rw [htake, List.length_append, List.length_singleton, Int.natCast_add, ← hcount]
          exact hone
        · intro _ x hx
          rw [htake, List.getLast?_append] at hx
          simpa using hx
    · rw [if_neg hbit, List.append_nil] at htake
      refine ⟨s, if_neg (fun hne ↦ hbit ((land_bit hmask hval).mp hne)), ?_, ?_, ?_⟩
      · rw [htake]
        exact h.rises
      · rw [htake]
        exact h.count
      · rw [htake]
        exact h.last

theorem climb_spec (hl : m.Holds a l) (hlen : l.length < 32) (hmask : mask < 2 ^ 32) :
    ∃ s, climb m a l.length (UInt32.ofNat mask) = .ok s ∧ Climbed l mask l.length s :=
  forRange_ok (Climbed l mask) (Nat.zero_le _)
    ⟨iff_of_true rfl (by simp [picked]), fun _ ↦ by simp [picked], fun _ ↦ by simp [picked]⟩
    (fun _ _ hi _ h ↦ h.pass hl hi hlen hmask)

/-- The best length over the masks below `mask`. -/
structure Tallest (l : List Int32) (mask : ℕ) (best : Int32) : Prop where
  bound : ∀ k < mask, (picked k l).IsChain (· < ·) → (picked k l).length ≤ best.toInt
  reached : ∃ s : List Int32, s.Sublist l ∧ s.IsChain (· < ·) ∧ (s.length : ℤ) = best.toInt

theorem Tallest.pass {best : Int32} (h : Tallest l mask best) (hl : m.Holds a l)
    (hlen : l.length < 32) (hmask : mask < 2 ^ l.length) :
    ∃ s, climb m a l.length (UInt32.ofNat mask) = .ok s ∧
      Tallest l (mask + 1) (if s.ok && best < s.count then s.count else best) := by
  have htop : 2 ^ l.length < 2 ^ 32 := Nat.pow_lt_pow_right Nat.one_lt_two hlen
  obtain ⟨s, hrun, hs⟩ := climb_spec hl hlen (Nat.lt_trans hmask htop)
  have hrises := hs.rises
  have hcount := hs.count
  rw [List.take_length] at hrises hcount
  refine ⟨s, hrun, ?_⟩
  split_ifs with hmore
  · rw [Bool.and_eq_true, decide_eq_true_iff, Int32.lt_iff_toInt_lt] at hmore
    refine ⟨fun k hk hchain ↦ ?_, picked mask l, picked_sublist mask l, hrises.mp hmore.1,
      (hcount hmore.1).symm⟩
    rcases Nat.lt_succ_iff_lt_or_eq.mp hk with hlt | rfl
    · exact Int.le_trans (h.bound k hlt hchain) (Int.le_of_lt hmore.2)
    · exact Int.le_of_eq (hcount hmore.1).symm
  · refine ⟨fun k hk hchain ↦ ?_, h.reached⟩
    rcases Nat.lt_succ_iff_lt_or_eq.mp hk with hlt | rfl
    · exact h.bound k hlt hchain
    · have hok := hrises.mpr hchain
      rw [hok, Bool.true_and, decide_eq_true_iff, Int32.lt_iff_toInt_lt, hcount hok] at hmore
      omega

/-- Over all masks `brute_lis` finds the longest strictly increasing subsequence. -/
theorem brute_lis_longest (hl : m.Holds a l) (hlen : l.length < 32) :
    ∃ best, bruteLis m a l.length = .ok best ∧
      IsGreatest {k : ℤ | ∃ s : List Int32, s.Sublist l ∧ s.IsChain (· < ·) ∧ (s.length : ℤ) = k}
        best.toInt := by
  obtain ⟨hi, hshift, hval⟩ := shiftLeft_one hlen
  have hloop : ∃ best, bruteLis m a l.length = .ok best ∧ Tallest l hi.toNat best := by
    rw [bruteLis, hshift, ok_bind]
    refine forRange_ok (Tallest l) (Nat.zero_le _) ⟨?_, [], List.nil_sublist l, by simp, rfl⟩ ?_
    · intro k hk
      exact absurd hk (Nat.not_lt_zero k)
    · intro mask _ hmask best h
      obtain ⟨s, hrun, hnext⟩ := h.pass hl hlen (hval ▸ hmask)
      exact ⟨_, by rw [hrun]; rfl, hnext⟩
  obtain ⟨best, hrun, hbest⟩ := hloop
  refine ⟨best, hrun, hbest.reached, ?_⟩
  rintro k ⟨s, hsub, hchain, rfl⟩
  obtain ⟨mask, hmask, rfl⟩ := exists_mask hsub
  exact hbest.bound mask (hval ▸ hmask) hchain

theorem brute_lis_longest_three :
    ∃ best, bruteLis (Memory.sample [10, 9, 11] (by decide)) 100 3 = .ok best ∧
      IsGreatest {k : ℤ | ∃ s : List Int32, s.Sublist [10, 9, 11] ∧ s.IsChain (· < ·) ∧
        (s.length : ℤ) = k} best.toInt :=
  brute_lis_longest (l := [10, 9, 11]) (Memory.holds_sample _) (by decide)

def weight (s : List (Int32 × Int32)) : ℤ := (s.map (fun e ↦ e.1.toInt)).sum

def value (s : List (Int32 × Int32)) : ℤ := (s.map (fun e ↦ e.2.toInt)).sum

def Fitting (s : List (Int32 × Int32)) : Prop := Fits 32 (weight s) ∧ Fits 32 (value s)

/-- Some choice of the items has a total that is no `int`. -/
def Overweight (items : List (Int32 × Int32)) : Prop := ∃ s, s.Sublist items ∧ ¬ Fitting s

variable {items : List (Int32 × Int32)} {cap : Int32}

theorem weight_concat (s : List (Int32 × Int32)) (e : Int32 × Int32) :
    weight (s ++ [e]) = weight s + e.1.toInt := by
  simp [weight]

theorem value_concat (s : List (Int32 × Int32)) (e : Int32 × Int32) :
    value (s ++ [e]) = value s + e.2.toInt := by
  simp [value]

structure Totalled (items : List (Int32 × Int32)) (mask i : ℕ) (s : Totals) : Prop where
  weight : s.tw.toInt = weight (picked mask (items.take i))
  value : s.tv.toInt = value (picked mask (items.take i))

theorem int32_or_overflow (x : ℤ) :
    (∃ v, int32 x = .ok v ∧ v.toInt = x) ∨ int32 x = .error .overflow ∧ ¬ Fits 32 x := by
  by_cases h : Fits 32 x
  · exact .inl (int32_of_fits h)
  · exact .inr ⟨if_neg h, h⟩

theorem Totalled.pass {s : Totals} (h : Totalled items mask i s)
    (hw : m.Holds w (items.map Prod.fst)) (hv : m.Holds v (items.map Prod.snd))
    (hi : i < items.length) (hlen : items.length < 32) (hmask : mask < 2 ^ 32) :
    (∃ s', Totals.pass m w v (UInt32.ofNat mask) i s = .ok s' ∧
      Totalled items mask (i + 1) s') ∨
      ∃ e, Totals.pass m w v (UInt32.ofNat mask) i s = .error e ∧
        e = .overflow ∧ Overweight items := by
  have hloadw := Memory.load_eq (hw i items[i].1 (by simp [hi]))
  have hloadv := Memory.load_eq (hv i items[i].2 (by simp [hi]))
  obtain ⟨b, hb, hval⟩ := shiftLeft_one (Nat.lt_trans hi hlen)
  have htake := picked_take mask hi
  have hsub : (picked mask (items.take (i + 1))).Sublist items :=
    (picked_sublist mask _).trans (List.take_sublist _ _)
  rw [Totals.pass, hb, ok_bind]
  by_cases hbit : mask.testBit i = true
  · rw [if_pos hbit] at htake
    have hweight := weight_concat (picked mask (items.take i)) items[i]
    have hvalue := value_concat (picked mask (items.take i)) items[i]
    rw [← htake, ← h.weight] at hweight
    rw [← htake, ← h.value] at hvalue
    rw [if_pos ((land_bit hmask hval).mpr hbit), lift_ok hloadw, ok_bind]
    rcases int32_or_overflow (s.tw.toInt + items[i].1.toInt) with ⟨tw, hrunw, htw⟩ | ⟨herr, hnot⟩
    · rw [hrunw, ok_bind, lift_ok hloadv, ok_bind]
      rcases int32_or_overflow (s.tv.toInt + items[i].2.toInt) with ⟨tv, hrunv, htv⟩ | ⟨herr, hnot⟩
      · rw [hrunv]
        exact .inl ⟨⟨tw, tv⟩, rfl, htw.trans hweight.symm, htv.trans hvalue.symm⟩
      · rw [herr]
        exact .inr ⟨_, rfl, rfl, _, hsub, fun hfit ↦ hnot (hvalue ▸ hfit.2)⟩
    · rw [herr]
      exact .inr ⟨_, rfl, rfl, _, hsub, fun hfit ↦ hnot (hweight ▸ hfit.1)⟩
  · rw [if_neg hbit, List.append_nil] at htake
    refine .inl ⟨s, if_neg (fun hne ↦ hbit ((land_bit hmask hval).mp hne)), ?_, ?_⟩
    · rw [htake, h.weight]
    · rw [htake, h.value]

theorem totalled_zero : Totalled items mask 0 ⟨0, 0⟩ :=
  ⟨by simp [picked, StrdpMasks.weight], by simp [picked, StrdpMasks.value]⟩

theorem totals_spec (hw : m.Holds w (items.map Prod.fst)) (hv : m.Holds v (items.map Prod.snd))
    (hlen : items.length < 32) (hmask : mask < 2 ^ 32) :
    (∃ s, forRange (Totals.pass m w v (UInt32.ofNat mask)) 0 items.length ⟨0, 0⟩ = .ok s ∧
      Totalled items mask items.length s) ∨
      ∃ e, forRange (Totals.pass m w v (UInt32.ofNat mask)) 0 items.length ⟨0, 0⟩ = .error e ∧
        e = .overflow ∧ Overweight items :=
  forRange_or_error _ (Totalled items mask) (fun e : Fault ↦ e = .overflow ∧ Overweight items)
    (Nat.zero_le _) totalled_zero (fun _ _ hi _ h ↦ h.pass hw hv hi hlen hmask)

/-- The best value over the masks below `mask`, or 0. -/
structure Richest (items : List (Int32 × Int32)) (cap : Int32) (mask : ℕ) (best : Int32) :
    Prop where
  fit : ∀ k < mask, Fitting (picked k items)
  least : 0 ≤ best.toInt
  bound : ∀ k < mask, weight (picked k items) ≤ cap.toInt → value (picked k items) ≤ best.toInt
  reached : best.toInt = 0 ∨
    ∃ s, s.Sublist items ∧ weight s ≤ cap.toInt ∧ value s = best.toInt

theorem richest_zero : Richest items cap 0 0 where
  fit _ hk := absurd hk (Nat.not_lt_zero _)
  least := by decide
  bound _ hk := absurd hk (Nat.not_lt_zero _)
  reached := .inl rfl

theorem Totalled.fitting {s : Totals} (h : Totalled items mask items.length s) :
    Fitting (picked mask items) := by
  have hweight := h.weight
  have hvalue := h.value
  rw [List.take_length] at hweight hvalue
  exact ⟨hweight ▸ fits_toInt s.tw, hvalue ▸ fits_toInt s.tv⟩

theorem Richest.pass {best : Int32} {s : Totals} (h : Richest items cap mask best)
    (hs : Totalled items mask items.length s) :
    Richest items cap (mask + 1) (if s.tw ≤ cap && best < s.tv then s.tv else best) := by
  have hweight := hs.weight
  have hvalue := hs.value
  have hleast := h.least
  rw [List.take_length] at hweight hvalue
  have hfit : ∀ k < mask + 1, Fitting (picked k items) := by
    intro k hk
    rcases Nat.lt_succ_iff_lt_or_eq.mp hk with hlt | rfl
    · exact h.fit k hlt
    · exact hs.fitting
  split_ifs with hmore
  · rw [Bool.and_eq_true, decide_eq_true_iff, decide_eq_true_iff, Int32.le_iff_toInt_le,
      Int32.lt_iff_toInt_lt] at hmore
    refine ⟨hfit, by omega, fun k hk hcap ↦ ?_,
      .inr ⟨picked mask items, picked_sublist mask items, by omega, hvalue.symm⟩⟩
    rcases Nat.lt_succ_iff_lt_or_eq.mp hk with hlt | rfl
    · exact Int.le_trans (h.bound k hlt hcap) (Int.le_of_lt hmore.2)
    · exact Int.le_of_eq hvalue.symm
  · rw [Bool.and_eq_true, decide_eq_true_iff, decide_eq_true_iff, Int32.le_iff_toInt_le,
      Int32.lt_iff_toInt_lt] at hmore
    refine ⟨hfit, hleast, fun k hk hcap ↦ ?_, h.reached⟩
    rcases Nat.lt_succ_iff_lt_or_eq.mp hk with hlt | rfl
    · exact h.bound k hlt hcap
    · omega

/-- `brute_knapsack` either stops at a choice of items whose total overflows,
or every choice fits and it returns the greatest value within the capacity,
where 0 stands for no such choice. -/
theorem brute_knapsack_best (items : List (Int32 × Int32)) (cap : Int32)
    (hw : m.Holds w (items.map Prod.fst)) (hv : m.Holds v (items.map Prod.snd))
    (hlen : items.length < 32) :
    (bruteKnapsack m w v items.length cap = .error .overflow ∧
        ∃ s, s.Sublist items ∧ ¬ Fitting s) ∨
      (∀ s, s.Sublist items → Fitting s) ∧
        ∃ best, bruteKnapsack m w v items.length cap = .ok best ∧
          IsGreatest {x : ℤ | x = 0 ∨ ∃ s, s.Sublist items ∧ weight s ≤ cap.toInt ∧ value s = x}
            best.toInt := by
  obtain ⟨hi, hshift, hval⟩ := shiftLeft_one hlen
  have htop : 2 ^ items.length < 2 ^ 32 := Nat.pow_lt_pow_right Nat.one_lt_two hlen
  have hloop : (∃ best, bruteKnapsack m w v items.length cap = .ok best ∧
      Richest items cap hi.toNat best) ∨
      ∃ e, bruteKnapsack m w v items.length cap = .error e ∧ e = .overflow ∧ Overweight items := by
    rw [bruteKnapsack, hshift, ok_bind]
    refine forRange_or_error _ (Richest items cap)
      (fun e : Fault ↦ e = .overflow ∧ Overweight items) (Nat.zero_le _) richest_zero ?_
    · intro mask _ hmask best h
      rcases totals_spec hw hv hlen (show mask < 2 ^ 32 by omega) with ⟨s, hrun, hs⟩ | ⟨e, hrun, he⟩
      · exact .inl ⟨_, by rw [hrun]; rfl, h.pass hs⟩
      · exact .inr ⟨e, by rw [hrun]; rfl, he⟩
  rcases hloop with ⟨best, hrun, hbest⟩ | ⟨e, hrun, rfl, hover⟩
  · refine .inr ⟨fun s hsub ↦ ?_, best, hrun, hbest.reached, ?_⟩
    · obtain ⟨mask, hmask, rfl⟩ := exists_mask hsub
      exact hbest.fit mask (hval ▸ hmask)
    · rintro x (rfl | ⟨s, hsub, hcap, rfl⟩)
      · exact hbest.least
      · obtain ⟨mask, hmask, rfl⟩ := exists_mask hsub
        exact hbest.bound mask (hval ▸ hmask) hcap
  · exact .inl ⟨hrun, hover⟩

theorem brute_knapsack_best_two :
    (bruteKnapsack (Memory.sample [3, 4, 5, 6] (by decide)) 100 102 2 5 = .error .overflow ∧
        ∃ s, s.Sublist [(3, 5), (4, 6)] ∧ ¬ Fitting s) ∨
      (∀ s, s.Sublist [(3, 5), (4, 6)] → Fitting s) ∧
        ∃ best, bruteKnapsack (Memory.sample [3, 4, 5, 6] (by decide)) 100 102 2 5 = .ok best ∧
          IsGreatest {x : ℤ | x = 0 ∨ ∃ s, s.Sublist [(3, 5), (4, 6)] ∧
            weight s ≤ (5 : Int32).toInt ∧ value s = x} best.toInt :=
  brute_knapsack_best [(3, 5), (4, 6)] 5 ((Memory.holds_sample _).within [] [5, 6])
    ((Memory.holds_sample _).within [3, 4] []) (by decide)

end LowLevel.ProperDS.StrdpMasks
