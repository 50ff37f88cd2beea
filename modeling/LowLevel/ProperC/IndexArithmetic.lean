import LowLevel.ProperC.Pointers

namespace LowLevel.ProperC.IndexArithmetic

open Basis.AddressSpace Basis.CArith Basis.ExchangeSort Basis.Loop Funcptr Pointers

/-- The state of the outer loop of `sort_ints`, with the passes made. -/
structure Sorting where
  i : ℕ
  mem : Memory Int32
  passes : ℕ

/-- The loop condition is evaluated on every pass, `n - 1` included. -/
def Sorting.pass (mode : Mode) (arr n : ℕ) (cmp : Int32 → Int32 → Int32) (s : Sorting) :
    Except Fault (Sorting ⊕ Sorting) := do
  let bound ← mode.sub n 1
  if s.i < bound then
    let j ← mode.add s.i 1
    let m ← (forRange (sortPass arr cmp s.i) j n s.mem : Except Stop _)
    let i ← mode.add s.i 1
    return .inr ⟨i, m, s.passes + 1⟩
  return .inl s

def sortLoop (fuel : ℕ) (mode : Mode) (m : Memory Int32) (arr n : ℕ)
    (cmp : Int32 → Int32 → Int32) : Except Fault Sorting :=
  loopFuel (.memory .timeout) (Sorting.pass mode arr n cmp) fuel ⟨0, m, 0⟩

variable {m : Memory Int32} {arr n : ℕ} {l : List Int32} {cmp : Int32 → Int32 → Int32}
  {mode : Mode} {s : Sorting}

structure Sweeping (m : Memory Int32) (arr : ℕ) (cmp : Int32 → Int32 → Int32) (l : List Int32)
    (s : Sorting) : Prop where
  index : s.i = s.passes
  content : Content m arr l.length s.mem
    (foldRange (sweep (greater cmp) l.length) 0 s.passes l)

theorem Sweeping.step (h : Sweeping m arr cmp l s) (htop : l.length < 2 ^ 64)
    (hlt : s.passes + 1 < l.length) :
    ∃ s', Sorting.pass mode arr l.length cmp s = .ok (.inr s') ∧ s'.passes = s.passes + 1 ∧
      Sweeping m arr cmp l s' := by
  have hindex := h.index
  obtain ⟨m', hrun, hc⟩ := sortSweep_content cmp h.content (show s.i < l.length by omega)
  refine ⟨⟨s.i + 1, m', s.passes + 1⟩, ?_, rfl, congrArg (· + 1) h.index, ?_⟩
  · rw [Sorting.pass, mode.sub_of_le (by omega) htop, ok_bind, if_pos (by omega),
      mode.add_of_lt (by omega), ok_bind, lift_ok hrun, ok_bind, ok_bind]
    rfl
  · rw [foldRange_succ (Nat.zero_le _), ← hindex]
    rw [← hindex] at hc
    exact hc

theorem Sweeping.finish (h : Sweeping m arr cmp l s) (htop : l.length < 2 ^ 64)
    (hpos : 0 < l.length) (heq : s.passes + 1 = l.length) :
    Sorting.pass mode arr l.length cmp s = .ok (.inl s) := by
  have hindex := h.index
  rw [Sorting.pass, mode.sub_of_le hpos htop, ok_bind, if_neg (by omega)]
  rfl

/-- The state after the last pass. -/
structure Swept (m : Memory Int32) (arr : ℕ) (cmp : Int32 → Int32 → Int32) (l : List Int32)
    (s : Sorting) : Prop where
  index : s.i = s.passes
  passes : s.passes = l.length - 1
  content : Content m arr l.length s.mem (exchangeSort (greater cmp) l)

theorem Swept.unique {s' : Sorting} (h : Swept m arr cmp l s) (h' : Swept m arr cmp l s') :
    s = s' := by
  have hmem := h.content.ext h'.content
  have hpasses := h.passes.trans h'.passes.symm
  have hindex := h.index.trans (hpasses.trans h'.index.symm)
  cases s with
  | mk i mem passes =>
    cases s' with
    | mk i' mem' passes' =>
      simp only [Sorting.mk.injEq]
      exact ⟨hindex, hmem, hpasses⟩

theorem sortLoop_ok (mode : Mode) (cmp : Int32 → Int32 → Int32) (h : m.Holds arr l)
    (hpos : 0 < l.length) {fuel : ℕ} (hfuel : l.length ≤ fuel) :
    ∃ s, sortLoop fuel mode m arr l.length cmp = .ok s ∧ Swept m arr cmp l s := by
  have htop := h.length_lt
  refine loopFuel_ok _ (fun k s ↦ Sweeping m arr cmp l s ∧ s.passes + k + 1 = l.length) _ ?_
    (n := l.length - 1) (by omega) ⟨⟨rfl, ?_⟩, ?_⟩
  · intro k s hs
    obtain ⟨hsweep, hcount⟩ := hs
    cases k with
    | zero =>
      refine .inl ⟨s, hsweep.finish htop hpos hcount, hsweep.index, by omega, ?_⟩
      have hlast : s.passes = l.length - 1 := by omega
      rw [exchangeSort, ← hlast]
      exact hsweep.content
    | succ k =>
      obtain ⟨s', hpass, hpasses, hsweep'⟩ := hsweep.step htop (by omega)
      exact .inr ⟨k, s', rfl, hpass, hsweep', by omega⟩
  · rw [foldRange_empty (Nat.le_refl 0)]
    exact ⟨rfl, h, fun _ _ ↦ rfl⟩
  · rw [Nat.zero_add]
    exact Nat.sub_add_cancel hpos

theorem sortLoop_returns (cmp : Int32 → Int32 → Int32) (h : m.Holds arr l) (hpos : 0 < l.length) :
    ∃ s, (∀ mode, Returns (fun fuel ↦ sortLoop fuel mode m arr l.length cmp) s) ∧
      Swept m arr cmp l s := by
  exact exists_returns_all (fun mode _ hfuel ↦ sortLoop_ok mode cmp h hpos hfuel)
    (fun _ _ ↦ Swept.unique)

/-- With `n = 0` the bound is `2 ^ 64 - 1`, and the outer loop goes all the way. -/
theorem sortLoop_empty (m : Memory Int32) (arr : ℕ) (cmp : Int32 → Int32 → Int32) :
    ∃ s, Returns (fun fuel ↦ sortLoop fuel .wrapping m arr 0 cmp) s ∧
      s.passes = 2 ^ 64 - 1 ∧ s.mem = m := by
  have hbound : Mode.wrapping.sub 0 1 = .ok (2 ^ 64 - 1) := congrArg Except.ok sizeSub_zero_one
  have hrun : ∀ fuel, 2 ^ 64 ≤ fuel → ∃ s, sortLoop fuel .wrapping m arr 0 cmp = .ok s ∧
      s.i = 2 ^ 64 - 1 ∧ s.mem = m ∧ s.passes = 2 ^ 64 - 1 := by
    intro fuel hfuel
    refine loopFuel_ok _ (fun k s ↦ s.i = s.passes ∧ s.mem = m ∧ s.passes + k = 2 ^ 64 - 1) _ ?_
      (show 2 ^ 64 - 1 < fuel by omega) ⟨rfl, rfl, Nat.zero_add _⟩
    intro k s hs
    obtain ⟨hindex, hmem, hcount⟩ := hs
    cases k with
    | zero =>
      refine .inl ⟨s, ?_, by omega, hmem, hcount⟩
      rw [Sorting.pass, hbound, ok_bind, if_neg (by omega)]
      rfl
    | succ k =>
      refine .inr ⟨k, ⟨s.i + 1, s.mem, s.passes + 1⟩, rfl, ?_, congrArg (· + 1) hindex, hmem, ?_⟩
      · rw [Sorting.pass, hbound, ok_bind, if_pos (by omega),
          Mode.add_of_lt .wrapping (by omega), ok_bind,
          lift_ok (forRange_empty (Nat.zero_le _)), ok_bind, ok_bind]
        rfl
      · simp only
        omega
  obtain ⟨s, hret, -, hmem, hpasses⟩ := exists_returns hrun (by
    intro s s' h h'
    cases s with
    | mk i mem passes =>
      cases s' with
      | mk i' mem' passes' =>
        simp only at h h'
        simp only [Sorting.mk.injEq]
        exact ⟨h.1.trans h'.1.symm, h.2.1.trans h'.2.1.symm, h.2.2.trans h'.2.2.symm⟩)
  exact ⟨s, hret, hpasses, hmem⟩

/-- Without a wrap the run is that of the machine, pass by pass. -/
def SortExact (m : Memory Int32) (arr n : ℕ) (cmp : Int32 → Int32 → Int32) : Prop :=
  ∃ s, (∀ mode, Returns (fun fuel ↦ sortLoop fuel mode m arr n cmp) s) ∧ s.passes = n - 1

def ReverseExact (m : Memory Int32) (arr n : ℕ) : Prop :=
  ∃ s, (∀ mode, Returns (fun fuel ↦ reverseLoop fuel mode m arr n) s) ∧ s.passes = n / 2

theorem not_sortExact_zero (m : Memory Int32) (arr : ℕ) (cmp : Int32 → Int32 → Int32) :
    ¬ SortExact m arr 0 cmp := by
  intro h
  obtain ⟨s, hret, -⟩ := h
  obtain ⟨k, hk⟩ := hret .checked
  have hok := hk (k + 1) (Nat.le_succ k)
  cases hok

theorem index_arithmetic_exact_iff (cmp : Int32 → Int32 → Int32) (h : m.Holds arr l) :
    ReverseExact m arr l.length ∧
      (SortExact m arr l.length cmp ∧ ReverseExact m arr l.length ↔ l ≠ []) := by
  have hreverse : ReverseExact m arr l.length := by
    obtain ⟨s, hret, hpasses, -⟩ := reverseLoop_returns h
    exact ⟨s, hret, hpasses⟩
  refine ⟨hreverse, ?_, ?_⟩
  · intro hexact heq
    rw [heq] at hexact
    exact not_sortExact_zero m arr cmp hexact.1
  · intro hne
    obtain ⟨s, hret, hs⟩ := sortLoop_returns cmp h (List.length_pos_iff.mpr hne)
    exact ⟨⟨s, hret, hs.passes⟩, hreverse⟩

theorem index_arithmetic_three :
    SortExact (Memory.sample [3, 1, 2] (by decide)) 100 3 (fun _ _ ↦ 1) :=
  ((index_arithmetic_exact_iff _
    (Memory.holds_sample (l := [3, 1, 2]) (by decide))).2.mpr (List.cons_ne_nil 3 [1, 2])).1

theorem sort_empty_wraps :
    ¬ (SortExact (Memory.sample [] (by decide)) 100 0 (fun _ _ ↦ 1) ∧
      ReverseExact (Memory.sample [] (by decide)) 100 0) :=
  fun h ↦ not_sortExact_zero _ 100 _ h.1

end LowLevel.ProperC.IndexArithmetic
