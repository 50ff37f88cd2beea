import LowLevel.ProperC.Funcptr

namespace LowLevel.ProperC.FuncptrSort

open Basis.AddressSpace Basis.ExchangeSort Funcptr

/-- A comparator like `asc` and `desc`: a total preorder with results -1, 0, 1. -/
structure ThreeWay (cmp : Int32 → Int32 → Int32) : Prop where
  range : ∀ a b, cmp a b = -1 ∨ cmp a b = 0 ∨ cmp a b = 1
  antisymm : ∀ a b, cmp a b = -cmp b a
  trans : ∀ a b c, cmp a b ≤ 0 → cmp b c ≤ 0 → cmp a c ≤ 0

variable {cmp : Int32 → Int32 → Int32}

theorem ThreeWay.not_greater (h : ThreeWay cmp) (a b : Int32) :
    greater cmp a b = false ↔ cmp a b ≤ 0 := by
  rcases h.range a b with hr | hr | hr <;> rw [greater, hr] <;> decide

theorem ThreeWay.ranking (h : ThreeWay cmp) : Ranking (greater cmp) where
  asymm a b hgt := by
    have hab : cmp a b = 1 := beq_iff_eq.mp hgt
    rw [h.not_greater, h.antisymm, hab]
    decide
  trans a b c hab hbc := by
    rw [h.not_greater] at hab hbc ⊢
    exact h.trans a b c hab hbc

/-- `sort_ints` permutes the array whatever the comparator answers, and sorts
it by a three-way one. The memory may hold nothing but the array. -/
theorem sort_ints_sorts (cmp : Int32 → Int32 → Int32) (l : List Int32) (hn : 1 ≤ l.length) :
    ∃ l', l'.Perm l ∧ (ThreeWay cmp → l'.Pairwise (fun a b ↦ cmp a b ≤ 0)) ∧
      ∀ (m : Memory Int32) (arr : ℕ), m.Holds arr l →
        ∃ m', sortInts m arr l.length cmp = .ok m' ∧ m'.Holds arr l' ∧
          Memory.Outside arr (arr + l.length) m m' := by
  refine ⟨exchangeSort (greater cmp) l, exchangeSort_perm _ l, ?_, ?_⟩
  · intro h
    apply (exchangeSort_sorted h.ranking l).imp
    intro a b hab
    exact (h.not_greater a b).mp hab
  · intro m arr hm
    obtain ⟨m', hrun, hcontent⟩ := sortInts_content cmp hn hm
    exact ⟨m', hrun, hcontent.holds, hcontent.frame⟩

def asc (a b : Int32) : Int32 := (if a > b then 1 else 0) - (if a < b then 1 else 0)

theorem asc_cases (a b : Int32) :
    a < b ∧ asc a b = -1 ∨ a = b ∧ asc a b = 0 ∨ b < a ∧ asc a b = 1 := by
  rcases Int.lt_trichotomy a.toInt b.toInt with hlt | heq | hgt
  · have hab : a < b := Int32.lt_iff_toInt_lt.mpr hlt
    have hba : ¬ a > b := Int32.lt_asymm hab
    exact .inl ⟨hab, by rw [asc, if_neg hba, if_pos hab]; rfl⟩
  · obtain rfl := Int32.toInt_inj.mp heq
    exact .inr (.inl ⟨rfl, by simp [asc]⟩)
  · have hba : b < a := Int32.lt_iff_toInt_lt.mpr hgt
    have hab : ¬ a < b := Int32.lt_asymm hba
    exact .inr (.inr ⟨hba, by rw [asc, if_pos hba, if_neg hab]; rfl⟩)

theorem asc_range (a b : Int32) : asc a b = -1 ∨ asc a b = 0 ∨ asc a b = 1 := by
  rcases asc_cases a b with ⟨-, h⟩ | ⟨-, h⟩ | ⟨-, h⟩
  · exact .inl h
  · exact .inr (.inl h)
  · exact .inr (.inr h)

theorem asc_le_iff (a b : Int32) : asc a b ≤ 0 ↔ a ≤ b := by
  rcases asc_cases a b with ⟨hlt, hasc⟩ | ⟨rfl, hasc⟩ | ⟨hgt, hasc⟩
  · rw [hasc]
    exact iff_of_true (by decide) (Int32.le_of_lt hlt)
  · rw [hasc]
    exact iff_of_true (by decide) (Int32.le_refl a)
  · rw [hasc]
    exact iff_of_false (by decide) (Int32.not_le.mpr hgt)

theorem asc_threeWay : ThreeWay asc where
  range := asc_range
  antisymm a b := by rw [asc, asc, Int32.neg_sub]
  trans a b c hab hbc := by
    rw [asc_le_iff] at hab hbc ⊢
    exact Int32.le_trans hab hbc

theorem sort_ints_sorts_two :
    ∃ l', l'.Perm [3, 1] ∧ l'.Pairwise (fun a b ↦ asc a b ≤ 0) ∧
      ∃ m', sortInts (Memory.ofList 100 [3, 1] (by omega) (by simp)) 100 2 asc = .ok m' ∧
        m'.Holds 100 l' := by
  obtain ⟨l', hperm, hsorted, hrun⟩ := sort_ints_sorts asc [3, 1] (by simp)
  obtain ⟨m', hok, hholds, -⟩ := hrun _ 100 (Memory.holds_ofList (by omega) (by simp))
  exact ⟨l', hperm, hsorted asc_threeWay, m', hok, hholds⟩

def SameSign (c₁ c₂ : Int32 → Int32 → Int32) : Prop :=
  ∀ a b, (c₁ a b).toInt.sign = (c₂ a b).toInt.sign

variable {c₁ c₂ : Int32 → Int32 → Int32} {a b : Int32}

theorem SameSign.pos_of_greater (h : SameSign c₁ c₂) (hgt : c₂ a b = 1) : 0 < c₁ a b := by
  have hsign : (c₁ a b).toInt.sign = 1 := by rw [h a b, hgt]; rfl
  have hpos := Int.sign_eq_one_iff_pos.mp hsign
  exact Int32.lt_iff_toInt_lt.mpr hpos

theorem SameSign.greater_eq (h : SameSign c₁ c₂)
    (hone : 0 < c₁ a b → (c₁ a b = 1 ↔ c₂ a b = 1)) : greater c₁ a b = greater c₂ a b := by
  rw [greater, greater, Bool.eq_iff_iff, beq_iff_eq, beq_iff_eq]
  constructor
  · intro h₁
    have hpos : 0 < c₁ a b := by rw [h₁]; decide
    exact (hone hpos).mp h₁
  · intro h₂
    exact (hone (h.pos_of_greater h₂)).mpr h₂

/-- Sorting with either of two comparators of the same sign leaves the same
array, for all arrays over the given values, exactly when both answer 1 for
the same pairs of different values. -/
theorem sort_ints_sign_iff (c₁ c₂ : Int32 → Int32 → Int32) (hsign : SameSign c₁ c₂)
    (values : Set Int32) :
    (∀ l : List Int32, 1 ≤ l.length → (∀ a ∈ l, a ∈ values) → ∀ (m : Memory Int32) (arr : ℕ),
        m.Holds arr l → ∃ m', sortInts m arr l.length c₁ = .ok m' ∧
          sortInts m arr l.length c₂ = .ok m') ↔
      ∀ a ∈ values, ∀ b ∈ values, a ≠ b → 0 < c₁ a b → (c₁ a b = 1 ↔ c₂ a b = 1) := by
  constructor
  · intro h a ha b hb hab hpos
    have hholds := Memory.holds_ofList (p := 1) (l := [a, b]) (by omega) (by simp)
    obtain ⟨m', hrun₁, hrun₂⟩ := h [a, b] (by simp) (by simp [ha, hb]) _ 1 hholds
    obtain ⟨m₁, hrun₁', hc₁⟩ := sortInts_content c₁ (by simp) hholds
    obtain ⟨m₂, hrun₂', hc₂⟩ := sortInts_content c₂ (by simp) hholds
    rw [hrun₁] at hrun₁'
    rw [hrun₂] at hrun₂'
    cases hrun₁'
    cases hrun₂'
    have hsame := hc₁.holds.inj hc₂.holds (hc₁.length.trans hc₂.length.symm)
    rw [exchangeSort_pair, exchangeSort_pair] at hsame
    have hgreater : greater c₁ a b = greater c₂ a b := by
      cases h₁ : greater c₁ a b <;> cases h₂ : greater c₂ a b <;> simp_all
    rwa [greater, greater, Bool.eq_iff_iff, beq_iff_eq, beq_iff_eq] at hgreater
  · intro h l hn hl m arr hm
    obtain ⟨m₁, hrun₁, hc₁⟩ := sortInts_content c₁ hn hm
    obtain ⟨m₂, hrun₂, hc₂⟩ := sortInts_content c₂ hn hm
    have hsame : exchangeSort (greater c₁) l = exchangeSort (greater c₂) l := by
      apply exchangeSort_congr
      intro a ha b hb hab
      exact hsign.greater_eq (h a (hl a ha) b (hl b hb) hab)
    rw [hsame] at hc₁
    exact ⟨m₁, hrun₁, by rw [hc₁.ext hc₂, hrun₂]⟩

/-- `asc` with results of twice the size. -/
def ascTwice (a b : Int32) : Int32 := asc a b + asc a b

theorem ascTwice_sameSign : SameSign asc ascTwice := by
  intro a b
  rcases asc_range a b with h | h | h <;> rw [ascTwice, h] <;> rfl

theorem sort_ints_magnitude :
    SameSign asc ascTwice ∧
      (∃ m, sortInts (Memory.ofList 100 [3, 1] (by omega) (by simp)) 100 2 asc = .ok m ∧
        m.Holds 100 [1, 3]) ∧
      ∃ m, sortInts (Memory.ofList 100 [3, 1] (by omega) (by simp)) 100 2 ascTwice = .ok m ∧
        m.Holds 100 [3, 1] := by
  have hholds := Memory.holds_ofList (p := 100) (l := ([3, 1] : List Int32)) (by omega) (by simp)
  obtain ⟨m₁, hrun₁, hc₁⟩ := sortInts_content asc (by simp) hholds
  obtain ⟨m₂, hrun₂, hc₂⟩ := sortInts_content ascTwice (by simp) hholds
  exact ⟨ascTwice_sameSign, ⟨m₁, hrun₁, hc₁.holds⟩, ⟨m₂, hrun₂, hc₂.holds⟩⟩

def ascSteep (a b : Int32) : Int32 := if asc a b = -1 then -2 else asc a b

theorem ascSteep_sameSign : SameSign asc ascSteep := by
  intro a b
  rcases asc_range a b with h | h | h <;> rw [ascSteep, h] <;> rfl

theorem ascSteep_one (a b : Int32) (hpos : 0 < asc a b) : asc a b = 1 ↔ ascSteep a b = 1 := by
  rcases asc_range a b with h | h | h
  · rw [h] at hpos
    exact absurd hpos (by decide)
  · rw [h] at hpos
    exact absurd hpos (by decide)
  · rw [ascSteep, h]
    decide

theorem sort_ints_sign_steep :
    ∃ m, sortInts (Memory.ofList 100 [3, 1] (by omega) (by simp)) 100 2 asc = .ok m ∧
      sortInts (Memory.ofList 100 [3, 1] (by omega) (by simp)) 100 2 ascSteep = .ok m :=
  (sort_ints_sign_iff asc ascSteep ascSteep_sameSign Set.univ).mpr
    (fun a _ b _ _ hpos ↦ ascSteep_one a b hpos) [3, 1] (by simp) (fun _ _ ↦ trivial) _ 100
    (Memory.holds_ofList (by omega) (by simp))

end LowLevel.ProperC.FuncptrSort
