import LowLevel.Interview.MergeIntervals
import Mathlib.Algebra.Order.Field.Basic
import Mathlib.Algebra.Order.Field.Rat
import Mathlib.Data.Fintype.Card
import Mathlib.Data.Rat.Cast.Order

namespace LowLevel.Interview.MergeIntervals

open Basis.SortBy

variable {α β : Type*} [LinearOrder α] [LinearOrder β]
variable {l l' r : List (α × α)} {i j : α × α} {f : α → β} {x y : β}

theorem Canonical.tail (h : Canonical (i :: r)) : Canonical r :=
  ⟨fun k hk ↦ h.proper k (List.mem_cons_of_mem _ hk), (List.pairwise_cons.mp h.apart).2⟩

theorem Canonical.suffix {front : List (α × α)} (h : Canonical (front ++ r)) : Canonical r :=
  ⟨fun k hk ↦ h.proper k (List.mem_append_right _ hk), (List.pairwise_append.mp h.apart).2.1⟩

theorem Canonical.first (h : Canonical (i :: r)) : ∀ k ∈ i :: r, i.1 ≤ k.1 := by
  intro k hk
  rcases List.mem_cons.mp hk with rfl | hk
  · exact le_rfl
  · exact (h.proper i List.mem_cons_self).trans ((List.pairwise_cons.mp h.apart).1 k hk).le

theorem covered_start (h : ∀ k ∈ l, k.1 ≤ k.2) (hf : Monotone f) (hi : i ∈ l) :
    Covered f l (f i.1) := ⟨i, hi, le_rfl, hf (h i hi)⟩

theorem Canonical.head_le (h : Canonical (i :: r)) (h' : ∀ k ∈ j :: l', k.1 ≤ k.2)
    (hf : StrictMono f) (hsub : ∀ x, Covered f (j :: l') x → Covered f (i :: r) x) :
    i.1 ≤ j.1 := by
  obtain ⟨k, hk, hstart, -⟩ := hsub _ (covered_start h' hf.monotone List.mem_cons_self)
  exact (h.first k hk).trans (hf.le_iff_le.mp hstart)

/-- What the later intervals cover lies behind the first one. -/
theorem Canonical.covered_tail (h : Canonical (i :: r)) (hf : StrictMono f) :
    Covered f r x ↔ Covered f (i :: r) x ∧ f i.2 < x := by
  constructor
  · rintro ⟨k, hk, hlo, hhi⟩
    refine ⟨⟨k, List.mem_cons_of_mem _ hk, hlo, hhi⟩, ?_⟩
    exact (hf ((List.pairwise_cons.mp h.apart).1 k hk)).trans_le hlo
  · rintro ⟨⟨k, hk, hlo, hhi⟩, hbehind⟩
    rcases List.mem_cons.mp hk with rfl | hk
    · exact absurd hbehind (not_lt.mpr hhi)
    · exact ⟨k, hk, hlo, hhi⟩

theorem merged_canonical (h : ∀ i ∈ l, i.1 ≤ i.2) (hf : Monotone f) :
    Canonical (mergeIntervals l).1 ∧ ∀ x, Covered f (mergeIntervals l).1 x ↔ Covered f l x := by
  have hperm := sortBy_perm toLex l
  obtain ⟨hmerging, hcovered⟩ := merging_fold (sortBy toLex l)
    (fun i hi ↦ h i (hperm.mem_iff.mp hi)) (sort_starts l) f hf
  exact ⟨hmerging.canonical, fun x ↦ (hcovered x).trans (covered_perm hperm)⟩

section dense

variable [DenselyOrdered β]

/-- Right behind the first interval there are points that are not covered. -/
theorem Canonical.gap (h : Canonical (i :: r)) (hf : StrictMono f) (hy : f i.2 < y) :
    ∃ x, f i.2 < x ∧ x ≤ y ∧ ¬ Covered f (i :: r) x := by
  obtain ⟨x, hlo, hle, hrest⟩ : ∃ x, f i.2 < x ∧ x ≤ y ∧ ∀ k ∈ r, x < f k.1 := by
    cases r with
    | nil => exact ⟨y, hy, le_rfl, by simp⟩
    | cons j r =>
      have hnext : f i.2 < f j.1 := hf ((List.pairwise_cons.mp h.apart).1 j List.mem_cons_self)
      obtain ⟨x, hlo, hhi⟩ := exists_between (lt_min hy hnext)
      refine ⟨x, hlo, hhi.le.trans (min_le_left _ _), ?_⟩
      intro k hk
      have hbelow := hhi.trans_le (min_le_right _ _)
      exact hbelow.trans_le (hf.monotone (h.tail.first k hk))
  refine ⟨x, hlo, hle, ?_⟩
  rintro ⟨k, hk, hstart, hend⟩
  rcases List.mem_cons.mp hk with rfl | hk
  · exact absurd hlo (not_lt.mpr hend)
  · exact absurd (hrest k hk) (not_lt.mpr hstart)

theorem Canonical.end_le (h : Canonical (i :: r)) (hf : StrictMono f) (hstart : i.1 = j.1)
    (hsub : ∀ x, Covered f (j :: l') x → Covered f (i :: r) x) : j.2 ≤ i.2 := by
  by_contra hlt
  obtain ⟨x, hlo, hle, hno⟩ := h.gap hf (hf (not_le.mp hlt))
  refine hno (hsub x ⟨j, List.mem_cons_self, ?_, hle⟩)
  rw [← hstart]
  exact (hf.monotone (h.proper i List.mem_cons_self)).trans hlo.le

/-- The points decide the canonical list. -/
theorem Canonical.unique (h : Canonical l) (h' : Canonical l') (hf : StrictMono f)
    (heq : ∀ x, Covered f l x ↔ Covered f l' x) : l = l' := by
  induction l generalizing l' with
  | nil =>
    cases l' with
    | nil => rfl
    | cons j r' =>
      obtain ⟨k, hk, -⟩ := (heq _).mpr (covered_start h'.proper hf.monotone List.mem_cons_self)
      cases hk
  | cons i r ih =>
    cases l' with
    | nil =>
      obtain ⟨k, hk, -⟩ := (heq _).mp (covered_start h.proper hf.monotone List.mem_cons_self)
      cases hk
    | cons j r' =>
      have hstart : i.1 = j.1 := le_antisymm (h.head_le h'.proper hf (fun x ↦ (heq x).mpr))
        (h'.head_le h.proper hf (fun x ↦ (heq x).mp))
      have hend : i.2 = j.2 := le_antisymm (h'.end_le hf hstart.symm (fun x ↦ (heq x).mp))
        (h.end_le hf hstart (fun x ↦ (heq x).mpr))
      obtain rfl : i = j := Prod.ext hstart hend
      have htails : ∀ x, Covered f r x ↔ Covered f r' x := fun x ↦ by
        rw [h.covered_tail hf, h'.covered_tail hf, heq x]
      rw [ih h.tail h'.tail htails]

/-- Between two intervals of a canonical list there are points that are not covered. -/
theorem Canonical.between {front : List (α × α)} (h : Canonical (front ++ i :: r))
    (hf : StrictMono f) (hj : j ∈ r) :
    ∃ x, f i.2 < x ∧ x < f j.1 ∧ ¬ Covered f (front ++ i :: r) x := by
  have hsuffix := h.suffix
  obtain ⟨y, hlo, hhi⟩ := exists_between (hf ((List.pairwise_cons.mp hsuffix.apart).1 j hj))
  obtain ⟨x, hx, hle, hno⟩ := hsuffix.gap hf hlo
  refine ⟨x, hx, hle.trans_lt hhi, ?_⟩
  rw [covered_append]
  rintro (⟨k, hk, -, hend⟩ | hcov)
  · have hbefore := (List.pairwise_append.mp h.apart).2.2 k hk i List.mem_cons_self
    have hki : f k.2 ≤ f i.2 :=
      hf.monotone (hbefore.le.trans (hsuffix.proper i List.mem_cons_self))
    exact absurd (hx.trans_le hend) (not_lt.mpr hki)
  · exact hno hcov

/-- One interval of a list with the same points cannot meet two of a canonical one. -/
theorem Canonical.meets_one (h : Canonical l) (hf : StrictMono f)
    (heq : ∀ x, Covered f l x ↔ Covered f l' x) (hj : j ∈ l') {p q : Fin l.length}
    (hp : f j.1 ≤ f l[p].1) (hq : f l[q].1 ≤ f j.2) : q ≤ p := by
  by_contra hlt
  have hsplit : l = l.take p ++ l[(p : ℕ)] :: l.drop (p + 1) := by
    rw [← List.drop_eq_getElem_cons p.isLt, List.take_append_drop]
  have hmem : l[(q : ℕ)] ∈ l.drop (p + 1) := by
    have hlt' : (p : ℕ) < q := not_le.mp hlt
    refine List.mem_iff_getElem.mpr ⟨q - (p + 1), ?_, ?_⟩
    · rw [List.length_drop]
      omega
    · rw [List.getElem_drop]
      congr 1
      omega
  have hc := h
  rw [hsplit] at hc
  obtain ⟨x, hlo, hhi, hno⟩ := hc.between hf hmem
  rw [← hsplit] at hno
  refine hno ((heq x).mpr ⟨j, hj, ?_, hhi.le.trans hq⟩)
  exact hp.trans ((hf.monotone (h.proper _ (List.getElem_mem _))).trans hlo.le)

theorem Canonical.length_le (h : Canonical l) (hf : StrictMono f)
    (heq : ∀ x, Covered f l x ↔ Covered f l' x) : l.length ≤ l'.length := by
  have hmeet : ∀ p : Fin l.length, ∃ k : Fin l'.length,
      f l'[k].1 ≤ f l[p].1 ∧ f l[p].1 ≤ f l'[k].2 := by
    intro p
    obtain ⟨j, hj, hlo, hhi⟩ :=
      (heq _).mp (covered_start h.proper hf.monotone (List.getElem_mem p.isLt))
    obtain ⟨k, hk, rfl⟩ := List.mem_iff_getElem.mp hj
    exact ⟨⟨k, hk⟩, hlo, hhi⟩
  choose g hlo hhi using hmeet
  have hinj : Function.Injective g := by
    intro p q hpq
    apply le_antisymm
    · exact h.meets_one hf heq (List.getElem_mem (g q).isLt) (hlo q) (hpq ▸ hhi p)
    · exact h.meets_one hf heq (List.getElem_mem (g p).isLt) (hlo p) (hpq ▸ hhi q)
  have hcard := Fintype.card_le_of_injective g hinj
  rwa [Fintype.card_fin, Fintype.card_fin] at hcard

/-- `merge_intervals` is a complete normal form: two batches give the same
result exactly when they cover the same points, merging a batch into a result
gives what merging everything at once does, and no list of intervals with the
same points is shorter. -/
theorem merge_intervals_normal (l l' : List (α × α)) (h : ∀ i ∈ l, i.1 ≤ i.2)
    (h' : ∀ i ∈ l', i.1 ≤ i.2) (f : α → β) (hf : StrictMono f) :
    ((mergeIntervals l).1 = (mergeIntervals l').1 ↔ ∀ x, Covered f l x ↔ Covered f l' x) ∧
      (mergeIntervals ((mergeIntervals l).1 ++ l')).1 = (mergeIntervals (l ++ l')).1 ∧
      ((∀ x, Covered f l x ↔ Covered f l' x) → (mergeIntervals l).1.length ≤ l'.length) := by
  have hboth : ∀ {a b : List (α × α)}, (∀ i ∈ a, i.1 ≤ i.2) → (∀ i ∈ b, i.1 ≤ i.2) →
      ∀ i ∈ a ++ b, i.1 ≤ i.2 := fun ha hb i hi ↦ (List.mem_append.mp hi).elim (ha i) (hb i)
  obtain ⟨hc, hcov⟩ := merged_canonical h hf.monotone
  obtain ⟨hc', hcov'⟩ := merged_canonical h' hf.monotone
  refine ⟨⟨fun heq x ↦ ?_, fun heq ↦ ?_⟩, ?_, fun heq ↦ ?_⟩
  · rw [← hcov, heq, hcov']
  · exact hc.unique hc' hf (fun x ↦ by rw [hcov, heq, hcov'])
  · obtain ⟨hleft, hcovl⟩ := merged_canonical (hboth hc.proper h') hf.monotone
    obtain ⟨hright, hcovr⟩ := merged_canonical (hboth h h') hf.monotone
    refine hleft.unique hright hf (fun x ↦ ?_)
    rw [hcovl, hcovr, covered_append, covered_append, hcov]
  · exact hc.length_le hf (fun x ↦ by rw [hcov, heq])

end dense

theorem merge_intervals_normal_batches :
    (mergeIntervals ((mergeIntervals [(6, 7), (1, 4)]).1 ++ [((2 : ℤ), 6)])).1 =
      (mergeIntervals [(6, 7), (1, 4), (2, 6)]).1 :=
  (merge_intervals_normal [(6, 7), (1, 4)] [((2 : ℤ), 6)] (by decide) (by decide)
    (fun n : ℤ ↦ (n : ℚ)) Int.cast_strictMono).2.1

end LowLevel.Interview.MergeIntervals
