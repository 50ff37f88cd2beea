import LowLevel.Basis.SortBy
import Mathlib.Data.List.Induction
import Mathlib.Data.Prod.Lex
import Mathlib.Order.MinMax

namespace LowLevel.Interview.MergeIntervals

open Basis.SortBy

section Source

variable {α : Type*} [LinearOrder α]

/-- One pass of the loop. Lists `[start, end]` compare like pairs. -/
def mergeStep (merged : List (α × α)) (interval : α × α) : List (α × α) :=
  match merged.getLast? with
  | some last =>
    if interval.1 ≤ last.2 then merged.dropLast ++ [(last.1, max last.2 interval.2)]
    else merged ++ [(interval.1, interval.2)]
  | none => merged ++ [(interval.1, interval.2)]

/-- `merge_intervals`, with the caller's list as `sort` leaves it. -/
def mergeIntervals (intervals : List (α × α)) : List (α × α) × List (α × α) :=
  let intervals := sortBy toLex intervals
  (intervals.foldl mergeStep [], intervals)

end Source

section Covered

variable {α β : Type*} [LinearOrder β] {l l' : List (α × α)} {interval : α × α} {f : α → β} {x : β}

/-- The points of the intervals, read in `β` through `f`. -/
def Covered (f : α → β) (l : List (α × α)) (x : β) : Prop := ∃ i ∈ l, f i.1 ≤ x ∧ x ≤ f i.2

theorem covered_append : Covered f (l ++ l') x ↔ Covered f l x ∨ Covered f l' x := by
  simp only [Covered, List.mem_append, or_and_right, exists_or]

theorem covered_singleton : Covered f [interval] x ↔ f interval.1 ≤ x ∧ x ≤ f interval.2 := by
  simp [Covered]

theorem covered_perm (h : l.Perm l') : Covered f l x ↔ Covered f l' x := by
  simp only [Covered, h.mem_iff]

end Covered

variable {α β : Type*} [LinearOrder α] [LinearOrder β]
variable {l l' init merged : List (α × α)} {last interval : α × α} {f : α → β} {x : β}

theorem mergeStep_touching (h : interval.1 ≤ last.2) :
    mergeStep (init ++ [last]) interval = init ++ [(last.1, max last.2 interval.2)] := by
  rw [mergeStep, List.getLast?_concat, List.dropLast_concat]
  exact if_pos h

theorem mergeStep_apart (h : ∀ last, merged.getLast? = some last → last.2 < interval.1) :
    mergeStep merged interval = merged ++ [interval] := by
  unfold mergeStep
  split
  · rename_i last hlast
    exact if_neg (not_le.mpr (h last hlast))
  · rfl

theorem covered_touching (hf : Monotone f) (hlast : last.1 ≤ interval.1)
    (htouch : interval.1 ≤ last.2) :
    Covered f [(last.1, max last.2 interval.2)] x ↔
      Covered f [last] x ∨ Covered f [interval] x := by
  rw [covered_singleton, covered_singleton, covered_singleton, hf.map_max, le_max_iff]
  constructor
  · intro h
    obtain ⟨hlo, hhi⟩ := h
    rcases le_total x (f last.2) with hle | hge
    · exact .inl ⟨hlo, hle⟩
    · rcases hhi with hhi | hhi
      · exact .inl ⟨hlo, hhi⟩
      · exact .inr ⟨(hf htouch).trans hge, hhi⟩
  · intro h
    rcases h with ⟨hlo, hhi⟩ | ⟨hlo, hhi⟩
    · exact ⟨hlo, .inl hhi⟩
    · exact ⟨(hf hlast).trans hlo, .inr hhi⟩

/-- Proper intervals, each ending before the next one starts. -/
structure Canonical (merged : List (α × α)) : Prop where
  proper : ∀ i ∈ merged, i.1 ≤ i.2
  apart : merged.Pairwise (fun i j ↦ i.2 < j.1)

/-- The loop after the intervals of `l`. -/
structure Merging (l merged : List (α × α)) : Prop where
  canonical : Canonical merged
  starts : ∀ i ∈ merged, ∃ j ∈ l, i.1 = j.1
  ends : ∀ i ∈ merged, ∃ j ∈ l, i.2 = j.2

theorem Canonical.append (h : Canonical merged) (hproper : interval.1 ≤ interval.2)
    (hlast : ∀ last, merged.getLast? = some last → last.2 < interval.1) :
    Canonical (merged ++ [interval]) where
  proper := by
    intro i hi
    rcases List.mem_append.mp hi with hi | hi
    · exact h.proper i hi
    · rw [List.mem_singleton.mp hi]
      exact hproper
  apart := by
    rw [List.pairwise_append]
    refine ⟨h.apart, List.pairwise_singleton _ _, ?_⟩
    intro i hi j hj
    rw [List.mem_singleton.mp hj]
    rcases List.eq_nil_or_concat' merged with rfl | ⟨init, last, rfl⟩
    · cases hi
    · have hend := hlast last (List.getLast?_concat ..)
      rcases List.mem_append.mp hi with hi | hi
      · have hbefore := (List.pairwise_append.mp h.apart).2.2 i hi last (List.mem_singleton_self _)
        exact hbefore.trans ((h.proper last (by simp)).trans_lt hend)
      · rw [List.mem_singleton.mp hi]
        exact hend

theorem Canonical.widen {e : α} (h : Canonical (init ++ [last])) (he : last.2 ≤ e) :
    Canonical (init ++ [(last.1, e)]) where
  proper := by
    intro i hi
    rcases List.mem_append.mp hi with hi | hi
    · exact h.proper i (List.mem_append_left _ hi)
    · rw [List.mem_singleton.mp hi]
      exact (h.proper last (by simp)).trans he
  apart := by
    obtain ⟨hinit, -, hbefore⟩ := List.pairwise_append.mp h.apart
    refine List.pairwise_append.mpr ⟨hinit, List.pairwise_singleton _ _, ?_⟩
    intro i hi j hj
    rw [List.mem_singleton.mp hj]
    exact hbefore i hi last (List.mem_singleton_self _)

theorem Merging.step (h : Merging l merged) (hproper : interval.1 ≤ interval.2)
    (hsorted : ∀ i ∈ l, i.1 ≤ interval.1) :
    Merging (l ++ [interval]) (mergeStep merged interval) ∧
      ∀ (f : α → β), Monotone f → ∀ x, Covered f (mergeStep merged interval) x ↔
        Covered f merged x ∨ Covered f [interval] x := by
  have hold : ∀ {P : α × α → Prop}, (∃ j ∈ l, P j) → ∃ j ∈ l ++ [interval], P j := by
    intro P hex
    obtain ⟨j, hj, hP⟩ := hex
    exact ⟨j, List.mem_append_left _ hj, hP⟩
  by_cases htouch : ∃ last, merged.getLast? = some last ∧ interval.1 ≤ last.2
  · obtain ⟨last, hlast, htouch⟩ := htouch
    obtain ⟨init, rfl⟩ : ∃ init, merged = init ++ [last] :=
      ⟨_, (List.dropLast_append_getLast? last hlast).symm⟩
    obtain ⟨j, hj, hstart⟩ := h.starts last (by simp)
    have hle : last.1 ≤ interval.1 := hstart.trans_le (hsorted j hj)
    rw [mergeStep_touching htouch]
    refine ⟨⟨h.canonical.widen (le_max_left _ _), ?_, ?_⟩, ?_⟩
    · intro i hi
      rcases List.mem_append.mp hi with hi | hi
      · exact hold (h.starts i (List.mem_append_left _ hi))
      · rw [List.mem_singleton.mp hi]
        exact hold ⟨j, hj, hstart⟩
    · intro i hi
      rcases List.mem_append.mp hi with hi | hi
      · exact hold (h.ends i (List.mem_append_left _ hi))
      · rw [List.mem_singleton.mp hi]
        rcases max_choice last.2 interval.2 with hmax | hmax
        · rw [hmax]
          exact hold (h.ends last (by simp))
        · rw [hmax]
          exact ⟨interval, by simp, rfl⟩
    · intro f hf x
      rw [covered_append, covered_append, covered_touching hf hle htouch, or_assoc]
  · have hapart : ∀ last, merged.getLast? = some last → last.2 < interval.1 := by
      intro last hlast
      exact not_le.mp (fun hle ↦ htouch ⟨last, hlast, hle⟩)
    rw [mergeStep_apart hapart]
    refine ⟨⟨h.canonical.append hproper hapart, ?_, ?_⟩, fun f _ x ↦ covered_append⟩
    · intro i hi
      rcases List.mem_append.mp hi with hi | hi
      · exact hold (h.starts i hi)
      · exact ⟨interval, by simp, by rw [List.mem_singleton.mp hi]⟩
    · intro i hi
      rcases List.mem_append.mp hi with hi | hi
      · exact hold (h.ends i hi)
      · exact ⟨interval, by simp, by rw [List.mem_singleton.mp hi]⟩

theorem merging_fold (l : List (α × α)) (hproper : ∀ i ∈ l, i.1 ≤ i.2)
    (hsorted : l.Pairwise (fun i j ↦ i.1 ≤ j.1)) (f : α → β) (hf : Monotone f) :
    Merging l (l.foldl mergeStep []) ∧
      ∀ x, Covered f (l.foldl mergeStep []) x ↔ Covered f l x := by
  induction l using List.reverseRecOn with
  | nil => exact ⟨⟨⟨by simp, List.Pairwise.nil⟩, by simp, by simp⟩, fun x ↦ Iff.rfl⟩
  | append_singleton l interval ih =>
    obtain ⟨hl, -, hbefore⟩ := List.pairwise_append.mp hsorted
    obtain ⟨hmerging, hcovered⟩ := ih (fun i hi ↦ hproper i (List.mem_append_left _ hi)) hl
    obtain ⟨hstep, hpoints⟩ := hmerging.step (β := β) (hproper interval (by simp))
      (fun i hi ↦ hbefore i hi interval (List.mem_singleton_self _))
    rw [List.foldl_concat]
    exact ⟨hstep, fun x ↦ by rw [hpoints f hf, hcovered, covered_append]⟩

theorem fold_canonical (h : Canonical l) : l.foldl mergeStep [] = l := by
  induction l using List.reverseRecOn with
  | nil => rfl
  | append_singleton l interval ih =>
    obtain ⟨hl, -, hbefore⟩ := List.pairwise_append.mp h.apart
    rw [List.foldl_concat, ih ⟨fun i hi ↦ h.proper i (List.mem_append_left _ hi), hl⟩]
    apply mergeStep_apart
    intro last hlast
    exact hbefore last (List.mem_of_getLast? hlast) interval (List.mem_singleton_self _)

theorem sort_starts (l : List (α × α)) :
    (sortBy toLex l).Pairwise (fun i j ↦ i.1 ≤ j.1) := by
  apply (sortBy_pairwise toLex l).imp
  intro i j hij
  rcases Prod.Lex.toLex_le_toLex.mp hij with hlt | ⟨heq, -⟩
  · exact hlt.le
  · exact heq.le

theorem Canonical.fixed (h : Canonical l) : (mergeIntervals l).1 = l := by
  have hsorted : l.Pairwise (fun i j ↦ toLex i ≤ toLex j) := by
    apply List.Pairwise.imp_of_mem _ h.apart
    intro i j hi _ hij
    exact Prod.Lex.toLex_le_toLex.mpr (.inl ((h.proper i hi).trans_lt hij))
  rw [mergeIntervals, sortBy_of_pairwise hsorted]
  exact fold_canonical h

/-- `merge_intervals` returns the canonical cover: proper intervals in order,
nothing touching, with the same points (in every linear order the numbers
embed in) and no new bounds, whatever the order of the input. -/
theorem merge_intervals_canonical (l : List (α × α)) (h : ∀ i ∈ l, i.1 ≤ i.2) (f : α → β)
    (hf : Monotone f) :
    (∀ i ∈ (mergeIntervals l).1, i.1 ≤ i.2) ∧
      (mergeIntervals l).1.Pairwise (fun i j ↦ i.2 < j.1) ∧
      (∀ x, Covered f (mergeIntervals l).1 x ↔ Covered f l x) ∧
      (∀ i ∈ (mergeIntervals l).1, (∃ j ∈ l, i.1 = j.1) ∧ ∃ j ∈ l, i.2 = j.2) ∧
      (∀ l', l'.Perm l → (mergeIntervals l').1 = (mergeIntervals l).1) ∧
      (mergeIntervals (mergeIntervals l).1).1 = (mergeIntervals l).1 := by
  have hperm := sortBy_perm toLex l
  obtain ⟨hmerging, hcovered⟩ := merging_fold (sortBy toLex l)
    (fun i hi ↦ h i (hperm.mem_iff.mp hi)) (sort_starts l) f hf
  refine ⟨hmerging.canonical.proper, hmerging.canonical.apart, ?_, ?_, ?_, ?_⟩
  · intro x
    exact (hcovered x).trans (covered_perm hperm)
  · intro i hi
    obtain ⟨j, hj, hstart⟩ := hmerging.starts i hi
    obtain ⟨k, hk, hend⟩ := hmerging.ends i hi
    exact ⟨⟨j, hperm.mem_iff.mp hj, hstart⟩, k, hperm.mem_iff.mp hk, hend⟩
  · intro l' hl'
    rw [mergeIntervals, mergeIntervals, sortBy_congr toLex.injective hl']
  · exact hmerging.canonical.fixed

theorem merge_intervals_overlap :
    (mergeIntervals [(6, 7), (2, 6), (1, 4), ((9 : ℤ), 9)]).1.Pairwise (fun i j ↦ i.2 < j.1) ∧
      ∀ x : ℤ, Covered id (mergeIntervals [(6, 7), (2, 6), (1, 4), (9, 9)]).1 x ↔
        Covered id [(6, 7), (2, 6), (1, 4), (9, 9)] x := by
  obtain ⟨-, hapart, hcovered, -⟩ :=
    merge_intervals_canonical [(6, 7), (2, 6), (1, 4), ((9 : ℤ), 9)] (by decide) id monotone_id
  exact ⟨hapart, hcovered⟩

end LowLevel.Interview.MergeIntervals
