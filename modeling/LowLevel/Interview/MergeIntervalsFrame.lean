import LowLevel.Basis.ObjectStore
import LowLevel.Interview.MergeIntervals

namespace LowLevel.Interview.MergeIntervalsFrame

open Basis.ObjectStore Basis.SortBy

section Source

variable {α : Type*} [LinearOrder α]

/-- The loop of `merge_intervals`, with references to the pairs. -/
structure Merging (α : Type*) where
  store : Store (α × α)
  merged : List ℕ

def Merging.append (s : Merging α) (interval : ℕ) : Merging α :=
  let pair := s.store.cell interval
  let (new, store) := s.store.create (pair.1, pair.2)
  ⟨store, s.merged ++ [new]⟩

def Merging.step (s : Merging α) (interval : ℕ) : Merging α :=
  match s.merged.getLast? with
  | some last =>
    let pair := s.store.cell last
    if (s.store.cell interval).1 ≤ pair.2 then
      ⟨s.store.write last (pair.1, max pair.2 (s.store.cell interval).2), s.merged⟩
    else s.append interval
  | none => s.append interval

/-- What a call leaves behind: the caller's list, the returned one, the pairs. -/
structure Call (α : Type*) where
  intervals : List ℕ
  merged : List ℕ
  store : Store (α × α)

def mergeIntervals (store : Store (α × α)) (intervals : List ℕ) : Call α :=
  let intervals := sortBy (fun r ↦ toLex (store.cell r)) intervals
  let s := intervals.foldl Merging.step ⟨store, []⟩
  ⟨intervals, s.merged, s.store⟩

end Source

variable {α : Type*} [LinearOrder α] {store : Store (α × α)} {intervals : List ℕ} {interval : ℕ}
variable {s : Merging α}

/-- What the docstring promises of the caller's list and of its pairs. -/
structure LeftAlone (store : Store (α × α)) (intervals : List ℕ) (call : Call α) : Prop where
  order : call.intervals.map call.store.cell = intervals.map store.cell
  pairs : ∀ r ∈ intervals, call.store.cell r = store.cell r
  apart : ∀ writes : List (ℕ × (α × α)), (∀ w ∈ writes, w.1 ∈ call.merged) →
    ∀ r ∈ intervals, (call.store.writeAll writes).cell r = store.cell r

theorem Merging.step_created (h : Created store s.merged s.store) (hold : interval < store.next) :
    Created store (s.step interval).merged (s.step interval).store ∧
      (s.step interval).merged.map (s.step interval).store.cell =
        MergeIntervals.mergeStep (s.merged.map s.store.cell) (store.cell interval) := by
  rw [Merging.step, MergeIntervals.mergeStep, List.getLast?_map, ← h.kept interval hold]
  cases hlast : s.merged.getLast? with
  | none => exact ⟨h.create _, h.map_create _⟩
  | some last =>
    dsimp only [Option.map_some]
    split_ifs with htouch
    · obtain ⟨init, hinit⟩ : ∃ init, s.merged = init ++ [last] :=
        ⟨_, (List.dropLast_append_getLast? last hlast).symm⟩
      dsimp only
      refine ⟨h.write (List.mem_of_getLast? hlast) _, ?_⟩
      rw [hinit] at h ⊢
      rw [h.map_write, List.map_append, List.map_singleton, List.dropLast_concat]
    · exact ⟨h.create _, h.map_create _⟩

/-- The pairs of the loop are the ones of the loop over values. -/
theorem fold_created (h : Created store s.merged s.store) (hold : ∀ r ∈ intervals, r < store.next) :
    Created store (intervals.foldl Merging.step s).merged
        (intervals.foldl Merging.step s).store ∧
      (intervals.foldl Merging.step s).merged.map (intervals.foldl Merging.step s).store.cell =
        (intervals.map store.cell).foldl MergeIntervals.mergeStep (s.merged.map s.store.cell) := by
  induction intervals generalizing s with
  | nil => exact ⟨h, rfl⟩
  | cons interval intervals ih =>
    obtain ⟨hstep, hvalues⟩ := Merging.step_created h (hold interval List.mem_cons_self)
    obtain ⟨hcreated, hfold⟩ := ih hstep (fun r hr ↦ hold r (List.mem_cons_of_mem _ hr))
    refine ⟨hcreated, ?_⟩
    rw [List.foldl_cons, hfold, hvalues]
    rfl

theorem mergeIntervals_created (hold : ∀ r ∈ intervals, r < store.next) :
    Created store (mergeIntervals store intervals).merged (mergeIntervals store intervals).store ∧
      (mergeIntervals store intervals).merged.map (mergeIntervals store intervals).store.cell =
        (MergeIntervals.mergeIntervals (intervals.map store.cell)).1 := by
  have hsorted : ∀ r ∈ sortBy (fun r ↦ toLex (store.cell r)) intervals, r < store.next :=
    fun r hr ↦ hold r ((sortBy_perm _ _).mem_iff.mp hr)
  obtain ⟨hcreated, hvalues⟩ := fold_created (s := ⟨store, []⟩) (.start store) hsorted
  rw [sortBy_map toLex] at hvalues
  exact ⟨hcreated, hvalues⟩

/-- The call keeps its promise if and only if the caller's pairs are in
ascending order, as Python compares them. -/
theorem left_alone_iff (store : Store (α × α)) (intervals : List ℕ)
    (hold : ∀ r ∈ intervals, r < store.next) :
    LeftAlone store intervals (mergeIntervals store intervals) ↔
      (intervals.map store.cell).Pairwise (fun i j ↦ toLex i ≤ toLex j) := by
  have hcreated := (mergeIntervals_created hold).1
  have hkept : ∀ r ∈ intervals, (mergeIntervals store intervals).store.cell r = store.cell r :=
    fun r hr ↦ hcreated.kept r (hold r hr)
  have hvalues : (mergeIntervals store intervals).intervals.map
      (mergeIntervals store intervals).store.cell = sortBy toLex (intervals.map store.cell) := by
    rw [← sortBy_map]
    apply List.map_congr_left
    intro r hr
    exact hkept r ((sortBy_perm _ _).mem_iff.mp hr)
  rw [← sortBy_eq_iff]
  constructor
  · intro h
    rw [← hvalues, h.order]
  · intro h
    refine ⟨hvalues.trans h, hkept, fun writes hwrites r hr ↦ ?_⟩
    exact (hcreated.writeAll hwrites).kept r (hold r hr)

def storeOf (l : List (ℤ × ℤ)) : Store (ℤ × ℤ) := ⟨l.length, fun r ↦ l.getD r (0, 0)⟩

theorem left_alone_touching :
    LeftAlone (storeOf [(1, 2), (2, 5)]) [0, 1]
      (mergeIntervals (storeOf [(1, 2), (2, 5)]) [0, 1]) :=
  (left_alone_iff (storeOf [(1, 2), (2, 5)]) [0, 1] (by decide)).mpr (by decide)

/-- The caller finds `[4, 5], [1, 2]` turned round. -/
theorem order_changed :
    (mergeIntervals (storeOf [(4, 5), (1, 2)]) [0, 1]).intervals = [1, 0] ∧
      ¬ LeftAlone (storeOf [(4, 5), (1, 2)]) [0, 1]
        (mergeIntervals (storeOf [(4, 5), (1, 2)]) [0, 1]) := by
  have horder : (mergeIntervals (storeOf [(4, 5), (1, 2)]) [0, 1]).intervals = [1, 0] := by
    simp [mergeIntervals, sortBy, List.mergeSort, storeOf, Prod.Lex.toLex_le_toLex]
  refine ⟨horder, fun h ↦ ?_⟩
  have hvalues := h.order
  rw [horder, List.map_cons, List.map_singleton, h.pairs 0 (by simp), h.pairs 1 (by simp)]
    at hvalues
  exact absurd hvalues (by decide)

end LowLevel.Interview.MergeIntervalsFrame
