import LowLevel.Basis.Repeats
import Std.Data.HashSet.Lemmas

namespace LowLevel.Interview.Duplicates

open Basis.Repeats

section Source

variable {α : Type*} [BEq α] [Hashable α]

/-- The variables of `find_duplicates`. -/
structure Frame (α : Type*) [BEq α] [Hashable α] where
  res : List α
  found : Std.HashSet α
  added : Std.HashSet α

def visit (s : Frame α) (item : α) : Frame α :=
  if item ∈ s.found ∧ item ∉ s.added then
    { s with res := s.res ++ [item], added := s.added.insert item }
  else { s with found := s.found.insert item }

def findDuplicates (items : List α) : List α := (items.foldl visit ⟨[], ∅, ∅⟩).res

end Source

variable {α : Type*} [BEq α] [Hashable α] {l : List α} {s : Frame α}

/-- The loop after the items `l`. -/
structure Visited (l : List α) (s : Frame α) : Prop where
  res : s.res = firstRepeatsBy l
  found : ∀ v, v ∈ s.found ↔ 1 ≤ l.count v
  added : ∀ v, v ∈ s.added ↔ 2 ≤ l.count v

variable [EquivBEq α] [LawfulHashable α]

theorem Visited.visit (h : Visited l s) (x : α) : Visited (l ++ [x]) (visit s x) := by
  have hcount : ∀ v, (l ++ [x]).count v = l.count v + if x == v then 1 else 0 := by
    intro v
    rw [List.count_append, List.count_singleton]
  have hsame : ∀ v, (x == v) = true → l.count v = l.count x := fun v hxv ↦ (count_congr hxv).symm
  have hbranch : x ∈ s.found ∧ x ∉ s.added ↔ l.count x = 1 := by
    rw [h.found, h.added]
    omega
  rw [Duplicates.visit]
  by_cases hone : l.count x = 1
  · rw [if_pos (hbranch.mpr hone)]
    refine ⟨?_, fun v ↦ ?_, fun v ↦ ?_⟩
    · rw [firstRepeatsBy_concat, if_pos hone, h.res]
    · rw [h.found, hcount]
      split_ifs with hxv
      · rw [hsame v hxv]
        omega
      · exact Iff.rfl
    · rw [Std.HashSet.mem_insert, h.added, hcount]
      split_ifs with hxv
      · rw [hsame v hxv, hxv]
        simp [hone]
      · simp [hxv]
  · rw [if_neg (mt hbranch.mp hone)]
    refine ⟨?_, fun v ↦ ?_, fun v ↦ ?_⟩
    · rw [firstRepeatsBy_concat, if_neg hone, List.append_nil, h.res]
    · rw [Std.HashSet.mem_insert, h.found, hcount]
      split_ifs with hxv
      · simp [hxv]
      · simp [hxv]
    · rw [h.added, hcount]
      split_ifs with hxv
      · rw [hsame v hxv]
        omega
      · exact Iff.rfl

theorem findDuplicates_eq (items : List α) : findDuplicates items = firstRepeatsBy items := by
  suffices h : Visited items (items.foldl visit ⟨[], ∅, ∅⟩) from h.res
  induction items using List.reverseRecOn with
  | nil => exact ⟨rfl, by simp, by simp⟩
  | append_singleton l x ih =>
    rw [List.foldl_concat]
    exact ih.visit x

/-- `find_duplicates` lists the items that occur for the second time, in the
order of the input, for any equality that is compatible with hashing. -/
theorem find_duplicates_first_repeats {α : Type*} [BEq α] [Hashable α] [EquivBEq α]
    [LawfulHashable α] (items : List α) :
    findDuplicates items = firstRepeatsBy items ∧
      (findDuplicates items).Pairwise (fun v w ↦ (v == w) = false) ∧
      (∀ v, (∃ w ∈ findDuplicates items, (w == v) = true) ↔ 2 ≤ items.count v) ∧
      ∀ more, findDuplicates items <+: findDuplicates (items ++ more) := by
  have heq := findDuplicates_eq items
  refine ⟨heq, ?_, ?_, ?_⟩
  · rw [heq]
    exact firstRepeatsBy_pairwise items
  · rw [heq]
    intro v
    exact exists_firstRepeatsBy_iff
  · intro more
    rw [heq, findDuplicates_eq]
    exact firstRepeatsBy_prefix items more

theorem find_duplicates_ints :
    findDuplicates [1, 2, 3, 2, (1 : ℤ), 2] = firstRepeatsBy [1, 2, 3, 2, 1, 2] ∧
      findDuplicates [1, 2, (3 : ℤ), 2] <+: findDuplicates [1, 2, 3, 2, 1, 2] :=
  ⟨(find_duplicates_first_repeats [1, 2, 3, 2, (1 : ℤ), 2]).1,
    (find_duplicates_first_repeats [1, 2, (3 : ℤ), 2]).2.2.2 [1, 2]⟩

end LowLevel.Interview.Duplicates
