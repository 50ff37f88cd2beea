import LowLevel.Basis.Repeats
import Mathlib.Data.Finset.Sort
import Mathlib.Data.Int.Order.Basic

namespace LowLevel.Interview.Dupes

open Basis.Repeats

/-- A Go slice; `none` is nil. -/
abbrev Slice := Option (List ℤ)

def append (s : Slice) (v : ℤ) : Slice := some (s.getD [] ++ [v])

/-- The order in which `range` visits a map, each key once. Go leaves it open. -/
structure MapRange where
  order : Finset ℤ → List ℤ
  perm : ∀ s, (order s : Multiset ℤ) = s.val

/-- The variables of `FindDuplicates`. A `map[int]struct{}` is its key set. -/
structure Frame where
  items : Slice
  dupes : Finset ℤ
  found : Finset ℤ
  res : Slice

def scan (s : Frame) (item : ℤ) : Frame :=
  let ok := item ∈ s.found
  let inDupes := item ∈ s.dupes
  let s := if ok ∧ ¬ inDupes then { s with dupes := insert item s.dupes } else s
  { s with found := insert item s.found }

def collect (s : Frame) (key : ℤ) : Frame := { s with res := append s.res key }

/-- `FindDuplicates`, with the argument as it is afterwards. -/
def findDuplicates (range : MapRange) (items : Slice) : Slice × Slice :=
  let s : Frame := ⟨items, ∅, ∅, none⟩
  let s := (s.items.getD []).foldl scan s
  let s := { s with res := some [] }
  let s := (range.order s.dupes).foldl collect s
  (s.items, s.res)

variable {l : List ℤ} {range : MapRange}

theorem scan_all (items : Slice) (l : List ℤ) :
    l.foldl scan ⟨items, ∅, ∅, none⟩ = ⟨items, (firstRepeats l).toFinset, l.toFinset, none⟩ := by
  induction l using List.reverseRecOn with
  | nil => rfl
  | append_singleton l x ih =>
    rw [List.foldl_concat, ih, firstRepeats_concat]
    have hfound : (l ++ [x]).toFinset = insert x l.toFinset := by
      ext v
      simp
    have hok : x ∈ l.toFinset ∧ x ∉ (firstRepeats l).toFinset ↔ l.count x = 1 := by
      rw [List.mem_toFinset, List.mem_toFinset, mem_firstRepeats, ← List.count_pos_iff]
      omega
    by_cases h : l.count x = 1
    · have hdupes : (firstRepeats l ++ [x]).toFinset = insert x (firstRepeats l).toFinset := by
        ext v
        simp
      simp only [scan]
      rw [if_pos (hok.mpr h), if_pos h, hfound, hdupes]
    · simp only [scan]
      rw [if_neg (mt hok.mp h), if_neg h, hfound, List.append_nil]

theorem collect_all (s : Frame) (done keys : List ℤ) (h : s.res = some done) :
    keys.foldl collect s = { s with res := some (done ++ keys) } := by
  induction keys generalizing s done with
  | nil => simp [← h]
  | cons key keys ih =>
    rw [List.foldl_cons, ih (collect s key) (done ++ [key]) (by simp [collect, append, h])]
    simp [collect]

theorem findDuplicates_eq (range : MapRange) (items : Slice) :
    findDuplicates range items =
      (items, some (range.order (firstRepeats (items.getD [])).toFinset)) := by
  simp only [findDuplicates, scan_all]
  rw [collect_all _ [] _ rfl]
  rfl

theorem order_perm (range : MapRange) (l : List ℤ) :
    (range.order (firstRepeats l).toFinset).Perm (firstRepeats l) := by
  rw [← Multiset.coe_eq_coe, range.perm, List.toFinset_val, (firstRepeats_nodup l).dedup]

def ascending : MapRange := ⟨fun s ↦ s.sort (· ≤ ·), fun s ↦ s.sort_eq (· ≤ ·)⟩

def descending : MapRange := ⟨fun s ↦ s.sort (· ≥ ·), fun s ↦ s.sort_eq (· ≥ ·)⟩

def MapRange.reverse (range : MapRange) : MapRange :=
  ⟨fun s ↦ (range.order s).reverse, fun s ↦ by rw [Multiset.coe_reverse, range.perm]⟩

theorem eq_of_mem_palindrome {l : List ℤ} (hnodup : l.Nodup) (h : l.reverse = l) {v w : ℤ}
    (hv : v ∈ l) (hw : w ∈ l) : v = w := by
  cases l with
  | nil => cases hv
  | cons x l =>
    rcases eq_or_ne l [] with rfl | hne
    · rw [List.mem_singleton.mp hv, List.mem_singleton.mp hw]
    · -- the last element would be the first one again
      have hlast : (x :: l).getLast? = some x := by
        rw [← h, List.getLast?_reverse]
        rfl
      rw [List.getLast?_cons_of_ne_nil hne] at hlast
      exact absurd (List.mem_of_getLast? hlast) (List.nodup_cons.mp hnodup).1

theorem eq_of_perm_unique {l l' : List ℤ} (h : l'.Perm l) (hnodup : l.Nodup)
    (hall : ∀ v ∈ l, ∀ w ∈ l, v = w) : l' = l := by
  cases l with
  | nil => exact h.eq_nil
  | cons x l =>
    have hnil : l = [] := by
      apply List.eq_nil_iff_forall_not_mem.mpr
      intro w hw
      rw [← hall x List.mem_cons_self w (List.mem_cons_of_mem _ hw)] at hw
      exact (List.nodup_cons.mp hnodup).1 hw
    subst hnil
    exact h.eq_singleton

/-- Whatever the map order, the result is not nil and lists each duplicate once.
It is in the order of first repeats for every map order exactly when at most
one value is repeated. -/
theorem find_duplicates_order_iff (items : Slice) :
    (∀ range, ∃ res, findDuplicates range items = (items, some res) ∧ res.Nodup ∧
        ∀ v, v ∈ res ↔ 2 ≤ (items.getD []).count v) ∧
      ((∀ range, findDuplicates range items = (items, some (firstRepeats (items.getD [])))) ↔
        ∀ v w, 2 ≤ (items.getD []).count v → 2 ≤ (items.getD []).count w → v = w) := by
  have hnodup := firstRepeats_nodup (items.getD [])
  refine ⟨fun range ↦ ?_, ?_, ?_⟩
  · have hperm := order_perm range (items.getD [])
    refine ⟨_, findDuplicates_eq range items, hperm.nodup_iff.mpr hnodup, fun v ↦ ?_⟩
    rw [hperm.mem_iff, mem_firstRepeats]
  · intro h v w hv hw
    have hforth := h ascending
    have hback := h ascending.reverse
    rw [findDuplicates_eq] at hforth hback
    have hforth' := Option.some.inj (Prod.mk.inj hforth).2
    have hback' := Option.some.inj (Prod.mk.inj hback).2
    simp only [MapRange.reverse] at hback'
    rw [hforth'] at hback'
    exact eq_of_mem_palindrome hnodup hback' (mem_firstRepeats.mpr hv) (mem_firstRepeats.mpr hw)
  · intro h range
    have hsame : range.order (firstRepeats (items.getD [])).toFinset =
        firstRepeats (items.getD []) := by
      apply eq_of_perm_unique (order_perm range _) hnodup
      intro v hv w hw
      exact h v w (mem_firstRepeats.mp hv) (mem_firstRepeats.mp hw)
    rw [findDuplicates_eq, hsame]

/-- A map order that visits 2 before 1. -/
theorem find_duplicates_descending :
    findDuplicates descending (some [1, 1, 2, 2]) = (some [1, 1, 2, 2], some [2, 1]) ∧
      firstRepeats [1, 1, 2, 2] = [(1 : ℤ), 2] := by
  have hfirst : firstRepeats [1, 1, 2, 2] = [(1 : ℤ), 2] := rfl
  have horder : descending.order [(1 : ℤ), 2].toFinset = [2, 1] := by
    have hset : [(1 : ℤ), 2].toFinset = insert 2 {1} := by decide
    have hsort := Finset.sort_insert (· ≥ ·) (s := {(1 : ℤ)}) (a := 2) (by simp) (by simp)
    rw [Finset.sort_singleton] at hsort
    rw [hset]
    exact hsort
  rw [findDuplicates_eq, Option.getD_some, hfirst, horder]
  exact ⟨rfl, rfl⟩

end LowLevel.Interview.Dupes
