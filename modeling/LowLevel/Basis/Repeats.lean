import Mathlib.Data.List.Nodup
import Mathlib.Data.List.Range

namespace LowLevel.Basis.Repeats

section Equivalence

variable {α : Type*} [BEq α] {l : List α} {v w x : α}

/-- The elements at the positions where they occur for the second time, up to `==`. -/
def firstRepeatsBy (l : List α) : List α :=
  (List.range l.length).filterMap (fun i ↦ l[i]?.filter (fun v ↦ (l.take i).count v == 1))

theorem firstRepeatsBy_concat (l : List α) (x : α) :
    firstRepeatsBy (l ++ [x]) = firstRepeatsBy l ++ if l.count x = 1 then [x] else [] := by
  have hold : (List.range l.length).filterMap (fun i ↦ (l ++ [x])[i]?.filter
      (fun v ↦ ((l ++ [x]).take i).count v == 1)) = firstRepeatsBy l := by
    apply List.filterMap_congr
    intro i hi
    rw [List.mem_range] at hi
    rw [List.getElem?_append_left hi, List.take_append_of_le_length (Nat.le_of_lt hi)]
  rw [firstRepeatsBy, List.length_append, List.length_singleton, List.range_succ,
    List.filterMap_append, hold]
  by_cases h : l.count x = 1 <;> simp [h, Option.filter_some]

theorem firstRepeatsBy_prefix (l l' : List α) : firstRepeatsBy l <+: firstRepeatsBy (l ++ l') := by
  induction l' using List.reverseRecOn with
  | nil => exact (List.append_nil l).symm ▸ List.prefix_rfl
  | append_singleton l' x ih =>
    rw [← List.append_assoc, firstRepeatsBy_concat]
    exact ih.trans (List.prefix_append _ _)

variable [EquivBEq α]

theorem count_congr (h : (v == w) = true) : l.count v = l.count w := by
  apply List.countP_congr
  intro x _
  rw [BEq.congr_right h]

theorem exists_firstRepeatsBy_iff :
    (∃ w ∈ firstRepeatsBy l, (w == v) = true) ↔ 2 ≤ l.count v := by
  induction l using List.reverseRecOn with
  | nil => simp [firstRepeatsBy]
  | append_singleton l x ih =>
    rw [firstRepeatsBy_concat, List.count_append, List.count_singleton]
    simp only [List.mem_append, or_and_right, exists_or, ih]
    cases hxv : x == v with
    | true =>
      have hcount : l.count x = l.count v := count_congr hxv
      by_cases h : l.count x = 1
      · simp [h, hxv, ← hcount]
      · simp [h]
        omega
    | false =>
      by_cases h : l.count x = 1 <;> simp [h, hxv]

theorem firstRepeatsBy_pairwise (l : List α) :
    (firstRepeatsBy l).Pairwise (fun v w ↦ (v == w) = false) := by
  induction l using List.reverseRecOn with
  | nil => simp [firstRepeatsBy]
  | append_singleton l x ih =>
    rw [firstRepeatsBy_concat]
    by_cases h : l.count x = 1
    · rw [if_pos h, List.pairwise_append]
      refine ⟨ih, List.pairwise_singleton _ _, ?_⟩
      intro v hv w hw
      rw [List.mem_singleton.mp hw]
      cases hvx : v == x with
      | false => rfl
      | true =>
        have htwice : 2 ≤ l.count x := exists_firstRepeatsBy_iff.mp ⟨v, hv, hvx⟩
        omega
    · rw [if_neg h, List.append_nil]
      exact ih

end Equivalence

variable {α : Type*} [DecidableEq α] {l : List α} {v x : α}

/-- The values at the positions where they occur for the second time. -/
def firstRepeats (l : List α) : List α :=
  (List.range l.length).filterMap (fun i ↦ l[i]?.filter (fun v ↦ (l.take i).count v == 1))

theorem firstRepeats_concat (l : List α) (x : α) :
    firstRepeats (l ++ [x]) = firstRepeats l ++ if l.count x = 1 then [x] else [] :=
  firstRepeatsBy_concat l x

theorem mem_firstRepeats : v ∈ firstRepeats l ↔ 2 ≤ l.count v := by
  have hiff : (∃ w ∈ firstRepeats l, (w == v) = true) ↔ 2 ≤ l.count v := exists_firstRepeatsBy_iff
  simpa using hiff

theorem firstRepeats_nodup (l : List α) : (firstRepeats l).Nodup := by
  apply (firstRepeatsBy_pairwise l).imp
  intro v w h
  exact beq_eq_false_iff_ne.mp h

end LowLevel.Basis.Repeats
