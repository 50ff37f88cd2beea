import Mathlib.Data.List.Dedup
import Mathlib.Data.List.DropRight

namespace LowLevel.Basis.Recency

variable {K : Type*} {us pre post w : List K} {k : K} {c : ℕ}

theorem rtake_append (hlen : w.length = c ∨ pre = [] ∧ w.length ≤ c) :
    (pre ++ w).rtake c = w := by
  rw [List.rtake]
  rcases hlen with hfull | ⟨rfl, hle⟩
  · rw [List.length_append, hfull, Nat.add_sub_cancel]
    exact List.drop_left
  · rw [List.nil_append, Nat.sub_eq_zero_of_le hle, List.drop_zero]

theorem mem_rtake_iff (h : (pre ++ k :: post).Nodup) :
    k ∈ (pre ++ k :: post).rtake c ↔ post.length < c := by
  rw [List.rtake, List.length_append, List.length_cons]
  rcases Nat.lt_or_ge post.length c with hlt | hge
  · rw [List.drop_append_of_le_length (by omega)]
    exact iff_of_true (List.mem_append_right _ List.mem_cons_self) hlt
  · have hsuffix : (pre ++ k :: post).drop (pre.length + (post.length + 1) - c) <:+ post := by
      have hdrop : pre.length + (post.length + 1) - c =
          (pre ++ [k]).length + (post.length - c) := by
        simp only [List.length_append, List.length_singleton]
        omega
      rw [List.append_cons, hdrop, ← List.drop_drop, List.drop_left]
      exact List.drop_suffix _ _
    have hout : k ∉ post := (List.nodup_cons.mp (List.nodup_append.mp h).2.1).1
    exact iff_of_false (fun hmem ↦ hout (hsuffix.subset hmem)) (by omega)

variable [DecidableEq K]

/-- The last `c` distinct keys used, the least recently used first. -/
def window (c : ℕ) (us : List K) : List K := us.dedup.rtake c

/-- How many distinct keys were used after the last use of `k`. -/
def distance (us : List K) (k : K) : ℕ := (us.rtakeWhile (· ≠ k)).dedup.length

theorem window_split (c : ℕ) (us : List K) : ∃ pre, us.dedup = pre ++ window c us ∧
    ((window c us).length = c ∨ pre = [] ∧ (window c us).length ≤ c) := by
  refine ⟨us.dedup.take (us.dedup.length - c), (List.take_append_drop _ _).symm, ?_⟩
  rw [window, List.rtake, List.length_drop]
  rcases Nat.le_total c us.dedup.length with hle | hle
  · exact .inl (by omega)
  · exact .inr ⟨by rw [Nat.sub_eq_zero_of_le hle, List.take_zero], by omega⟩

theorem window_nodup (c : ℕ) (us : List K) : (window c us).Nodup :=
  us.nodup_dedup.sublist (List.drop_sublist _ _)

theorem dedup_concat (us : List K) (k : K) :
    (us ++ [k]).dedup = us.dedup.filter (· ≠ k) ++ [k] := by
  induction us with
  | nil => rfl
  | cons a us ih =>
    rw [List.cons_append, List.dedup_cons, List.dedup_cons, ih]
    by_cases hmem : a ∈ us
    · rw [if_pos (List.mem_append_left _ hmem), if_pos hmem]
    · rw [if_neg hmem]
      by_cases heq : a = k
      · rw [if_pos (by simp [heq]), List.filter_cons_of_neg (by simpa using heq)]
      · rw [if_neg (by simp [hmem, heq]), List.filter_cons_of_pos (by simpa using heq)]
        rfl

theorem filter_ne_of_notMem (h : k ∉ w) : w.filter (· ≠ k) = w :=
  List.filter_eq_self.mpr (fun _ ha ↦ decide_eq_true (ne_of_mem_of_not_mem ha h))

theorem length_touch (hw : w.Nodup) (h : k ∈ w) : (w.filter (· ≠ k) ++ [k]).length = w.length := by
  have herase : w.filter (· ≠ k) = w.erase k := by
    rw [hw.erase_eq_filter]
    exact List.filter_congr (fun a _ ↦ by rw [bne, beq_eq_decide, decide_not])
  rw [herase, List.length_append]
  exact (List.perm_cons_erase h).length_eq.symm

theorem window_hit (h : k ∈ window c us) :
    window c (us ++ [k]) = (window c us).filter (· ≠ k) ++ [k] := by
  obtain ⟨pre, hsplit, hlen⟩ := window_split c us
  have hnodup := us.nodup_dedup
  rw [hsplit] at hnodup
  have hpre : k ∉ pre := fun hk ↦ (List.nodup_append.mp hnodup).2.2 k hk k h rfl
  rw [window, dedup_concat, hsplit, List.filter_append, filter_ne_of_notMem hpre,
    List.append_assoc]
  exact rtake_append (by rwa [length_touch (window_nodup c us) h])

theorem window_miss (hc : 0 < c) (h : k ∉ window c us) : window c (us ++ [k]) =
    if (window c us).length = c then (window c us).tail ++ [k] else window c us ++ [k] := by
  obtain ⟨pre, hsplit, hlen⟩ := window_split c us
  rw [window, dedup_concat, hsplit, List.filter_append, filter_ne_of_notMem h]
  split
  · rename_i hfull
    obtain ⟨a, w, hw⟩ := List.exists_cons_of_length_pos (hfull.symm ▸ hc)
    rw [hw] at hfull ⊢
    have happ : pre.filter (· ≠ k) ++ a :: w ++ [k] =
        (pre.filter (· ≠ k) ++ [a]) ++ (w ++ [k]) := by
      simp
    rw [happ]
    exact rtake_append (.inl (by simpa using hfull))
  · rename_i hroom
    obtain ⟨rfl, hle⟩ := hlen.resolve_left hroom
    rw [List.filter_nil, List.append_assoc, List.nil_append]
    have hle' : (window c us ++ [k]).length ≤ c := by
      rw [List.length_append, List.length_singleton]
      omega
    exact (congrArg (List.rtake · c) (List.nil_append _).symm).trans
      (rtake_append (.inr ⟨rfl, hle'⟩))

theorem rtakeWhile_last (h : k ∉ post) : (pre ++ k :: post).rtakeWhile (· ≠ k) = post := by
  rw [List.rtakeWhile, List.reverse_append, List.reverse_cons, List.append_assoc,
    List.takeWhile_append_of_pos]
  · simp
  · intro a ha
    exact decide_eq_true (ne_of_mem_of_not_mem (List.mem_reverse.mp ha) h)

/-- A key is in the window when fewer than `c` other keys came after its last use. -/
theorem mem_window_iff : k ∈ window c us ↔ k ∈ us ∧ distance us k < c := by
  have hmem : k ∈ window c us → k ∈ us :=
    fun h ↦ List.mem_dedup.mp ((List.drop_sublist _ _).subset h)
  rcases Decidable.em (k ∈ us) with hk | hk
  · obtain ⟨post, pre, hrev, hout⟩ := List.eq_append_cons_of_mem (List.mem_reverse.mpr hk)
    have hus : us = pre.reverse ++ k :: post.reverse := by
      rw [← List.reverse_reverse us, hrev]
      simp
    have hlast : k ∉ post.reverse := fun h ↦ hout (List.mem_reverse.mp h)
    have hnodup := us.nodup_dedup
    obtain ⟨first, hsuffix⟩ : k :: post.reverse.dedup <:+ us.dedup := by
      rw [hus, List.dedup_append, List.dedup_cons_of_notMem hlast]
      exact List.suffix_union_right _ _
    rw [← hsuffix] at hnodup
    rw [window, ← hsuffix, mem_rtake_iff hnodup, distance, hus, rtakeWhile_last hlast]
    exact (and_iff_right (hus ▸ hk)).symm
  · exact iff_of_false (fun h ↦ hk (hmem h)) (fun h ↦ hk h.1)

end LowLevel.Basis.Recency
