import Mathlib.Data.Finset.Sort
import Mathlib.Data.List.TakeWhile
import Mathlib.Tactic.Common

namespace LowLevel.Basis.SortedList

variable {K : Type*} [LinearOrder K] {l pre post : List K} {key : K}

/-- The place of `key`, with the smaller elements before it. -/
structure Place (l : List K) (key : K) (pre post : List K) : Prop where
  split : l = pre ++ post
  before : ∀ x ∈ pre, x < key
  behind : ∀ x ∈ post, key ≤ x

theorem place (hl : l.Pairwise (· < ·)) (key : K) :
    ∃ post, Place l key (l.takeWhile (· < key)) post := by
  refine ⟨l.dropWhile (· < key), (List.takeWhile_append_dropWhile).symm, ?_, ?_⟩
  · intro x hx
    have hlt := List.mem_takeWhile_imp hx
    exact of_decide_eq_true hlt
  · induction l with
    | nil => simp
    | cons y l ih =>
      obtain ⟨hy, hl⟩ := List.pairwise_cons.mp hl
      rw [List.dropWhile_cons]
      split_ifs with hlt
      · exact ih hl
      · have hle : key ≤ y := not_lt.mp (fun h ↦ hlt (decide_eq_true h))
        intro x hx
        rcases List.mem_cons.mp hx with rfl | hx
        · exact hle
        · exact hle.trans (hy x hx).le

theorem Place.mem_iff (h : Place l key pre post) (hl : l.Pairwise (· < ·)) :
    key ∈ l ↔ l[pre.length]? = some key := by
  constructor
  · intro hmem
    rw [h.split] at hl
    rcases List.mem_append.mp (h.split ▸ hmem) with hpre | hpost
    · exact absurd (h.before key hpre) (lt_irrefl key)
    · cases post with
      | nil => exact absurd hpost List.not_mem_nil
      | cons x post =>
        have hx : x = key := by
          rcases List.mem_cons.mp hpost with rfl | hpost
          · rfl
          · obtain ⟨-, hright, -⟩ := List.pairwise_append.mp hl
            have hlt := (List.pairwise_cons.mp hright).1 key hpost
            exact absurd (h.behind x List.mem_cons_self) (not_le.mpr hlt)
        rw [h.split, hx]
        simp
  · exact List.mem_of_getElem?

omit [LinearOrder K] in
theorem insertIdx_split (pre post : List K) (key : K) :
    (pre ++ post).insertIdx pre.length key = pre ++ key :: post := by
  induction pre with
  | nil => rfl
  | cons x pre ih =>
    rw [List.length_cons, List.cons_append, List.insertIdx_succ_cons, ih, List.cons_append]

theorem Place.insert (h : Place l key pre post) (hl : l.Pairwise (· < ·)) (hnot : key ∉ l) :
    (l.insertIdx pre.length key).Pairwise (· < ·) ∧
      (l.insertIdx pre.length key).toFinset = insert key l.toFinset := by
  have hins : l.insertIdx pre.length key = pre ++ key :: post := by
    rw [h.split, insertIdx_split]
  have hbehind : ∀ x ∈ post, key < x := by
    intro x hx
    refine (h.behind x hx).lt_of_ne ?_
    rintro rfl
    exact hnot (h.split ▸ List.mem_append_right pre hx)
  rw [hins]
  constructor
  · rw [h.split] at hl
    obtain ⟨hpre, hpost, hcross⟩ := List.pairwise_append.mp hl
    refine List.pairwise_append.mpr ⟨hpre, List.pairwise_cons.mpr ⟨hbehind, hpost⟩, ?_⟩
    intro x hx y hy
    rcases List.mem_cons.mp hy with rfl | hy
    · exact h.before x hx
    · exact hcross x hx y hy
  · rw [h.split]
    ext x
    simp only [List.mem_toFinset, List.mem_append, List.mem_cons, Finset.mem_insert]
    tauto

theorem Place.erase (h : Place l key pre post) (hl : l.Pairwise (· < ·)) (hmem : key ∈ l) :
    (l.eraseIdx pre.length).Pairwise (· < ·) ∧
      (l.eraseIdx pre.length).toFinset = l.toFinset.erase key := by
  refine ⟨hl.sublist (List.eraseIdx_sublist l _), ?_⟩
  obtain ⟨hlt, hget⟩ := List.getElem?_eq_some_iff.mp ((h.mem_iff hl).mp hmem)
  have hnodup : l.Nodup := hl.imp ne_of_lt
  rw [← hnodup.erase_getElem pre.length hlt, hget]
  ext x
  rw [List.mem_toFinset, hnodup.mem_erase_iff, Finset.mem_erase, List.mem_toFinset]

/-- The members of a set, the least first. -/
def inOrder (S : Finset K) : List K := S.sort (· ≤ ·)

theorem inOrder_toFinset (hl : l.Pairwise (· < ·)) : inOrder l.toFinset = l :=
  (List.toFinset_sort (· ≤ ·) (hl.imp ne_of_lt)).mpr (hl.imp le_of_lt)

end LowLevel.Basis.SortedList
