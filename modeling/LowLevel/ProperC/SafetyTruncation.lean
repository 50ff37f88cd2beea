import LowLevel.ProperC.SafetyFill
import Mathlib.Data.List.TakeDrop

namespace LowLevel.ProperC.SafetyTruncation

open Basis.AddressSpace Basis.Loop Safety SafetyFill

def appendAll (m : Memory UInt8) (dst dstsize : ℕ) : List ℕ → Except Stop (List ℕ × Memory UInt8)
  | [] => .ok ([], m)
  | src :: srcs => do
    let (r, m) ← safeStrcat m dst dstsize src
    let (rs, m) ← appendAll m dst dstsize srcs
    return (r :: rs, m)

/-- `safeStrcpy` of the first string, then `safeStrcat` of the others, with
the values the calls return. -/
def build (m : Memory UInt8) (dst dstsize src : ℕ) (srcs : List ℕ) :
    Except Stop (List ℕ × Memory UInt8) := do
  let (r, m) ← safeStrcpy m dst dstsize src
  let (rs, m) ← appendAll m dst dstsize srcs
  return (r :: rs, m)

structure Source (m : Memory UInt8) (dst dstsize p : ℕ) (s : List UInt8) : Prop where
  str : CStr m p s
  apart : p + s.length < dst ∨ dst + dstsize ≤ p

variable {m m' : Memory UInt8} {dst dstsize p : ℕ} {s t : List UInt8}

theorem Source.congr (h : Source m dst dstsize p s)
    (hframe : Memory.Outside dst (dst + dstsize) m m') : Source m' dst dstsize p s where
  str := by
    refine ⟨h.str.noNul, h.str.holds.congr ?_⟩
    intro i hi
    rw [List.length_append, List.length_singleton] at hi
    have hap := h.apart
    exact hframe _ (by omega)
  apart := h.apart

theorem Source.bytes_apart (h : Source m dst dstsize p s) (j : ℕ) (hj : j < s.length) :
    p + j < dst ∨ dst + dstsize ≤ p + j := by
  have hap := h.apart
  omega

theorem cstr_take {l : List UInt8} {n : ℕ} (h0 : 0 ∉ l)
    (hcells : ∀ j < n, m.cell (dst + j) = some (l[j]?.getD 0)) (hnul : m.cell (dst + n) = some 0) :
    CStr m dst (l.take n) where
  noNul h := h0 (List.mem_of_mem_take h)
  holds := by
    intro i v hv
    have hlen := List.length_take (l := l) (i := n)
    rcases Nat.lt_or_ge i (l.take n).length with hlt | hge
    · have hi : i < n := by omega
      rw [List.getElem?_append_left hlt, List.getElem?_take_of_lt hi] at hv
      rw [hcells i hi, hv, Option.getD_some]
    · rw [List.getElem?_append_right hge, List.getElem?_singleton] at hv
      have hi : i = min n l.length := by
        by_contra hne
        rw [if_neg (by omega)] at hv
        cases hv
      rw [if_pos (by omega)] at hv
      cases hv
      rcases Nat.lt_or_ge l.length n with hshort | hlong
      · have hend : l[i]? = none := List.getElem?_eq_none (by omega)
        rw [hcells i (by omega), hend, Option.getD_none]
      · rw [show i = n by omega]
        exact hnul

theorem Finished.cstr (h : Finished m dst dstsize p s.length t.length m')
    (hs : Source m dst dstsize p s) (ht0 : 0 ∉ t)
    (ht : ∀ (j : ℕ) (hj : j < t.length), m.cell (dst + j) = some t[j]) :
    CStr m' dst ((t ++ s).take (dstsize - 1)) := by
  refine cstr_take ?_ ?_ h.nul
  · rw [List.mem_append, not_or]
    exact ⟨ht0, hs.str.noNul⟩
  · intro j hj
    rcases Nat.lt_or_ge j t.length with hlt | hge
    · rw [h.kept j hlt hj, ht j hlt, List.getElem?_append_left hlt, List.getElem?_eq_getElem hlt,
        Option.getD_some]
    · rw [h.bytes hs.bytes_apart j hge hj, List.getElem?_append_right hge]
      split
      · rename_i hlt
        rw [hs.str.byte hlt, List.getElem?_eq_getElem hlt, Option.getD_some]
      · rename_i hend
        rw [List.getElem?_eq_none (Nat.le_of_not_lt hend), Option.getD_none]

theorem strcpy_step (hsize : 1 ≤ dstsize) (hbuf : ∀ i < dstsize, (m.cell (dst + i)).isSome)
    (hs : Source m dst dstsize p s) :
    ∃ m', safeStrcpy m dst dstsize p = .ok (s.length, m') ∧ m.SameDomain m' ∧
      Memory.Outside dst (dst + dstsize) m m' ∧ CStr m' dst (s.take (dstsize - 1)) := by
  obtain ⟨m', hrun, hfin⟩ := safeStrcpy_spec hs.str hsize hbuf
  have hstr := Finished.cstr (t := []) hfin hs List.not_mem_nil
    (fun j hj ↦ absurd hj (Nat.not_lt_zero j))
  exact ⟨m', hrun, hfin.domain, hfin.frame, hstr⟩

theorem strcat_step (hsize : 1 ≤ dstsize) (hbuf : ∀ i < dstsize, (m.cell (dst + i)).isSome)
    (hs : Source m dst dstsize p s) (ht : CStr m dst t) (hle : t.length ≤ dstsize - 1) :
    ∃ r m', safeStrcat m dst dstsize p = .ok (r, m') ∧
      (dstsize ≤ r ↔ dstsize ≤ t.length + s.length) ∧ m.SameDomain m' ∧
      Memory.Outside dst (dst + dstsize) m m' ∧
      CStr m' dst ((t ++ s).take (dstsize - 1)) := by
  obtain ⟨m', hrun, hfin⟩ := safeStrcat_spec hs.str ht hsize hbuf
  refine ⟨_, m', hrun, ?_, hfin.domain, hfin.frame,
    Finished.cstr hfin hs ht.noNul (fun j hj ↦ ht.byte hj)⟩
  obtain ⟨htop, hpos⟩ := dstsize_lt hsize hbuf
  have hlt := hs.str.lt_top
  have hap := hs.apart
  rw [sizeAdd_of_lt (by omega)]
  split <;> omega

theorem take_append_take (l r : List UInt8) (n : ℕ) :
    (l.take n ++ r).take n = (l ++ r).take n := by
  rw [List.take_append, List.take_append, List.take_take, Nat.min_self, List.length_take]
  rcases Nat.le_total n l.length with hle | hle
  · rw [Nat.min_eq_left hle, Nat.sub_self, Nat.sub_eq_zero_of_le hle]
  · rw [Nat.min_eq_right hle]

theorem appendAll_spec (l : List (ℕ × List UInt8)) (hsize : 1 ≤ dstsize)
    (hbuf : ∀ i < dstsize, (m.cell (dst + i)).isSome) (ht : CStr m dst t)
    (hle : t.length ≤ dstsize - 1) (hl : ∀ e ∈ l, Source m dst dstsize e.1 e.2) :
    ∃ rs m', appendAll m dst dstsize (l.map Prod.fst) = .ok (rs, m') ∧ rs.length = l.length ∧
      CStr m' dst ((t ++ (l.map Prod.snd).flatten).take (dstsize - 1)) ∧
      Memory.Outside dst (dst + dstsize) m m' ∧
      (dstsize ≤ (t ++ (l.map Prod.snd).flatten).length ↔ ∃ r ∈ rs, dstsize ≤ r) := by
  induction l generalizing m t with
  | nil =>
    refine ⟨[], m, rfl, rfl, ?_, fun _ _ ↦ rfl, ?_⟩
    · rwa [List.map_nil, List.flatten_nil, List.append_nil, List.take_of_length_le hle]
    · simp only [List.map_nil, List.flatten_nil, List.append_nil, List.not_mem_nil, false_and,
        exists_false, iff_false]
      omega
  | cons e l ih =>
    obtain ⟨r, m₁, hrun, hr, hdom, hout, hstr⟩ :=
      strcat_step hsize hbuf (hl e List.mem_cons_self) ht hle
    obtain ⟨rs, m', hruns, hlen, hstr', hout', hrs⟩ := ih
      (fun i hi ↦ (hdom _).trans (hbuf i hi)) hstr (List.length_take_le _ _)
      (fun e' he' ↦ (hl e' (List.mem_cons_of_mem _ he')).congr hout)
    refine ⟨r :: rs, m', ?_, by simp [hlen], ?_, hout.trans hout', ?_⟩
    · rw [List.map_cons, appendAll, hrun, ok_bind]
      dsimp only
      rw [hruns]
      rfl
    · rw [take_append_take, List.append_assoc] at hstr'
      exact hstr'
    · have htake := List.length_take (l := t ++ e.2) (i := dstsize - 1)
      rw [List.map_cons, List.flatten_cons]
      simp only [List.mem_cons, exists_eq_or_imp, ← hrs, hr, List.length_append] at htake ⊢
      omega

/-- Building a string through the bounded functions leaves the first
`dstsize - 1` bytes of the concatenation, and one of the calls returns at
least `dstsize` exactly when something was cut off. -/
theorem build_truncates (m : Memory UInt8) (dst dstsize : ℕ) (p : ℕ) (s : List UInt8)
    (l : List (ℕ × List UInt8)) (hsize : 1 ≤ dstsize)
    (hbuf : ∀ i < dstsize, (m.cell (dst + i)).isSome)
    (hl : ∀ e ∈ (p, s) :: l, Source m dst dstsize e.1 e.2) :
    ∃ rs m', build m dst dstsize p (l.map Prod.fst) = .ok (rs, m') ∧ rs.length = l.length + 1 ∧
      CStr m' dst ((s ++ (l.map Prod.snd).flatten).take (dstsize - 1)) ∧
      ((s ++ (l.map Prod.snd).flatten).take (dstsize - 1) ≠ s ++ (l.map Prod.snd).flatten ↔
        ∃ r ∈ rs, dstsize ≤ r) := by
  obtain ⟨m₁, hrun, hdom, hout, hstr⟩ := strcpy_step hsize hbuf (hl (p, s) List.mem_cons_self)
  obtain ⟨rs, m', hruns, hlen, hstr', -, hrs⟩ := appendAll_spec l hsize
    (fun i hi ↦ (hdom _).trans (hbuf i hi)) hstr (List.length_take_le _ _)
    (fun e he ↦ (hl e (List.mem_cons_of_mem _ he)).congr hout)
  refine ⟨s.length :: rs, m', ?_, by simp [hlen], ?_, ?_⟩
  · rw [build, hrun, ok_bind]
    dsimp only
    rw [hruns]
    rfl
  · rw [take_append_take] at hstr'
    exact hstr'
  · have htake := List.length_take (l := s) (i := dstsize - 1)
    rw [Ne, List.take_eq_self_iff]
    simp only [List.mem_cons, exists_eq_or_imp, ← hrs, List.length_append] at htake ⊢
    omega

theorem build_truncates_two :
    ∃ rs m', build twoStrings 100 2 200 [200] = .ok (rs, m') ∧ rs.length = 2 ∧
      CStr m' 100 [98] ∧ (([98] : List UInt8) ≠ [98, 98] ↔ ∃ r ∈ rs, 2 ≤ r) := by
  have hsrc : Source twoStrings 100 2 200 [98] := ⟨twoStrings_b, .inr (by omega)⟩
  exact build_truncates twoStrings 100 2 200 [98] [(200, [98])] (by omega) twoStrings_buffer
    (by simp [hsrc])

/-- `safeStrcat` returns the length it tried to create exactly when that length
fits the capacity or there was nothing to append. -/
theorem strcat_reports_iff (m : Memory UInt8) (dst dstsize src : ℕ) (s t : List UInt8)
    (hs : CStr m src s) (ht : CStr m dst t) (hsize : 1 ≤ dstsize)
    (hbuf : ∀ i < dstsize, (m.cell (dst + i)).isSome) :
    ∃ r m', safeStrcat m dst dstsize src = .ok (r, m') ∧
      (r = min dstsize t.length + s.length ↔ s = [] ∨ t.length + s.length ≤ dstsize) := by
  obtain ⟨m', hrun, -⟩ := safeStrcat_spec hs ht hsize hbuf
  refine ⟨_, m', hrun, ?_⟩
  rw [← List.length_eq_zero_iff]
  have hsrc := hs.lt_top
  have hdst := ht.lt_top
  obtain ⟨htop, hpos⟩ := dstsize_lt hsize hbuf
  -- the sum can only wrap round when the two strings overlap
  have hsum : sizeAdd s.length t.length = s.length + t.length ∨
      2 ^ 64 + sizeAdd s.length t.length = s.length + t.length := by
    unfold sizeAdd
    omega
  rcases Nat.lt_or_ge (sizeAdd s.length t.length) dstsize with hlt | hge
  · rw [if_pos hlt]
    omega
  · rw [if_neg (Nat.not_lt.mpr hge)]
    omega

theorem strcat_clamps :
    CStr twoStrings 200 [98] ∧ CStr twoStrings 100 [97] ∧
      ∃ m', safeStrcat twoStrings 100 1 200 = .ok (1, m') ∧
        1 ≠ min 1 [97].length + [98].length := by
  obtain ⟨m', hrun, -⟩ := safeStrcat_spec twoStrings_b twoStrings_a (Nat.le_refl 1)
    (fun i hi ↦ twoStrings_buffer i (by omega))
  refine ⟨twoStrings_b, twoStrings_a, m', ?_, by simp⟩
  rw [hrun, sizeAdd_of_lt (by simp)]
  rfl

theorem strcat_reports_two :
    ∃ r m', safeStrcat twoStrings 100 2 200 = .ok (r, m') ∧
      (r = min 2 1 + 1 ↔ ([98] : List UInt8) = [] ∨ 1 + 1 ≤ 2) :=
  strcat_reports_iff twoStrings 100 2 200 [98] [97] twoStrings_b twoStrings_a (by omega)
    twoStrings_buffer

end LowLevel.ProperC.SafetyTruncation
