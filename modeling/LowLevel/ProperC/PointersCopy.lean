import LowLevel.Basis.AddressSpace
import LowLevel.Basis.Loop
import Mathlib.Data.List.PeriodicityLemma

namespace LowLevel.ProperC.PointersCopy

open Function Basis.AddressSpace Basis.Loop

/-- Addresses count bytes. -/
def copyPass (dst src i : ℕ) (m : Memory UInt8) : Except Stop (Memory UInt8) := do
  m.store (dst + i) (← m.load (src + i))

/-- The pointer returned is null, whatever `dst` is. -/
def myMemcpy (m : Memory UInt8) (dst src n : ℕ) : Except Stop (ℕ × Memory UInt8) := do
  let m ← forRange (copyPass dst src) 0 n m
  return (0, m)

variable {m m' : Memory UInt8} {dst src i : ℕ} {l : List UInt8}

/-- The byte that arrives at index `i`: where the target begins inside the
source, the bytes in front of it come round again. -/
def origin (dst src i : ℕ) : ℕ := if src < dst then i % (dst - src) else i

theorem origin_le (dst src i : ℕ) : origin dst src i ≤ i := by
  unfold origin
  split_ifs
  · exact Nat.mod_le _ _
  · exact le_rfl

/-- What has been copied at the start of pass `i`. -/
structure Copied (m : Memory UInt8) (dst src : ℕ) (l : List UInt8) (i : ℕ) (m' : Memory UInt8) :
    Prop where
  arrived : ∀ j < i, m'.cell (dst + j) = l[origin dst src j]?
  frame : Memory.Outside dst (dst + i) m m'

/-- A byte the loop wrote before it reads it came from one gap further back. -/
theorem Copied.cell (hsrc : m.Holds src l) (h : Copied m dst src l i m') (hi : i < l.length) :
    m'.cell (src + i) = l[origin dst src i]? := by
  have hown : m.cell (src + i) = l[i]? := by
    rw [List.getElem?_eq_getElem hi]
    exact hsrc i l[i] (List.getElem?_eq_getElem hi)
  rcases Decidable.em (src < dst ∧ dst ≤ src + i) with ⟨hlt, hle⟩ | hno
  · have hback : src + i = dst + (i - (dst - src)) := by omega
    have hcycle : origin dst src (i - (dst - src)) = origin dst src i := by
      simp only [origin, if_pos hlt]
      exact (Nat.mod_eq_sub_mod (by omega)).symm
    rw [hback, h.arrived _ (by omega), hcycle]
  · have hsame : origin dst src i = i := by
      unfold origin
      split_ifs with hlt
      · exact Nat.mod_eq_of_lt (by omega)
      · rfl
    rw [hsame, h.frame _ (by omega), hown]

theorem Copied.pass (hsrc : m.Holds src l) (hdst : ∀ j < l.length, (m.cell (dst + j)).isSome)
    (hi : i < l.length) (h : Copied m dst src l i m') :
    ∃ m'', copyPass dst src i m' = .ok m'' ∧ Copied m dst src l (i + 1) m'' := by
  have hlt : origin dst src i < l.length := lt_of_le_of_lt (origin_le dst src i) hi
  have hcell := h.cell hsrc hi
  rw [List.getElem?_eq_getElem hlt] at hcell
  have ha : (m'.cell (dst + i)).isSome := by
    rw [h.frame _ (.inr le_rfl)]
    exact hdst i hi
  rw [copyPass, Memory.load_eq hcell, ok_bind, Memory.store_eq ha]
  refine ⟨_, rfl, ?_, ?_⟩
  · intro j hj
    rcases eq_or_ne j i with rfl | hne
    · rw [Memory.write_cell, update_self, List.getElem?_eq_getElem hlt]
    · rw [Memory.write_cell, update_of_ne (by omega), h.arrived j (by omega)]
  · exact Memory.Outside.trans (fun a hout ↦ h.frame a (by omega))
      (Memory.outside_write ha _ (Nat.le_add_right _ _) (by omega))

theorem copied_holds_iff (h : Copied m dst src l l.length m') :
    m'.Holds dst l ↔ (src < dst → l.HasPeriod (dst - src)) := by
  have hcells : m'.Holds dst l ↔ ∀ j < l.length, l[j]? = l[origin dst src j]? := by
    constructor
    · intro hh j hj
      rw [← h.arrived j hj, List.getElem?_eq_getElem hj]
      exact (hh j l[j] (List.getElem?_eq_getElem hj)).symm
    · intro hh j v hv
      obtain ⟨hj, -⟩ := List.getElem?_eq_some_iff.mp hv
      rw [h.arrived j hj, ← hh j hj, hv]
  rw [hcells]
  by_cases hlt : src < dst
  · simp only [origin, hlt, true_implies]
    exact List.hasPeriod_iff_forall_getElem?_mod.symm
  · simp [origin, hlt]

/-- `my_memcpy` for every placement of its two regions: it returns null, writes
the target and nothing else, and leaves a copy there unless the target begins
inside the source, where it does so just for a source with that period. -/
theorem my_memcpy_overlap (m : Memory UInt8) (dst src : ℕ) (l : List UInt8)
    (hsrc : m.Holds src l) (hdst : ∀ j < l.length, (m.cell (dst + j)).isSome) :
    ∃ m', myMemcpy m dst src l.length = .ok (0, m') ∧
      (∀ j < l.length, m'.cell (dst + j) = l[origin dst src j]?) ∧
      Memory.Outside dst (dst + l.length) m m' ∧
      (m'.Holds dst l ↔ (src < dst → l.HasPeriod (dst - src))) := by
  have hstart : Copied m dst src l 0 m := ⟨fun j hj ↦ absurd hj (Nat.not_lt_zero j), fun _ _ ↦ rfl⟩
  obtain ⟨m', hrun, h⟩ := forRange_ok (Copied m dst src l) (Nat.zero_le l.length) hstart
    (fun i _ hi m₁ h₁ ↦ h₁.pass hsrc hdst hi)
  refine ⟨m', ?_, h.arrived, h.frame, copied_holds_iff h⟩
  rw [myMemcpy, hrun]
  rfl

/-- The shift by two that `my_memmove` is tested on repeats its first two bytes. -/
theorem my_memcpy_overlap_two : ∃ m',
    myMemcpy (Memory.sample [1, 2, 3, 4, 5, 6, 7, 8] (by decide)) 102 100 6 = .ok (0, m') ∧
      m'.cell 107 = some 2 := by
  have hall := Memory.holds_sample (l := ([1, 2, 3, 4, 5, 6, 7, 8] : List UInt8)) (by decide)
  have hsrc : (Memory.sample [1, 2, 3, 4, 5, 6, 7, 8] (by decide)).Holds 100
      ([1, 2, 3, 4, 5, 6] : List UInt8) := hall.within [] [7, 8]
  have hdst : ∀ j < 6, ((Memory.sample ([1, 2, 3, 4, 5, 6, 7, 8] : List UInt8)
      (by decide)).cell (102 + j)).isSome := by
    intro j hj
    rw [Nat.add_assoc 100 2 j]
    exact hall.isSome (by simp; omega)
  obtain ⟨m', hrun, hcells, -⟩ :=
    my_memcpy_overlap _ 102 100 [1, 2, 3, 4, 5, 6] hsrc hdst
  exact ⟨m', hrun, hcells 5 (by decide)⟩

end LowLevel.ProperC.PointersCopy
