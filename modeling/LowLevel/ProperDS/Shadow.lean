import LowLevel.Basis.Differential
import LowLevel.Basis.StaticArray
import Mathlib.Algebra.Order.Group.Int

namespace LowLevel.ProperDS

open Basis.AddressSpace Basis.Differential Basis.Loop Basis.StaticArray

/-- The shadow of a sequence: a static array of which a part is in use. -/
structure Shadow where
  cells : List ℤ
  len : ℕ

namespace Shadow

def empty (cap : ℕ) : Shadow := ⟨List.replicate cap 0, 0⟩

/-- `shadow[len++] = x` -/
def push (s : Shadow) (x : ℤ) : Except Stop Shadow := do
  let cells ← assign s.cells s.len x
  return ⟨cells, s.len + 1⟩

/-- `shadow[len - 1]` -/
def last (s : Shadow) : Except Stop ℤ := read s.cells (sizeSub s.len 1)

/-- `len--` -/
def shorten (s : Shadow) : Shadow := { s with len := sizeSub s.len 1 }

theorem shorten_cells (s : Shadow) : s.shorten.cells = s.cells := by rw [shorten]

theorem shorten_len (s : Shadow) : s.shorten.len = sizeSub s.len 1 := by rw [shorten]

def put (s : Shadow) (i : ℕ) (x : ℤ) : Except Stop Shadow := do
  let cells ← assign s.cells i x
  return { s with cells }

def insertAt (s : Shadow) (i : ℕ) (x : ℤ) : Except Stop Shadow := do
  let cells ← shiftUp s.cells i s.len
  let cells ← assign cells i x
  return ⟨cells, s.len + 1⟩

def removeAt (s : Shadow) (i : ℕ) : Except Stop Shadow := do
  let cells ← shiftDown s.cells i s.len
  return shorten { s with cells }

/-- The part in use is the list `l`, in an array of `cap` cells. -/
structure Keeps (cap : ℕ) (l : List ℤ) (s : Shadow) : Prop where
  small : cap < 2 ^ 64
  size : s.cells.length = cap
  used : l <+: s.cells
  len : s.len = l.length

variable {cap i : ℕ} {l : List ℤ} {s : Shadow}

theorem keeps_empty (h : cap < 2 ^ 64) : Keeps cap [] (empty cap) :=
  ⟨h, List.length_replicate, List.nil_prefix, rfl⟩

theorem Keeps.length_le (h : Keeps cap l s) : l.length ≤ cap := h.size ▸ h.used.length_le

theorem Keeps.length_lt (h : Keeps cap l s) : l.length < 2 ^ 64 :=
  Nat.lt_of_le_of_lt h.length_le h.small

theorem Keeps.len_pos (h : Keeps cap l s) (hs : s.len ≠ 0) : l ≠ [] := by
  rintro rfl
  exact hs h.len

theorem Keeps.read (h : Keeps cap l s) (hi : i < l.length) :
    Basis.StaticArray.read s.cells i = .ok (l.getD i 0) := by
  rw [read_within h.used hi, List.getD_eq_getElem?_getD, List.getElem?_eq_getElem hi]
  rfl

theorem Keeps.push (h : Keeps cap l s) (hroom : s.len < cap) (x : ℤ) :
    ∃ s', s.push x = .ok s' ∧ Keeps cap (l ++ [x]) s' := by
  have hlen := h.len
  have hlt : l.length < s.cells.length := by
    rw [h.size]
    omega
  refine ⟨⟨s.cells.set s.len x, s.len + 1⟩, ?_, h.small, ?_, ?_, ?_⟩
  · rw [Shadow.push, assign_eq (by omega)]
    rfl
  · rw [List.length_set, h.size]
  · rw [hlen]
    exact prefix_concat h.used hlt x
  · rw [List.length_append, List.length_singleton, hlen]

theorem Keeps.index (h : Keeps cap l s) (hne : l ≠ []) : sizeSub s.len 1 = l.length - 1 := by
  have hpos := List.length_pos_iff.mpr hne
  have hlt := h.length_lt
  rw [h.len, sizeSub_of_le (by omega) hlt]

theorem Keeps.last (h : Keeps cap l s) (hne : l ≠ []) : s.last = .ok (l.getLastD 0) := by
  have hpos := List.length_pos_iff.mpr hne
  rw [Shadow.last, h.index hne, h.read (by omega), List.getLastD_eq_getLast?,
    List.getLast?_eq_getElem?, List.getD_eq_getElem?_getD]

theorem Keeps.shorten (h : Keeps cap l s) (hne : l ≠ []) : Keeps cap l.dropLast s.shorten where
  small := h.small
  size := by rw [shorten_cells, h.size]
  used := by
    rw [shorten_cells]
    exact (List.dropLast_prefix l).trans h.used
  len := by
    rw [List.length_dropLast, shorten_len]
    exact h.index hne

theorem Keeps.put (h : Keeps cap l s) (hi : i < l.length) (x : ℤ) :
    ∃ s', s.put i x = .ok s' ∧ Keeps cap (l.set i x) s' := by
  have hlt := Nat.lt_of_lt_of_le hi h.used.length_le
  refine ⟨{ s with cells := s.cells.set i x }, ?_, h.small, ?_, prefix_set h.used x, ?_⟩
  · rw [Shadow.put, assign_eq hlt]
    rfl
  · rw [List.length_set, h.size]
  · rw [List.length_set, h.len]

theorem Keeps.insertAt (h : Keeps cap l s) (hi : i ≤ l.length) (hroom : s.len < cap) (x : ℤ) :
    ∃ s', s.insertAt i x = .ok s' ∧ Keeps cap (l.insertIdx i x) s' := by
  have hlen := h.len
  obtain ⟨cells, hrun, hsize, hused⟩ :=
    shiftUp_insert h.used hi (by rw [h.size]; omega) x
  refine ⟨⟨cells, s.len + 1⟩, ?_, h.small, hsize.trans h.size, hused, ?_⟩
  · rw [Shadow.insertAt, hlen]
    cases hshift : shiftUp s.cells i l.length with
    | error e =>
      rw [hshift] at hrun
      cases hrun
    | ok a =>
      rw [hshift] at hrun
      dsimp only [Except.bind] at hrun
      rw [ok_bind, hrun]
      rfl
  · rw [List.length_insertIdx_of_le_length hi, hlen]

theorem Keeps.removeAt (h : Keeps cap l s) (hi : i < l.length) :
    ∃ s', s.removeAt i = .ok s' ∧ Keeps cap (l.eraseIdx i) s' := by
  obtain ⟨cells, hrun, hsize, hused⟩ := shiftDown_erase h.used i
  refine ⟨Shadow.shorten { s with cells }, ?_, h.small, ?_, ?_, ?_⟩
  · rw [Shadow.removeAt, h.len, hrun]
    rfl
  · rw [shorten_cells, hsize, h.size]
  · rw [shorten_cells]
    exact hused
  · rw [List.length_eraseIdx_of_lt hi, shorten_len]
    exact h.index (List.length_pos_iff.mp (by omega))

end Shadow

section Compare

variable {S C τ : Type} {R : C → Type} {K : Contract S C R} {s : S} {t : τ} {vs l cells : List ℤ}
  {n m : ℕ} {β : Type} {P : S → β → Prop} {f : τ → Test C R β}

/-- One pass of the comparison of an array with a shadow. -/
def compareCells (vs cells : List ℤ) (i : ℕ) (t : τ) : Test C R τ := do
  let v ← Test.lift (read vs i)
  let want ← Test.lift (read cells i)
  Test.check (v = want)
  return t

theorem compareCells_eq (h : l <+: cells) {i : ℕ} (hi : i < l.length) (hvs : i < vs.length) :
    (compareCells vs cells i t : Test C R τ) = .checkThen (vs[i]? = l[i]?) (.done t) := by
  rw [compareCells, read_lt hvs, read_within h hi, List.getElem?_eq_getElem hi,
    List.getElem?_eq_getElem hvs]
  simp only [Option.some_inj]
  rfl

theorem decides_compareCells (h : l <+: cells) (hl : n ≤ l.length)
    (heq : ∀ i < n, vs[i]? = l[i]?) (hrest : Decides K P m (f t) s) :
    Decides K P (n + m) (Test.times (compareCells vs cells) n t >>= f) s := by
  have hloop := decides_times (K := K) (k := 1) (n := n) (s := s) (t := t) (compareCells vs cells)
    (fun _ s' t' ↦ s' = s ∧ t' = t) ⟨rfl, rfl⟩ ?_
  · rw [Nat.one_mul] at hloop
    refine Decides.bind (hloop.mono ?_)
    rintro s' t' ⟨rfl, rfl⟩
    exact hrest
  · rintro i s' t' hi ⟨rfl, rfl⟩
    have hcell := heq i hi
    rw [List.getElem?_eq_getElem (Nat.lt_of_lt_of_le hi hl)] at hcell
    obtain ⟨hvs, -⟩ := List.getElem?_eq_some_iff.mp hcell
    rw [compareCells_eq h (Nat.lt_of_lt_of_le hi hl) hvs]
    exact ⟨decide_eq_true (heq i hi), rfl, rfl⟩

theorem fails_compareCells (h : l <+: cells) (hl : n ≤ l.length) (hvs : n ≤ vs.length)
    (hne : ¬ ∀ i < n, vs[i]? = l[i]?) :
    (Test.times (compareCells vs cells) n t >>= f : Test C R β).Fails := by
  obtain ⟨i, hi⟩ := not_forall.mp hne
  obtain ⟨hlt, hdiff⟩ := Classical.not_imp.mp hi
  refine fails_times (g := fun i ↦ vs[i]? = l[i]?) (fun j hj ↦ ?_) hlt (decide_eq_false hdiff)
  exact compareCells_eq h (by omega) (by omega)

end Compare

end LowLevel.ProperDS
