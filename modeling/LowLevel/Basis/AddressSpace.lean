import Mathlib.Algebra.Group.Nat.Defs
import Mathlib.Logic.Function.Basic
import Mathlib.Tactic.Common

namespace LowLevel.Basis.AddressSpace

open Function

/-- The allocated cells of a 64-bit address space. The null address is never
among them. -/
@[ext] structure Memory (α : Type*) where
  cell : ℕ → Option α
  null : cell 0 = none
  top : ∀ a, 2 ^ 64 ≤ a → cell a = none

inductive Stop
  | load (a : ℕ)
  | store (a : ℕ)
  | free (a : ℕ)
  | timeout
  deriving DecidableEq, Repr

variable {α : Type*} {m m' : Memory α} {a b : ℕ} {v : α}

namespace Memory

theorem ne_null (h : m.cell a = some v) : a ≠ 0 := by
  intro ha
  rw [ha, m.null] at h
  cases h

theorem lt_top (h : m.cell a = some v) : a < 2 ^ 64 := by
  by_contra ha
  rw [m.top a (Nat.le_of_not_lt ha)] at h
  cases h

def load (m : Memory α) (a : ℕ) : Except Stop α :=
  match m.cell a with
  | none => .error (.load a)
  | some v => .ok v

def write (m : Memory α) (a : ℕ) (o : Option α) (h : (m.cell a).isSome) : Memory α where
  cell := update m.cell a o
  null := by
    have hne : 0 ≠ a := by
      intro heq
      subst heq
      rw [m.null] at h
      cases h
    rw [update_of_ne hne, m.null]
  top := by
    intro b hb
    have hne : b ≠ a := by
      intro heq
      subst heq
      rw [m.top b hb] at h
      cases h
    rw [update_of_ne hne, m.top b hb]

def store (m : Memory α) (a : ℕ) (v : α) : Except Stop (Memory α) :=
  if h : (m.cell a).isSome then .ok (m.write a (some v) h) else .error (.store a)

def modify (m : Memory α) (a : ℕ) (f : α → α) : Except Stop (Memory α) :=
  if h : (m.cell a).isSome then .ok (m.write a ((m.cell a).map f) h) else .error (.store a)

def release (m : Memory α) (a : ℕ) : Except Stop (Memory α) :=
  if h : (m.cell a).isSome then .ok (m.write a none h) else .error (.free a)

def Fresh (m : Memory α) (a : ℕ) : Prop := a ≠ 0 ∧ a < 2 ^ 64 ∧ m.cell a = none

instance (m : Memory α) (a : ℕ) : Decidable (m.Fresh a) :=
  decidable_of_iff (a ≠ 0 ∧ a < 2 ^ 64 ∧ (m.cell a).isNone) (by simp [Fresh])

def allocate (m : Memory α) (a : ℕ) (v : α) (h : m.Fresh a) : Memory α where
  cell := update m.cell a (some v)
  null := by rw [update_of_ne h.1.symm, m.null]
  top := by
    intro b hb
    have hlt := h.2.1
    have hne : b ≠ a := by omega
    rw [update_of_ne hne, m.top b hb]

@[simp] theorem write_cell (o : Option α) (h : (m.cell a).isSome) :
    (m.write a o h).cell = update m.cell a o := rfl

@[simp] theorem allocate_cell (h : m.Fresh a) :
    (m.allocate a v h).cell = update m.cell a (some v) := rfl

theorem load_eq (h : m.cell a = some v) : m.load a = .ok v := by simp [load, h]

theorem store_eq (h : (m.cell a).isSome) (v : α) : m.store a v = .ok (m.write a (some v) h) := by
  simp [store, h]

theorem modify_spec (h : m.cell a = some v) (f : α → α) :
    ∃ m', m.modify a f = .ok m' ∧ m'.cell = update m.cell a (some (f v)) :=
  ⟨m.write a (some (f v)) (by rw [h]; rfl), by simp [modify, h], rfl⟩

theorem release_spec (h : m.cell a = some v) :
    ∃ m', m.release a = .ok m' ∧ m'.cell = update m.cell a none :=
  ⟨m.write a none (by rw [h]; rfl), by simp [release, h], rfl⟩

theorem store_none (h : m.cell a = none) (v : α) : m.store a v = .error (.store a) := by
  simp [store, h]

def SameDomain (m m' : Memory α) : Prop := ∀ a, (m'.cell a).isSome = (m.cell a).isSome

theorem sameDomain_write (h : (m.cell a).isSome) (v : α) : m.SameDomain (m.write a (some v) h) := by
  intro b
  rcases eq_or_ne b a with rfl | hne
  · simp [h]
  · simp [update_of_ne hne]

theorem SameDomain.trans {m'' : Memory α} (h : m.SameDomain m') (h' : m'.SameDomain m'') :
    m.SameDomain m'' := fun a ↦ (h' a).trans (h a)

def Outside (lo hi : ℕ) (m m' : Memory α) : Prop := ∀ a, a < lo ∨ hi ≤ a → m'.cell a = m.cell a

theorem outside_write {lo hi : ℕ} (h : (m.cell a).isSome) (o : Option α) (hlo : lo ≤ a)
    (hhi : a < hi) : Outside lo hi m (m.write a o h) := by
  intro b hb
  have hne : b ≠ a := by omega
  simp [update_of_ne hne]

theorem Outside.trans {lo hi : ℕ} {m'' : Memory α} (h : Outside lo hi m m')
    (h' : Outside lo hi m' m'') : Outside lo hi m m'' := fun a ha ↦ (h' a ha).trans (h a ha)

def Holds (m : Memory α) (p : ℕ) (l : List α) : Prop :=
  ∀ i v, l[i]? = some v → m.cell (p + i) = some v

theorem Holds.congr {p : ℕ} {l : List α} (h : m.Holds p l)
    (heq : ∀ i < l.length, m'.cell (p + i) = m.cell (p + i)) : m'.Holds p l := by
  intro i v hv
  obtain ⟨hi, -⟩ := List.getElem?_eq_some_iff.mp hv
  rw [heq i hi, h i v hv]

theorem Holds.isSome {p : ℕ} {l : List α} (h : m.Holds p l) {i : ℕ} (hi : i < l.length) :
    (m.cell (p + i)).isSome := by
  rw [h i l[i] (List.getElem?_eq_getElem hi)]
  rfl

theorem Holds.length_lt {p : ℕ} {l : List α} (h : m.Holds p l) : l.length < 2 ^ 64 := by
  rcases Nat.eq_zero_or_pos l.length with hzero | hpos
  · omega
  · obtain ⟨v, hv⟩ := Option.isSome_iff_exists.mp (h.isSome hpos)
    obtain ⟨w, hw⟩ := Option.isSome_iff_exists.mp (h.isSome (i := l.length - 1) (by omega))
    have hne := ne_null hv
    have htop := lt_top hw
    omega

theorem Holds.write {p i : ℕ} {l : List α} (h : m.Holds p l) (ha : (m.cell (p + i)).isSome)
    (hi : i < l.length) (v : α) : (m.write (p + i) (some v) ha).Holds p (l.set i v) := by
  intro j w hw
  rcases eq_or_ne i j with rfl | hne
  · rw [List.getElem?_set_self hi] at hw
    rw [write_cell, update_self, hw]
  · rw [List.getElem?_set_ne hne] at hw
    rw [write_cell, update_of_ne (by omega), h j w hw]

theorem Holds.concat {p : ℕ} {l : List α} (h : m.Holds p l) (hv : m.cell (p + l.length) = some v) :
    m.Holds p (l ++ [v]) := by
  intro i w hw
  rcases Nat.lt_trichotomy i l.length with hlt | heq | hgt
  · rw [List.getElem?_append_left hlt] at hw
    exact h i w hw
  · rw [heq, List.getElem?_concat_length] at hw
    rw [heq, hv, hw]
  · rw [List.getElem?_eq_none (by simp; omega)] at hw
    cases hw

theorem Holds.within {p : ℕ} {l : List α} (pre post : List α) (h : m.Holds p (pre ++ l ++ post)) :
    m.Holds (p + pre.length) l := by
  intro i v hv
  obtain ⟨hi, -⟩ := List.getElem?_eq_some_iff.mp hv
  rw [Nat.add_assoc]
  apply h
  rw [List.append_assoc, List.getElem?_append_right (Nat.le_add_right _ _),
    Nat.add_sub_cancel_left, List.getElem?_append_left hi, hv]

theorem Holds.inj {p : ℕ} {l l' : List α} (h : m.Holds p l) (h' : m.Holds p l')
    (hlen : l.length = l'.length) : l = l' := by
  apply List.ext_getElem hlen
  intro i hi hi'
  have hcell := h i _ (List.getElem?_eq_getElem hi)
  rw [h' i _ (List.getElem?_eq_getElem hi')] at hcell
  exact (Option.some.inj hcell).symm

theorem Holds.ext {p : ℕ} {l : List α} {m₀ : Memory α} (h : m.Holds p l) (h' : m'.Holds p l)
    (hout : Outside p (p + l.length) m₀ m) (hout' : Outside p (p + l.length) m₀ m') : m = m' := by
  refine Memory.ext (funext fun a ↦ ?_)
  rcases Decidable.em (a < p ∨ p + l.length ≤ a) with ha | ha
  · rw [hout a ha, hout' a ha]
  · obtain ⟨i, rfl⟩ := Nat.exists_eq_add_of_le (show p ≤ a by omega)
    have hi : l[i]? = some l[i] := List.getElem?_eq_getElem (by omega)
    rw [h i _ hi, h' i _ hi]

/-- Nothing but the list, from address `p` on. -/
def ofList (p : ℕ) (l : List α) (hpos : 0 < p) (htop : p + l.length ≤ 2 ^ 64) : Memory α where
  cell a := if p ≤ a then l[a - p]? else none
  null := if_neg (by omega)
  top := by
    intro a ha
    rw [if_pos (by omega)]
    exact List.getElem?_eq_none (by omega)

theorem holds_ofList {p : ℕ} {l : List α} (hpos : 0 < p) (htop : p + l.length ≤ 2 ^ 64) :
    (ofList p l hpos htop).Holds p l := by
  intro i v hv
  simpa [ofList] using hv

theorem sample_pos : 0 < 100 := by omega

/-- The list alone, at address 100. -/
def sample (l : List α) (h : 100 + l.length ≤ 2 ^ 64) : Memory α := ofList 100 l sample_pos h

theorem holds_sample {l : List α} (h : 100 + l.length ≤ 2 ^ 64) : (sample l h).Holds 100 l :=
  holds_ofList _ h

end Memory

/-- `a - b` in `size_t`. -/
@[irreducible] def sizeSub (a b : ℕ) : ℕ := (a + (2 ^ 64 - b)) % 2 ^ 64

@[irreducible] def sizeAdd (a b : ℕ) : ℕ := (a + b) % 2 ^ 64

theorem sizeSub_of_le (h : b ≤ a) (ha : a < 2 ^ 64) : sizeSub a b = a - b := by
  unfold sizeSub
  omega

theorem sizeSub_zero_one : sizeSub 0 1 = 2 ^ 64 - 1 := by
  unfold sizeSub
  rfl

theorem sizeSub_lt (a b : ℕ) : sizeSub a b < 2 ^ 64 := by
  unfold sizeSub
  exact Nat.mod_lt _ (by omega)

theorem sizeAdd_of_lt (h : a + b < 2 ^ 64) : sizeAdd a b = a + b := by
  unfold sizeAdd
  exact Nat.mod_eq_of_lt h

end LowLevel.Basis.AddressSpace
