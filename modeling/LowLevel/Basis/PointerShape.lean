import LowLevel.Basis.PointerChain
import Mathlib.Data.Set.Finite.Basic
import Mathlib.Data.List.Perm.Subperm
import Mathlib.Logic.Function.Iterate
import Mathlib.Tactic.Ring

namespace LowLevel.Basis.PointerShape

open Function AddressSpace PointerChain

section Orbit

variable {β : Type*} {f : β → β} {a : β} {i j : ℕ}

theorem iterate_period (h : f^[i] a = f^[i + j] a) (k t : ℕ) (hik : i ≤ k) :
    f^[k + t * j] a = f^[k] a := by
  induction t with
  | zero => simp
  | succ t ih =>
    obtain ⟨d, rfl⟩ := Nat.exists_eq_add_of_le hik
    have hfront : i + d + (t + 1) * j = d + t * j + (i + j) := by ring
    have hback : d + t * j + i = i + d + t * j := by ring
    rw [hfront, iterate_add_apply, ← h, ← iterate_add_apply, hback]
    exact ih

/-- On a finite orbit the tortoise, after some steps, meets the hare, which is
twice as far. -/
theorem exists_iterate_double {S : Set β} (hS : S.Finite) (h : ∀ k, f^[k] a ∈ S) :
    ∃ n, 1 ≤ n ∧ f^[n] a = f^[2 * n] a := by
  obtain ⟨i, j, hij, heq⟩ : ∃ i j, 1 ≤ j ∧ f^[i] a = f^[i + j] a := by
    obtain ⟨x, -, y, -, hne, hxy⟩ := Set.infinite_univ.exists_ne_map_eq_of_mapsTo
      (f := fun k : ℕ ↦ f^[k] a) (fun k _ ↦ h k) hS
    rcases Nat.lt_or_gt_of_ne hne with hlt | hgt
    · exact ⟨x, y - x, by omega, by rw [Nat.add_sub_cancel' (by omega)]; exact hxy⟩
    · exact ⟨y, x - y, by omega, by rw [Nat.add_sub_cancel' (by omega)]; exact hxy.symm⟩
  -- a multiple of the period that lies inside the cycle
  have hle : i ≤ (i + 1) * j := by
    calc i ≤ i + 1 := Nat.le_succ i
      _ = (i + 1) * 1 := (Nat.mul_one _).symm
      _ ≤ (i + 1) * j := Nat.mul_le_mul_left _ hij
  refine ⟨(i + 1) * j, Nat.mul_pos (Nat.succ_pos i) hij, ?_⟩
  rw [Nat.two_mul]
  exact (iterate_period heq _ (i + 1) hle).symm

end Orbit

variable {α : Type*} {next : α → ℕ} {m m' : Memory α} {a b c p : ℕ} {ps qs : List ℕ} {v : α}

/-- Where the pointer in the cell at `a` leads; NULL leads nowhere. -/
def succ (next : α → ℕ) (m : Memory α) (a : ℕ) : ℕ := (m.cell a).elim 0 next

/-- Following `next` from `a` meets no dangling pointer. -/
def Grounded (next : α → ℕ) (m : Memory α) (a : ℕ) : Prop :=
  ∀ k, (succ next m)^[k] a = 0 ∨ (m.cell ((succ next m)^[k] a)).isSome

theorem succ_eq (h : m.cell a = some v) : succ next m a = next v := by rw [succ, h]; rfl

theorem iterate_null (k : ℕ) : (succ next m)^[k] 0 = 0 := by
  have hnull : succ next m 0 = 0 := by rw [succ, m.null]; rfl
  exact iterate_fixed hnull k

theorem iterate_null_of_le {i j : ℕ} (h : (succ next m)^[i] a = 0) (hle : i ≤ j) :
    (succ next m)^[j] a = 0 := by
  obtain ⟨d, rfl⟩ := Nat.exists_eq_add_of_le' hle
  rw [iterate_add_apply, h, iterate_null]

/-- From a meeting point of tortoise and hare the way back to it is a circle. -/
theorem iterate_ne_null_of_meet {i : ℕ} (hpos : 1 ≤ i)
    (hmeet : (succ next m)^[i] a = (succ next m)^[2 * i] a) (hne : (succ next m)^[i] a ≠ 0)
    (k : ℕ) : (succ next m)^[k] a ≠ 0 := by
  intro hnull
  rw [Nat.two_mul] at hmeet
  have hround := iterate_period hmeet i k (Nat.le_refl i)
  have hle : k ≤ i + k * i := by
    calc k = k * 1 := (Nat.mul_one k).symm
      _ ≤ k * i := Nat.mul_le_mul_left k hpos
      _ ≤ i + k * i := Nat.le_add_left _ _
  rw [iterate_null_of_le hnull hle] at hround
  exact hne hround.symm

theorem Grounded.cell (h : Grounded next m a) {k : ℕ} (hk : (succ next m)^[k] a ≠ 0) :
    ∃ v, m.cell ((succ next m)^[k] a) = some v ∧ next v = (succ next m)^[k + 1] a := by
  obtain ⟨v, hv⟩ := Option.isSome_iff_exists.mp ((h k).resolve_left hk)
  refine ⟨v, hv, ?_⟩
  rw [iterate_succ_apply', succ_eq hv]

theorem Grounded.finite (h : Grounded next m a) (k : ℕ) :
    (succ next m)^[k] a ∈ {p | p < 2 ^ 64} := by
  rcases eq_or_ne ((succ next m)^[k] a) 0 with hnull | hne
  · rw [hnull]
    exact Nat.two_pow_pos 64
  · obtain ⟨v, hv, -⟩ := h.cell hne
    exact Memory.lt_top hv

section Segments

theorem segment_append (h : Segment next m a ps b) (h' : Segment next m b qs c) :
    Segment next m a (ps ++ qs) c := by
  induction h with
  | nil => exact h'
  | cons cell rest ih => exact .cons cell (ih h')

theorem segment_split (h : Segment next m a (ps ++ qs) c) :
    ∃ b, Segment next m a ps b ∧ Segment next m b qs c := by
  induction ps generalizing a with
  | nil => exact ⟨a, .nil a, h⟩
  | cons p ps ih =>
    cases h with
    | cons cell rest =>
      obtain ⟨b, hps, hqs⟩ := ih rest
      exact ⟨b, .cons cell hps, hqs⟩

theorem segment_start (h : Segment next m a ps b) : a = ps.head?.getD b := by
  cases h <;> rfl

theorem segment_end (h : Segment next m a ps b) : (succ next m)^[ps.length] a = b := by
  induction h with
  | nil => rfl
  | cons cell rest ih => rwa [List.length_cons, iterate_succ_apply, succ_eq cell]

theorem segment_reaches (h : Segment next m a ps b) : ∀ p ∈ ps, ∃ k, (succ next m)^[k] a = p := by
  induction h with
  | nil => simp
  | cons cell rest ih =>
    intro q hq
    rcases List.mem_cons.mp hq with rfl | hq
    · exact ⟨0, rfl⟩
    · obtain ⟨k, hk⟩ := ih q hq
      exact ⟨k + 1, by rwa [iterate_succ_apply, succ_eq cell]⟩

theorem segment_succ (h : Segment next m a ps b) :
    ∀ p ∈ ps, succ next m p = b ∨ succ next m p ∈ ps := by
  induction h with
  | nil => simp
  | @cons p v ps b cell rest ih =>
    intro q hq
    rcases List.mem_cons.mp hq with rfl | hq
    · rw [succ_eq cell, segment_start rest]
      cases ps with
      | nil => exact .inl rfl
      | cons r rs => exact .inr (by simp)
    · exact (ih q hq).imp_right (List.mem_cons_of_mem _)

/-- A path and the other fields of its cells determine the cells. -/
theorem segment_cells {β : Type*} {rest : α → β}
    (hinj : ∀ v w, next v = next w → rest v = rest w → v = w) (h : Segment next m a ps b)
    (h' : Segment next m' a ps b) (hrest : ∀ p, (m'.cell p).map rest = (m.cell p).map rest) :
    ∀ p ∈ ps, m'.cell p = m.cell p := by
  induction h with
  | nil => simp
  | cons cell tail ih =>
    cases h' with
    | cons cell' tail' =>
      rename_i v ps b w
      have hnext : next w = next v := (segment_start tail').trans (segment_start tail).symm
      intro q hq
      rcases List.mem_cons.mp hq with rfl | hq
      · have hval := hrest q
        rw [cell, cell'] at hval
        rw [cell, cell', hinj w v hnext (Option.some.inj hval)]
      · rw [hnext] at tail'
        exact ih tail' q hq

theorem chain_iterate (h : Chain next m a ps) (k : ℕ) :
    (succ next m)^[k] a = ps[k]?.getD 0 := by
  induction ps generalizing a k with
  | nil =>
    rw [h.null_iff.mpr rfl, iterate_null]
    rfl
  | cons p ps ih =>
    obtain ⟨rfl, v, hv, hps⟩ := h.uncons
    cases k with
    | zero => rfl
    | succ k =>
      rw [iterate_succ_apply, succ_eq hv, ih hps k]
      rfl

theorem chain_unique (h : Chain next m a ps) (h' : Chain next m a qs) : ps = qs := by
  induction ps generalizing a qs with
  | nil =>
    have hnull := h.null_iff.mpr rfl
    exact (h'.null_iff.mp hnull).symm
  | cons p ps ih =>
    obtain ⟨rfl, v, hv, hps⟩ := h.uncons
    cases qs with
    | nil => exact absurd (h'.null_iff.mpr rfl) (Memory.ne_null hv)
    | cons q qs =>
      obtain ⟨rfl, w, hw, hqs⟩ := h'.uncons
      rw [hv] at hw
      cases hw
      rw [ih hps hqs]

theorem chain_nodup (h : Chain next m a ps) : ps.Nodup := by
  induction ps generalizing a with
  | nil => exact List.nodup_nil
  | cons p ps ih =>
    obtain ⟨rfl, v, hv, hps⟩ := h.uncons
    refine List.nodup_cons.mpr ⟨fun hmem ↦ ?_, ih hps⟩
    -- a second visit would continue like the first
    obtain ⟨us, ws, rfl⟩ := List.append_of_mem hmem
    obtain ⟨q, -, hws⟩ := segment_split hps
    obtain rfl : q = a := segment_start hws
    have heq := congrArg List.length (chain_unique h hws)
    simp at heq
    omega

end Segments

/-- What a list looks like from its head: it ends, or after a tail it enters a
cycle at `entry`. -/
inductive Shape
  | chain (ps : List ℕ)
  | lasso (tail : List ℕ) (entry : ℕ) (cycle : List ℕ)

def Shape.nodes : Shape → List ℕ
  | .chain ps => ps
  | .lasso tail entry cycle => tail ++ entry :: cycle

def Shaped (next : α → ℕ) (m : Memory α) (a : ℕ) : Shape → Prop
  | .chain ps => Chain next m a ps
  | .lasso tail entry cycle => Segment next m a tail entry ∧
      Segment next m entry (entry :: cycle) entry ∧ (tail ++ entry :: cycle).Nodup

def Shape.exit : Shape → ℕ
  | .chain _ => 0
  | .lasso _ entry _ => entry

variable {shape : Shape}

theorem Shaped.path (h : Shaped next m a shape) : Segment next m a shape.nodes shape.exit := by
  cases shape with
  | chain ps => exact h
  | lasso tail entry cycle => exact segment_append h.1 h.2.1

theorem Shaped.nodup (h : Shaped next m a shape) : shape.nodes.Nodup := by
  cases shape with
  | chain ps => exact chain_nodup h
  | lasso tail entry cycle => exact h.2.2

theorem Shaped.reaches (h : Shaped next m a shape) :
    ∀ p ∈ shape.nodes, ∃ k, (succ next m)^[k] a = p := segment_reaches h.path

theorem lasso_iterate {tail cycle : List ℕ} {entry : ℕ}
    (h : Shaped next m a (.lasso tail entry cycle)) (k : ℕ) :
    (succ next m)^[k] a ∈ tail ++ entry :: cycle := by
  have hmaps : Set.MapsTo (succ next m) {p | p ∈ tail ++ entry :: cycle}
      {p | p ∈ tail ++ entry :: cycle} := by
    intro p hp
    rcases segment_succ h.path p hp with hend | hmem
    · rw [hend]
      simp [Shape.exit]
    · exact hmem
  refine hmaps.iterate k ?_
  rw [segment_start h.1]
  cases tail <;> simp

theorem Shaped.grounded (h : Shaped next m a shape) : Grounded next m a := by
  intro k
  cases shape with
  | lasso tail entry cycle => exact .inr (h.path.isSome _ (lasso_iterate h k))
  | chain ps =>
    have hmaps : Set.MapsTo (succ next m) {p | p = 0 ∨ p ∈ ps} {p | p = 0 ∨ p ∈ ps} := by
      intro p hp
      rcases hp with rfl | hp
      · exact .inl (iterate_null 1)
      · exact segment_succ h p hp
    have hstart : a = 0 ∨ a ∈ ps := by
      rw [segment_start h]
      cases ps <;> simp
    exact (hmaps.iterate k hstart).imp_right (fun hmem ↦ Segment.isSome h _ hmem)

theorem Shaped.never_null_iff (h : Shaped next m a shape) :
    (∀ k, (succ next m)^[k] a ≠ 0) ↔ ∃ tail entry cycle, shape = .lasso tail entry cycle := by
  cases shape with
  | chain ps =>
    refine iff_of_false (fun hall ↦ hall ps.length (segment_end h)) ?_
    intro hex
    obtain ⟨tail, entry, cycle, heq⟩ := hex
    cases heq
  | lasso tail entry cycle =>
    refine iff_of_true (fun k ↦ ?_) ⟨tail, entry, cycle, rfl⟩
    obtain ⟨v, hv⟩ := Option.isSome_iff_exists.mp (h.path.isSome _ (lasso_iterate h k))
    exact Memory.ne_null hv

theorem segment_length (h : Segment next m a ps b) (hnodup : ps.Nodup) : ps.length < 2 ^ 64 := by
  have hsub : (0 :: ps).Subperm (List.range (2 ^ 64)) := by
    refine List.subperm_of_subset (List.nodup_cons.mpr ⟨?_, hnodup⟩) ?_
    · intro hzero
      have hsome := h.isSome 0 hzero
      rw [m.null] at hsome
      cases hsome
    · intro p hp
      rw [List.mem_range]
      rcases List.mem_cons.mp hp with rfl | hp
      · exact Nat.two_pow_pos 64
      · obtain ⟨v, hv⟩ := Option.isSome_iff_exists.mp (h.isSome p hp)
        exact Memory.lt_top hv
  have hle := hsub.length_le
  rw [List.length_range, List.length_cons] at hle
  exact hle

/-- A path that may be prolonged comes back or ends, for want of addresses. -/
theorem shaped_of_segment (h : Grounded next m a) (n : ℕ) (hseg : Segment next m a ps b)
    (hnodup : ps.Nodup) (hn : ps.length + n = 2 ^ 64) : ∃ shape, Shaped next m a shape := by
  induction n generalizing ps b with
  | zero =>
    have hlt := segment_length hseg hnodup
    omega
  | succ n ih =>
    rcases eq_or_ne b 0 with rfl | hne
    · exact ⟨.chain ps, hseg⟩
    · by_cases hmem : b ∈ ps
      · obtain ⟨us, ws, rfl⟩ := List.append_of_mem hmem
        obtain ⟨q, hus, hws⟩ := segment_split hseg
        obtain rfl : q = b := segment_start hws
        exact ⟨.lasso us q ws, hus, hws, hnodup⟩
      · have hend := segment_end hseg
        rw [← hend] at hne
        obtain ⟨v, hv, -⟩ := h.cell hne
        rw [hend] at hv
        refine ih (segment_append hseg (.cons hv (.nil _))) ?_ ?_
        · rw [← List.concat_eq_append]
          exact hnodup.concat hmem
        · rw [List.length_append, List.length_singleton]
          omega

theorem grounded_iff_shaped : Grounded next m a ↔ ∃ shape, Shaped next m a shape := by
  constructor
  · intro h
    exact shaped_of_segment h (2 ^ 64) (.nil a) List.nodup_nil (Nat.zero_add _)
  · intro hex
    obtain ⟨shape, h⟩ := hex
    exact h.grounded

end LowLevel.Basis.PointerShape
