import LowLevel.Basis.AddressSpace

namespace LowLevel.Basis.PointerChain

open Function AddressSpace

variable {α : Type*} {next : α → ℕ} {m m' : Memory α} {a b p : ℕ} {ps : List ℕ}

/-- Following `next` from `a` visits `ps` and arrives at `b`. -/
inductive Segment (next : α → ℕ) (m : Memory α) : ℕ → List ℕ → ℕ → Prop
  | nil (a : ℕ) : Segment next m a [] a
  | cons {p : ℕ} {v : α} {ps : List ℕ} {b : ℕ} (cell : m.cell p = some v)
      (rest : Segment next m (next v) ps b) : Segment next m p (p :: ps) b

namespace Segment

theorem isSome (h : Segment next m a ps b) : ∀ p ∈ ps, (m.cell p).isSome := by
  induction h with
  | nil a => simp
  | cons cell rest ih => simpa [cell] using ih

theorem congr (h : Segment next m a ps b) (heq : ∀ p ∈ ps, m'.cell p = m.cell p) :
    Segment next m' a ps b := by
  induction h with
  | nil a => exact nil a
  | cons cell rest ih =>
    refine cons ?_ (ih (fun q hq ↦ heq q (List.mem_cons_of_mem _ hq)))
    rw [heq _ List.mem_cons_self, cell]

end Segment

def Chain (next : α → ℕ) (m : Memory α) (a : ℕ) (ps : List ℕ) : Prop := Segment next m a ps 0

namespace Chain

theorem nil : Chain next m 0 [] := Segment.nil 0

theorem cons {v : α} (cell : m.cell p = some v) (rest : Chain next m (next v) ps) :
    Chain next m p (p :: ps) := Segment.cons cell rest

theorem uncons (h : Chain next m a (p :: ps)) :
    a = p ∧ ∃ v, m.cell p = some v ∧ Chain next m (next v) ps := by
  cases h with
  | cons cell rest => exact ⟨rfl, _, cell, rest⟩

theorem null_iff (h : Chain next m a ps) : a = 0 ↔ ps = [] := by
  cases h with
  | nil => simp
  | cons cell rest => simp [Memory.ne_null cell]

theorem update (h : Chain next m a ps) {o : Option α} (hcell : m'.cell = Function.update m.cell p o)
    (hp : p ∉ ps) : Chain next m' a ps := by
  refine Segment.congr h ?_
  intro q hq
  have hne : q ≠ p := ne_of_mem_of_not_mem hq hp
  rw [hcell, update_of_ne hne]

end Chain

end LowLevel.Basis.PointerChain
