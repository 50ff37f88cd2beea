import Mathlib.Data.List.Basic
import Mathlib.Data.Nat.Basic
import Mathlib.Logic.Relation
import Mathlib.Tactic.Common

namespace LowLevel.Basis.HappensBefore

/-- What a memory model asks of the steps of a system: who takes them, which
step releases which, and the cells each reads and writes. -/
structure Actions (ι α κ : Type*) where
  agents : ι → α → Prop
  sync : ι → ι → Prop
  reads : ι → κ → Prop
  writes : ι → κ → Prop

variable {ι α κ : Type*} {A : Actions ι α κ} {tr tr' : List ι} {p q r : ℕ} {l m : ι} {a : α}

/-- Two positions of a trace in the order of one agent's program, or of a
synchronization. -/
inductive Edge (A : Actions ι α κ) (tr : List ι) : ℕ → ℕ → Prop
  | program {p q : ℕ} {l m : ι} (a : α) : p < q → tr[p]? = some l → tr[q]? = some m →
      A.agents l a → A.agents m a → Edge A tr p q
  | sync {p q : ℕ} {l m : ι} : p < q → tr[p]? = some l → tr[q]? = some m → A.sync l m →
      Edge A tr p q

def Before (A : Actions ι α κ) (tr : List ι) : ℕ → ℕ → Prop := Relation.TransGen (Edge A tr)

theorem Edge.lt (h : Edge A tr p q) : p < q := by
  cases h with
  | program _ h => exact h
  | sync h => exact h

theorem getElem?_append_some (h : tr[p]? = some l) : (tr ++ tr')[p]? = some l := by
  obtain ⟨hp, rfl⟩ := List.getElem?_eq_some_iff.mp h
  rw [List.getElem?_append_left hp, List.getElem?_eq_getElem hp]

theorem getElem?_snoc (h : (tr ++ [m])[p]? = some l) :
    tr[p]? = some l ∨ p = tr.length ∧ l = m := by
  rcases lt_or_ge p tr.length with hp | hp
  · exact Or.inl (by rwa [List.getElem?_append_left hp] at h)
  · rw [List.getElem?_append_right hp] at h
    have hz : p - tr.length = 0 := by
      by_contra hne
      rw [List.getElem?_eq_none (by simp; omega)] at h
      cases h
    rw [hz] at h
    exact Or.inr ⟨by omega, (Option.some.inj h).symm⟩

theorem lt_length_of_some (h : tr[p]? = some l) : p < tr.length :=
  (List.getElem?_eq_some_iff.mp h).1

theorem Edge.append (h : Edge A tr p q) : Edge A (tr ++ tr') p q := by
  cases h with
  | program a hlt hp hq hl hm =>
    exact .program a hlt (getElem?_append_some hp) (getElem?_append_some hq) hl hm
  | sync hlt hp hq hs =>
    exact .sync hlt (getElem?_append_some hp) (getElem?_append_some hq) hs

theorem Before.trans (h : Before A tr p q) (h' : Before A tr q r) : Before A tr p r :=
  Relation.TransGen.trans h h'

theorem Before.lt (h : Before A tr p q) : p < q := by
  induction h with
  | single he => exact he.lt
  | tail _ he ih => exact lt_trans ih he.lt

theorem Before.append (h : Before A tr p q) : Before A (tr ++ tr') p q :=
  Relation.TransGen.mono (fun _ _ he ↦ he.append) _ _ h

theorem Before.program (a : α) (hlt : p < q) (hp : tr[p]? = some l) (hq : tr[q]? = some m)
    (hl : A.agents l a) (hm : A.agents m a) : Before A tr p q :=
  .single (.program a hlt hp hq hl hm)

theorem Before.sync (hlt : p < q) (hp : tr[p]? = some l) (hq : tr[q]? = some m)
    (hs : A.sync l m) : Before A tr p q :=
  .single (.sync hlt hp hq hs)

def Conflict (A : Actions ι α κ) (l m : ι) : Prop :=
  ∃ c, A.writes l c ∧ (A.reads m c ∨ A.writes m c) ∨ A.reads l c ∧ A.writes m c

/-- Accesses to one cell, one of them a write, are ordered. -/
def RaceFree (A : Actions ι α κ) (tr : List ι) : Prop :=
  ∀ p q l m, p < q → tr[p]? = some l → tr[q]? = some m → Conflict A l m → Before A tr p q

theorem raceFree_nil : RaceFree A [] := by
  intro p q l m _ hp
  simp at hp

theorem RaceFree.snoc (h : RaceFree A tr)
    (hm : ∀ p l, tr[p]? = some l → Conflict A l m → Before A (tr ++ [m]) p tr.length) :
    RaceFree A (tr ++ [m]) := by
  intro p q l k hlt hp hq hc
  rcases getElem?_snoc hq with hq | ⟨rfl, rfl⟩
  · have hp' : tr[p]? = some l := by
      rcases getElem?_snoc hp with hp | ⟨rfl, -⟩
      · exact hp
      · exact absurd (lt_trans hlt (lt_length_of_some hq)) (lt_irrefl _)
    exact (h p q l k hlt hp' hq hc).append
  · rcases getElem?_snoc hp with hp | ⟨rfl, -⟩
    · exact hm p l hp hc
    · exact absurd hlt (lt_irrefl _)

/-- The steps of an agent come after the step that started it. -/
def Started (A : Actions ι α κ) (start : α → Option ι) (tr : List ι) : Prop :=
  ∀ q m a l, tr[q]? = some m → A.agents m a → start a = some l →
    ∃ p, tr[p]? = some l ∧ Before A tr p q

theorem started_nil {start : α → Option ι} : Started A start [] := by
  intro q m a l hq
  simp at hq

theorem Started.snoc {start : α → Option ι} (h : Started A start tr)
    (hm : ∀ a l, A.agents m a → start a = some l → A.sync l m ∧ l ∈ tr) :
    Started A start (tr ++ [m]) := by
  intro q k a l hq ha hl
  rcases getElem?_snoc hq with hq | ⟨rfl, rfl⟩
  · obtain ⟨p, hp, hb⟩ := h q k a l hq ha hl
    exact ⟨p, getElem?_append_some hp, hb.append⟩
  · obtain ⟨hs, hmem⟩ := hm a l ha hl
    obtain ⟨p, hp⟩ := List.mem_iff_getElem?.mp hmem
    exact ⟨p, getElem?_append_some hp, .sync (lt_length_of_some hp) (getElem?_append_some hp)
      (by simp) hs⟩

end LowLevel.Basis.HappensBefore
