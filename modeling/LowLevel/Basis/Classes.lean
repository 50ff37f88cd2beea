import Mathlib.Data.Set.Card
import Mathlib.Logic.Relation

namespace LowLevel.Basis.Classes

open Relation

variable {ι L : Type*} [DecidableEq L] {f : ι → L} {pairs : List (ι × ι)} {a b x y : ι}

/-- The classes that joining the pairs leaves. -/
def Joined (pairs : List (ι × ι)) : Setoid ι := EqvGen.setoid (fun x y ↦ (x, y) ∈ pairs)

/-- The class of `b` takes the label of `a`. -/
def relabel (f : ι → L) (a b : ι) (i : ι) : L := if f i = f b then f a else f i

def Labels (f : ι → L) (pairs : List (ι × ι)) : Prop := ∀ x y, f x = f y ↔ Joined pairs x y

theorem joined_pair (a b : ι) (pairs : List (ι × ι)) : Joined ((a, b) :: pairs) a b :=
  EqvGen.rel a b List.mem_cons_self

theorem joined_cons (p : ι × ι) (h : Joined pairs x y) : Joined (p :: pairs) x y :=
  EqvGen.mono (fun _ _ ↦ List.mem_cons_of_mem p) x y h

omit [DecidableEq L] in
theorem labels_nil (hf : Function.Injective f) : Labels f [] := by
  intro x y
  constructor
  · intro heq
    exact hf heq ▸ (Joined []).refl' x
  · intro h
    induction h with
    | rel x y hmem => exact absurd hmem List.not_mem_nil
    | refl x => rfl
    | symm x y _ ih => exact ih.symm
    | trans x y z _ _ ih ih' => exact ih.trans ih'

theorem relabel_of_eq (heq : f a = f b) : relabel f a b = f := by
  funext i
  rw [relabel]
  split_ifs with hi
  · rw [heq, hi]
  · rfl

theorem Labels.relabel (h : Labels f pairs) (a b : ι) :
    Labels (relabel f a b) ((a, b) :: pairs) := by
  have hclass : ∀ x, Joined ((a, b) :: pairs) x (if f x = f b then a else x) := by
    intro x
    split_ifs with hx
    · exact (Joined _).trans' (joined_cons _ ((h x b).mp hx))
        ((Joined _).symm' (joined_pair a b pairs))
    · exact (Joined _).refl' x
  intro x y
  constructor
  · intro heq
    have hlabel : f (if f x = f b then a else x) = f (if f y = f b then a else y) := by
      rw [Classes.relabel, Classes.relabel, ← apply_ite f, ← apply_ite f] at heq
      exact heq
    exact (Joined _).trans' (hclass x)
      ((Joined _).trans' (joined_cons _ ((h _ _).mp hlabel)) ((Joined _).symm' (hclass y)))
  · intro hjoined
    induction hjoined with
    | rel x y hmem =>
      rcases List.mem_cons.mp hmem with heq | hmem
      · obtain ⟨rfl, rfl⟩ := Prod.mk.inj heq
        rw [Classes.relabel, Classes.relabel, if_pos rfl, ite_self]
      · rw [Classes.relabel, Classes.relabel, (h x y).mpr (EqvGen.rel x y hmem)]
    | refl x => rfl
    | symm x y _ ih => exact ih.symm
    | trans x y z _ _ ih ih' => exact ih.trans ih'

/-- Joining within a class changes nothing. -/
theorem Labels.same (h : Labels f pairs) (heq : f a = f b) : Labels f ((a, b) :: pairs) := by
  have hrelabel := h.relabel a b
  rwa [relabel_of_eq heq] at hrelabel

omit [DecidableEq L] in
/-- There are as many classes as labels. -/
theorem Labels.card (h : Labels f pairs) :
    Nat.card (Quotient (Joined pairs)) = (Set.range f).ncard := by
  have hker : Setoid.ker f = Joined pairs := by
    ext x y
    exact h x y
  rw [← hker, ← Nat.card_coe_set_eq]
  exact Nat.card_congr (Setoid.quotientKerEquivRange f)

end LowLevel.Basis.Classes
