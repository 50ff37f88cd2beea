import Mathlib.Data.List.Nodup
import Mathlib.Logic.Function.Basic

namespace LowLevel.Basis.ObjectStore

open Function

/-- Mutable objects behind references. The references below `next` are in use. -/
structure Store (α : Type*) where
  next : ℕ
  cell : ℕ → α

variable {α : Type*} {s₀ s : Store α} {refs init : List ℕ} {r last : ℕ}

namespace Store

def create (s : Store α) (v : α) : ℕ × Store α :=
  (s.next, ⟨s.next + 1, update s.cell s.next v⟩)

def write (s : Store α) (r : ℕ) (v : α) : Store α := ⟨s.next, update s.cell r v⟩

def writeAll (s : Store α) (writes : List (ℕ × α)) : Store α :=
  writes.foldl (fun s w ↦ s.write w.1 w.2) s

end Store

/-- `refs` are objects created since `s₀`, and nothing older has changed. -/
structure Created (s₀ : Store α) (refs : List ℕ) (s : Store α) : Prop where
  nodup : refs.Nodup
  since : ∀ r ∈ refs, s₀.next ≤ r
  used : ∀ r ∈ refs, r < s.next
  next : s₀.next ≤ s.next
  kept : ∀ r, r < s₀.next → s.cell r = s₀.cell r

namespace Created

theorem start (s : Store α) : Created s [] s where
  nodup := List.nodup_nil
  since := by simp
  used := by simp
  next := Nat.le_refl _
  kept := fun _ _ ↦ rfl

theorem create (h : Created s₀ refs s) (v : α) :
    Created s₀ (refs ++ [(s.create v).1]) (s.create v).2 where
  nodup := by
    refine List.nodup_append.mpr ⟨h.nodup, List.nodup_singleton _, ?_⟩
    intro r hr r' hr' heq
    rw [heq, List.mem_singleton.mp hr'] at hr
    exact Nat.lt_irrefl _ (h.used _ hr)
  since := by
    intro r hr
    cases List.mem_append.mp hr with
    | inl hold => exact h.since r hold
    | inr hnew =>
      rw [List.mem_singleton.mp hnew]
      exact h.next
  used := by
    intro r hr
    cases List.mem_append.mp hr with
    | inl hold => exact Nat.lt_succ_of_lt (h.used r hold)
    | inr hnew =>
      rw [List.mem_singleton.mp hnew]
      exact Nat.lt_succ_self _
  next := Nat.le_succ_of_le h.next
  kept := by
    intro r hr
    have hne : r ≠ s.next := Nat.ne_of_lt (Nat.lt_of_lt_of_le hr h.next)
    exact (update_of_ne hne _ _).trans (h.kept r hr)

theorem write (h : Created s₀ refs s) (hr : r ∈ refs) (v : α) : Created s₀ refs (s.write r v) where
  nodup := h.nodup
  since := h.since
  used := h.used
  next := h.next
  kept := by
    intro r' hr'
    have hne : r' ≠ r := Nat.ne_of_lt (Nat.lt_of_lt_of_le hr' (h.since r hr))
    exact (update_of_ne hne _ _).trans (h.kept r' hr')

theorem writeAll (h : Created s₀ refs s) {writes : List (ℕ × α)}
    (hwrites : ∀ w ∈ writes, w.1 ∈ refs) : Created s₀ refs (s.writeAll writes) := by
  induction writes generalizing s with
  | nil => exact h
  | cons w writes ih =>
    exact ih (h.write (hwrites w List.mem_cons_self) w.2)
      (fun w' hw' ↦ hwrites w' (List.mem_cons_of_mem _ hw'))

theorem map_create (h : Created s₀ refs s) (v : α) :
    (refs ++ [(s.create v).1]).map (s.create v).2.cell = refs.map s.cell ++ [v] := by
  have hold : refs.map (s.create v).2.cell = refs.map s.cell :=
    List.map_congr_left (fun r hr ↦ update_of_ne (Nat.ne_of_lt (h.used r hr)) _ _)
  rw [List.map_append, hold, List.map_singleton]
  exact congrArg (fun a ↦ refs.map s.cell ++ [a]) (update_self _ _ _)

theorem map_write (h : Created s₀ (init ++ [last]) s) (v : α) :
    (init ++ [last]).map (s.write last v).cell = init.map s.cell ++ [v] := by
  have hold : init.map (s.write last v).cell = init.map s.cell := by
    apply List.map_congr_left
    intro r hr
    have hne : r ≠ last := (List.nodup_append.mp h.nodup).2.2 r hr last (List.mem_singleton_self _)
    exact update_of_ne hne _ _
  rw [List.map_append, hold, List.map_singleton]
  exact congrArg (fun a ↦ init.map s.cell ++ [a]) (update_self _ _ _)

end Created

end LowLevel.Basis.ObjectStore
