import LowLevel.Basis.CArith
import LowLevel.Basis.Mirror
import LowLevel.ProperC.Funcptr

namespace LowLevel.ProperC.Pointers

open Basis.AddressSpace Basis.CArith Basis.Loop Basis.Mirror Funcptr

/-- The loop state of `reverse_array`, with the passes made. -/
structure Swapping where
  i : ℕ
  j : ℕ
  mem : Memory Int32
  passes : ℕ

/-- Addresses count `int` cells. -/
def Swapping.pass (mode : Mode) (arr : ℕ) (s : Swapping) : Except Fault Swapping := do
  let temp ← s.mem.load (arr + s.i)
  let m ← s.mem.store (arr + s.i) (← s.mem.load (arr + s.j))
  let m ← m.store (arr + s.j) temp
  let i ← mode.add s.i 1
  let j ← mode.sub s.j 1
  return ⟨i, j, m, s.passes + 1⟩

def reverseLoop (fuel : ℕ) (mode : Mode) (m : Memory Int32) (arr n : ℕ) :
    Except Fault Swapping :=
  if n = 0 then .ok ⟨0, 0, m, 0⟩ else do
    let j ← mode.sub n 1
    whileFuel (.memory .timeout) (fun s ↦ decide (s.i < s.j)) (Swapping.pass mode arr) fuel
      ⟨0, j, m, 0⟩

def reverseArray (fuel : ℕ) (m : Memory Int32) (arr n : ℕ) : Except Fault (Memory Int32) :=
  (reverseLoop fuel .wrapping m arr n).map Swapping.mem

variable {m : Memory Int32} {arr : ℕ} {l : List Int32} {s : Swapping} {mode : Mode}

structure Reversing (m : Memory Int32) (arr : ℕ) (l : List Int32) (s : Swapping) : Prop where
  low : s.i = s.passes
  high : s.j + s.i + 1 = l.length
  content : ∃ l', Content m arr l.length s.mem l' ∧ Mirrored l s.i l'

theorem Reversing.step (h : Reversing m arr l s) (htop : l.length < 2 ^ 64) (hlt : s.i < s.j) :
    ∃ s', Swapping.pass mode arr s = .ok s' ∧ s'.passes = s.passes + 1 ∧ Reversing m arr l s' := by
  obtain ⟨l', hc, hmir⟩ := h.content
  have hhigh := h.high
  have hi : s.i < l'.length := by rw [hc.length]; omega
  have hj : s.j < l'.length := by rw [hc.length]; omega
  obtain ⟨m₁, hstore₁, hc₁⟩ := hc.store (i := s.i) (by omega) l'[s.j]
  obtain ⟨m₂, hstore₂, hc₂⟩ := hc₁.store (i := s.j) (by omega) l'[s.i]
  refine ⟨⟨s.i + 1, s.j - 1, m₂, s.passes + 1⟩, ?_, rfl, ?_, ?_, _, hc₂, ?_⟩
  · rw [Swapping.pass, lift_ok (hc.load hi), ok_bind, lift_ok (hc.load hj), ok_bind,
      lift_ok hstore₁, ok_bind, lift_ok hstore₂, ok_bind, mode.add_of_lt (by omega), ok_bind,
      mode.sub_of_le (by omega) (by omega), ok_bind]
    rfl
  · exact congrArg (· + 1) h.low
  · simp only
    omega
  · exact hmir.step hlt hhigh hi hj

theorem Reversing.start (h : m.Holds arr l) (hpos : 0 < l.length) :
    Reversing m arr l ⟨0, l.length - 1, m, 0⟩ :=
  ⟨rfl, Nat.sub_add_cancel hpos, l, ⟨rfl, h, fun _ _ ↦ rfl⟩, mirrored_zero l⟩

theorem reverseLoop_ok (mode : Mode) (h : m.Holds arr l) (hpos : 0 < l.length) {fuel : ℕ}
    (hfuel : l.length / 2 ≤ fuel) :
    ∃ s, reverseLoop fuel mode m arr l.length = .ok s ∧
      Reversing m arr l s ∧ s.passes = l.length / 2 := by
  have htop := h.length_lt
  rw [reverseLoop, if_neg (Nat.ne_of_gt hpos), mode.sub_of_le hpos htop, ok_bind]
  refine whileFuel_ok _ (fun k s ↦ Reversing m arr l s ∧ s.passes + k = l.length / 2) ?_ ?_ hfuel
    ⟨Reversing.start h hpos, Nat.zero_add _⟩
  · intro s hs
    have hlow := hs.1.low
    have hhigh := hs.1.high
    exact decide_eq_false (by omega)
  · intro k s hs
    have hlow := hs.1.low
    have hhigh := hs.1.high
    have hlt : s.i < s.j := by omega
    obtain ⟨s', hpass, hcount, hrev⟩ := hs.1.step htop hlt
    exact ⟨decide_eq_true hlt, s', hpass, hrev, by omega⟩

/-- The state after the last pass. -/
structure Reversed (m : Memory Int32) (arr : ℕ) (l : List Int32) (s : Swapping) : Prop where
  reversing : Reversing m arr l s
  passes : s.passes = l.length / 2

theorem Reversed.content (h : Reversed m arr l s) : Content m arr l.length s.mem l.reverse := by
  obtain ⟨l', hc, hmir⟩ := h.reversing.content
  have hlow := h.reversing.low
  have hpasses := h.passes
  rwa [hmir.reverse (by omega)] at hc

theorem Reversed.unique {s' : Swapping} (h : Reversed m arr l s) (h' : Reversed m arr l s') :
    s = s' := by
  have hlow := h.reversing.low
  have hlow' := h'.reversing.low
  have hhigh := h.reversing.high
  have hhigh' := h'.reversing.high
  have hpasses := h.passes
  have hpasses' := h'.passes
  have hmem : s.mem = s'.mem := h.content.ext h'.content
  cases s with
  | mk i j mem passes =>
    cases s' with
    | mk i' j' mem' passes' =>
      simp only at *
      simp only [Swapping.mk.injEq]
      exact ⟨by omega, by omega, hmem, by omega⟩

/-- In both modes the loop ends, in one and the same state. -/
theorem reverseLoop_returns (h : m.Holds arr l) :
    ∃ s, (∀ mode, Returns (fun fuel ↦ reverseLoop fuel mode m arr l.length) s) ∧
      s.passes = l.length / 2 ∧ Content m arr l.length s.mem l.reverse := by
  rcases Nat.eq_zero_or_pos l.length with hzero | hpos
  · refine ⟨⟨0, 0, m, 0⟩, fun mode ↦ ⟨0, fun fuel _ ↦ if_pos hzero⟩, by rw [hzero], ?_⟩
    obtain rfl := List.length_eq_zero_iff.mp hzero
    exact ⟨rfl, h, fun _ _ ↦ rfl⟩
  · have hrun : ∀ mode fuel, l.length / 2 ≤ fuel →
        ∃ s, reverseLoop fuel mode m arr l.length = .ok s ∧ Reversed m arr l s := by
      intro mode fuel hfuel
      obtain ⟨s, hok, hrev, hpasses⟩ := reverseLoop_ok mode h hpos hfuel
      exact ⟨s, hok, hrev, hpasses⟩
    obtain ⟨s, hret, hs⟩ := exists_returns_all hrun (fun _ _ ↦ Reversed.unique)
    exact ⟨s, hret, hs.passes, hs.content⟩

theorem reverseArray_returns (h : m.Holds arr l) :
    ∃ m', Returns (fun fuel ↦ reverseArray fuel m arr l.length) m' ∧
      Content m arr l.length m' l.reverse := by
  obtain ⟨s, hret, -, hc⟩ := reverseLoop_returns h
  obtain ⟨n, hn⟩ := hret .wrapping
  refine ⟨s.mem, ⟨n, fun fuel hfuel ↦ ?_⟩, hc⟩
  exact congrArg (Except.map Swapping.mem) (hn fuel hfuel)

/-- `m` may hold the array alone: an access outside it would stop the run. -/
theorem reverse_array_in_place (h : m.Holds arr l) :
    ∃ m', Returns (fun fuel ↦ reverseArray fuel m arr l.length) m' ∧
      (∀ i < l.length, m'.cell (arr + i) = m.cell (arr + (l.length - 1 - i))) ∧
      Memory.Outside arr (arr + l.length) m m' ∧
      Returns (fun fuel ↦ reverseArray fuel m' arr l.length) m := by
  obtain ⟨m', hret, hc⟩ := reverseArray_returns h
  refine ⟨m', hret, ?_, hc.frame, ?_⟩
  · intro i hi
    have hget : l.reverse[i]? = some l[l.length - 1 - i] := by
      rw [List.getElem?_reverse hi]
      exact List.getElem?_eq_getElem (by omega)
    rw [hc.holds i _ hget, h _ _ (List.getElem?_eq_getElem (by omega))]
  · obtain ⟨m'', hret', hc'⟩ := reverseArray_returns hc.holds
    rw [List.reverse_reverse, List.length_reverse] at hc'
    have hback : m'' = m :=
      hc'.holds.ext h (fun a ha ↦ (hc'.frame a ha).trans (hc.frame a ha)) (fun _ _ ↦ rfl)
    rwa [hback, List.length_reverse] at hret'

theorem reverse_array_three :
    ∃ m', Returns (fun fuel ↦ reverseArray fuel (Memory.sample [1, 2, 3] (by decide)) 100 3) m' ∧
      Returns (fun fuel ↦ reverseArray fuel m' 100 3) (Memory.sample [1, 2, 3] (by decide)) := by
  obtain ⟨m', hret, -, -, hback⟩ :=
    reverse_array_in_place (Memory.holds_sample (l := [1, 2, 3]) (by decide))
  exact ⟨m', hret, hback⟩

end LowLevel.ProperC.Pointers
