import LowLevel.Basis.AddressSpace
import LowLevel.Basis.ExchangeSort

namespace LowLevel.ProperC.Funcptr

open Basis.AddressSpace Basis.Loop Basis.ExchangeSort

structure Filtering where
  count : ℕ
  mem : Memory Int32

def Filtering.pass (src dst : ℕ) (pred : Int32 → Bool) (i : ℕ) (s : Filtering) :
    Except Stop Filtering := do
  if pred (← s.mem.load (src + i)) then
    let m ← s.mem.store (dst + s.count) (← s.mem.load (src + i))
    return ⟨sizeAdd s.count 1, m⟩
  return s

/-- Addresses count `int` cells. -/
def intFilter (m : Memory Int32) (src n dst : ℕ) (pred : Int32 → Bool) :
    Except Stop (ℕ × Memory Int32) :=
  (forRange (Filtering.pass src dst pred) 0 n ⟨0, m⟩).map (fun s ↦ (s.count, s.mem))

/-- The body of the inner loop of `sort_ints`. Addresses count `int` cells. -/
def sortPass (arr : ℕ) (cmp : Int32 → Int32 → Int32) (i j : ℕ) (m : Memory Int32) :
    Except Stop (Memory Int32) := do
  if cmp (← m.load (arr + i)) (← m.load (arr + j)) == 1 then
    let temp ← m.load (arr + i)
    let m ← m.store (arr + i) (← m.load (arr + j))
    m.store (arr + j) temp
  else
    return m

def sortInts (m : Memory Int32) (arr n : ℕ) (cmp : Int32 → Int32 → Int32) :
    Except Stop (Memory Int32) :=
  forRange (fun i ↦ forRange (sortPass arr cmp i) (sizeAdd i 1) n) 0 (sizeSub n 1) m

def greater (cmp : Int32 → Int32 → Int32) (a b : Int32) : Bool := cmp a b == 1

variable {m₀ m : Memory Int32} {arr n i j : ℕ} {l : List Int32} {cmp : Int32 → Int32 → Int32}

/-- The array holds `l`, and the rest of the memory is that of `m₀`. -/
structure Content (m₀ : Memory Int32) (arr n : ℕ) (m : Memory Int32) (l : List Int32) : Prop where
  length : l.length = n
  holds : m.Holds arr l
  frame : Memory.Outside arr (arr + n) m₀ m

theorem Content.store (h : Content m₀ arr n m l) (hi : i < n) (v : Int32) :
    ∃ m', m.store (arr + i) v = .ok m' ∧ Content m₀ arr n m' (l.set i v) := by
  have hi' : i < l.length := by rwa [h.length]
  have ha := h.holds.isSome hi'
  refine ⟨_, Memory.store_eq ha v, by rw [List.length_set, h.length], h.holds.write ha hi' v, ?_⟩
  exact h.frame.trans (Memory.outside_write ha _ (by omega) (by omega))

theorem Content.load (h : Content m₀ arr n m l) (hi : i < l.length) :
    m.load (arr + i) = .ok l[i] :=
  Memory.load_eq (h.holds i l[i] (List.getElem?_eq_getElem hi))

theorem Content.ext {m' : Memory Int32} (h : Content m₀ arr n m l) (h' : Content m₀ arr n m' l) :
    m = m' := by
  obtain rfl := h.length
  exact h.holds.ext h'.holds h.frame h'.frame

theorem sortPass_content (h : Content m₀ arr n m l) (hi : i < n) (hj : j < n) :
    ∃ m', sortPass arr cmp i j m = .ok m' ∧
      Content m₀ arr n m' (exchange (greater cmp) i j l) := by
  have hi' : i < l.length := by rwa [h.length]
  have hj' : j < l.length := by rwa [h.length]
  rw [exchange_eq hi' hj', sortPass, h.load hi', h.load hj', ok_bind, ok_bind]
  cases hgt : greater cmp l[i] l[j] with
  | false =>
    have hne : ¬ (cmp l[i] l[j] == 1) = true := by simpa [greater] using hgt
    rw [if_neg hne]
    exact ⟨m, rfl, h⟩
  | true =>
    obtain ⟨m₁, hfirst, hc₁⟩ := h.store hi l[j]
    obtain ⟨m₂, hsecond, hc₂⟩ := hc₁.store hj l[i]
    rw [if_pos (show (cmp l[i] l[j] == 1) = true from hgt), ok_bind, ok_bind, hfirst, ok_bind]
    exact ⟨m₂, hsecond, hc₂⟩

theorem sortSweep_content (cmp : Int32 → Int32 → Int32) (h : Content m₀ arr n m l) (hi : i < n) :
    ∃ m', forRange (sortPass arr cmp i) (i + 1) n m = .ok m' ∧
      Content m₀ arr n m' (sweep (greater cmp) n i l) := by
  refine forRange_simulates (Content m₀ arr n) h ?_
  intro j _ hj m₂ l₂ h₂
  exact sortPass_content h₂ hi hj

theorem sortInts_content (cmp : Int32 → Int32 → Int32) (hn : 1 ≤ l.length) (h : m.Holds arr l) :
    ∃ m', sortInts m arr l.length cmp = .ok m' ∧
      Content m arr l.length m' (exchangeSort (greater cmp) l) := by
  have htop := h.length_lt
  rw [sortInts, sizeSub_of_le hn (by omega)]
  refine forRange_simulates (Content m arr l.length) ⟨rfl, h, fun _ _ ↦ rfl⟩ ?_
  intro i _ hi m₁ l₁ h₁
  rw [sizeAdd_of_lt (by omega)]
  exact sortSweep_content cmp h₁ (by omega)

end LowLevel.ProperC.Funcptr
