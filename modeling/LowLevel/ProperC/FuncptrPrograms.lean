import LowLevel.ProperC.FuncptrFilter
import LowLevel.ProperC.Pointers

namespace LowLevel.ProperC.FuncptrPrograms

open Basis.AddressSpace Basis.CArith Basis.ExchangeSort Basis.Loop Funcptr FuncptrFilter Pointers

def mapPass (arr : ℕ) (fn : Int32 → Int32) (i : ℕ) (m : Memory Int32) :
    Except Stop (Memory Int32) := do
  m.store (arr + i) (fn (← m.load (arr + i)))

/-- Addresses count `int` cells. -/
def intMap (m : Memory Int32) (arr n : ℕ) (fn : Int32 → Int32) : Except Stop (Memory Int32) :=
  forRange (mapPass arr fn) 0 n m

def reducePass (m : Memory Int32) (arr : ℕ) (op : Int32 → Int32 → Int32) (i : ℕ) (init : Int32) :
    Except Stop Int32 := do
  return op init (← m.load (arr + i))

def intReduce (m : Memory Int32) (arr n : ℕ) (init : Int32) (op : Int32 → Int32 → Int32) :
    Except Stop Int32 :=
  forRange (reducePass m arr op) 0 n init

variable {m m₀ : Memory Int32} {arr i : ℕ} {l : List Int32} {fn : Int32 → Int32}

section map

/-- The first `i` elements replaced by their images. -/
def mapped (fn : Int32 → Int32) (i : ℕ) (l : List Int32) : List Int32 :=
  (l.take i).map fn ++ l.drop i

theorem mapped_get (fn : Int32 → Int32) (hi : i < l.length) : (mapped fn i l)[i]? = some l[i] := by
  have hlen : ((l.take i).map fn).length = i := by
    rw [List.length_map, List.length_take_of_le (Nat.le_of_lt hi)]
  rw [mapped, List.getElem?_append_right (by omega), hlen, Nat.sub_self, List.getElem?_drop,
    Nat.add_zero, List.getElem?_eq_getElem hi]

theorem mapped_set (fn : Int32 → Int32) (hi : i < l.length) :
    (mapped fn i l).set i (fn l[i]) = mapped fn (i + 1) l := by
  have hlen : ((l.take i).map fn).length = i := by
    rw [List.length_map, List.length_take_of_le (Nat.le_of_lt hi)]
  have htake : (l.take (i + 1)).map fn = (l.take i).map fn ++ [fn l[i]] := by
    rw [← List.take_append_getElem hi, List.map_append, List.map_singleton]
  rw [mapped, mapped, htake, List.set_append_right _ _ (by omega), hlen, Nat.sub_self,
    List.drop_eq_getElem_cons hi, List.set_cons_zero, List.append_assoc, List.singleton_append]

theorem mapPass_content (h : Content m₀ arr l.length m (mapped fn i l)) (hi : i < l.length) :
    ∃ m', mapPass arr fn i m = .ok m' ∧ Content m₀ arr l.length m' (mapped fn (i + 1) l) := by
  obtain ⟨m', hstore, hc⟩ := h.store hi (fn l[i])
  rw [mapped_set fn hi] at hc
  refine ⟨m', ?_, hc⟩
  rw [mapPass, Memory.load_eq (h.holds i _ (mapped_get fn hi)), ok_bind, hstore]

theorem intMap_content (fn : Int32 → Int32) (h : m.Holds arr l) :
    ∃ m', intMap m arr l.length fn = .ok m' ∧ Content m arr l.length m' (l.map fn) := by
  have hstart : Content m arr l.length m (mapped fn 0 l) := ⟨rfl, h, fun _ _ ↦ rfl⟩
  obtain ⟨m', hrun, hc⟩ := forRange_ok (fun i m' ↦ Content m arr l.length m' (mapped fn i l))
    (Nat.zero_le l.length) hstart (fun i _ hi m' hc ↦ mapPass_content hc hi)
  rw [mapped, List.take_length, List.drop_length, List.append_nil] at hc
  exact ⟨m', hrun, hc⟩

end map

theorem intReduce_eq (h : m.Holds arr l) (init : Int32) (op : Int32 → Int32 → Int32) :
    intReduce m arr l.length init op = .ok (l.foldl op init) := by
  have hloop : ∃ acc, forRange (reducePass m arr op) 0 l.length init = .ok acc ∧
      acc = (l.take l.length).foldl op init := by
    refine forRange_ok (fun i acc ↦ acc = (l.take i).foldl op init) (Nat.zero_le _) rfl ?_
    rintro i - hi acc rfl
    refine ⟨op ((l.take i).foldl op init) l[i], ?_, ?_⟩
    · rw [reducePass, Memory.load_eq (h i l[i] (List.getElem?_eq_getElem hi))]
      rfl
    · rw [← List.take_append_getElem hi, List.foldl_append]
      rfl
  obtain ⟨acc, hrun, hacc⟩ := hloop
  rw [intReduce, hrun, hacc, List.take_length]

/-- With no elements the outer bound `n - 1` wraps around, and the sweeps of
`sort_ints` still find nothing to compare. -/
theorem sortInts_empty (m : Memory Int32) (arr : ℕ) (cmp : Int32 → Int32 → Int32) :
    sortInts m arr 0 cmp = .ok m := by
  have hloop : ∃ m', forRange (fun i ↦ forRange (sortPass arr cmp i) (sizeAdd i 1) 0) 0
      (sizeSub 0 1) m = .ok m' ∧ m' = m := by
    refine forRange_ok (fun _ m' ↦ m' = m) (Nat.zero_le _) rfl ?_
    intro i _ _ m' hm'
    exact ⟨m', forRange_empty (Nat.zero_le _), hm'⟩
  obtain ⟨m', hrun, rfl⟩ := hloop
  exact hrun

inductive Routine
  | map (fn : Int32 → Int32)
  | filter (pred : Int32 → Bool)
  | sort (cmp : Int32 → Int32 → Int32)
  | reverse

/-- What a routine is for. -/
def Routine.apply : Routine → List Int32 → List Int32
  | .map fn, l => l.map fn
  | .filter pred, l => l.filter pred
  | .sort cmp, l => exchangeSort (greater cmp) l
  | .reverse, l => l.reverse

/-- A memory, and how many cells of the array are in use. -/
structure Buffer where
  mem : Memory Int32
  len : ℕ

/-- One call on the array at `arr`; `int_filter` writes over its own source. -/
def Routine.call (arr fuel : ℕ) (b : Buffer) : Routine → Except Fault Buffer
  | .map fn => do
    let m ← intMap b.mem arr b.len fn
    return { b with mem := m }
  | .filter pred => do
    let (count, m) ← intFilter b.mem arr b.len arr pred
    return ⟨m, count⟩
  | .sort cmp => do
    let m ← sortInts b.mem arr b.len cmp
    return { b with mem := m }
  | .reverse => do
    let m ← reverseArray fuel b.mem arr b.len
    return { b with mem := m }

def runProgram (arr fuel : ℕ) (prog : List Routine) (b : Buffer) : Except Fault Buffer :=
  prog.foldlM (Routine.call arr fuel) b

def applyProgram (prog : List Routine) (l : List Int32) : List Int32 :=
  prog.foldl (fun l r ↦ r.apply l) l

/-- The buffer holds `l` where the array was, and nothing past its end is touched. -/
structure Represents (m₀ : Memory Int32) (arr top : ℕ) (b : Buffer) (l : List Int32) : Prop where
  len : b.len = l.length
  room : l.length ≤ top
  holds : b.mem.Holds arr l
  frame : Memory.Outside arr (arr + top) m₀ b.mem

theorem Represents.content {top : ℕ} {b : Buffer} {l' : List Int32} {m' : Memory Int32}
    (h : Represents m₀ arr top b l) (hc : Content b.mem arr l.length m' l') :
    Represents m₀ arr top ⟨m', l'.length⟩ l' where
  len := rfl
  room := by
    rw [hc.length]
    exact h.room
  holds := hc.holds
  frame := by
    have hroom := h.room
    exact h.frame.trans (fun a ha ↦ hc.frame a (by omega))

theorem sortInts_any (cmp : Int32 → Int32 → Int32) (h : m.Holds arr l) :
    ∃ m', sortInts m arr l.length cmp = .ok m' ∧
      Content m arr l.length m' (exchangeSort (greater cmp) l) := by
  rcases Nat.eq_zero_or_pos l.length with hzero | hpos
  · obtain rfl := List.length_eq_zero_iff.mp hzero
    exact ⟨m, sortInts_empty m arr cmp, rfl, h, fun _ _ ↦ rfl⟩
  · exact sortInts_content cmp hpos h

theorem filter_target (pred : Int32 → Bool) (h : m.Holds arr l) : Target m arr arr l pred where
  room := fun _ hj ↦ h.isSome (Nat.lt_of_lt_of_le hj (List.length_filter_le pred l))
  place := .inl rfl

theorem intFilter_inPlace (pred : Int32 → Bool) (h : m.Holds arr l) :
    ∃ s, intFilter m arr l.length arr pred = .ok (s.count, s.mem) ∧
      Compacted m arr l pred l.length s := by
  have hstart : Compacted m arr l pred 0 ⟨0, m⟩ := ⟨rfl, fun i v hv ↦ by simp at hv, fun _ _ ↦ rfl⟩
  obtain ⟨s, hrun, hs⟩ := forRange_ok (Compacted m arr l pred) (Nat.zero_le l.length) hstart
    (fun i _ hi s hs ↦ hs.pass h (filter_target pred h) hi)
  refine ⟨s, ?_, hs⟩
  rw [intFilter, hrun]
  rfl

/-- One call does to the array what the routine does to the list. -/
theorem Routine.call_represents {top : ℕ} {b : Buffer} (r : Routine)
    (h : Represents m₀ arr top b l) :
    ∃ b', Returns (fun fuel ↦ r.call arr fuel b) b' ∧ Represents m₀ arr top b' (r.apply l) := by
  obtain ⟨mem, len⟩ := b
  obtain rfl : len = l.length := h.len
  cases r with
  | map fn =>
    obtain ⟨m', hrun, hc⟩ := intMap_content fn h.holds
    refine ⟨⟨m', l.length⟩, ⟨0, fun fuel _ ↦ ?_⟩, ?_⟩
    · dsimp only [Routine.call]
      rw [lift_ok hrun]
      rfl
    · have hr := h.content hc
      rwa [List.length_map] at hr
  | filter pred =>
    obtain ⟨s, hrun, hs⟩ := intFilter_inPlace pred h.holds
    have hle := hs.count_le
    obtain ⟨hcount, hholds, hframe⟩ := hs
    rw [List.take_length] at hcount hholds
    have hroom := h.room
    refine ⟨⟨s.mem, s.count⟩, ⟨0, fun fuel _ ↦ ?_⟩, hcount, ?_, hholds, ?_⟩
    · dsimp only [Routine.call]
      rw [lift_ok hrun]
      rfl
    · rw [Routine.apply, ← hcount]
      omega
    · exact h.frame.trans (fun a ha ↦ hframe a (by omega))
  | sort cmp =>
    obtain ⟨m', hrun, hc⟩ := sortInts_any cmp h.holds
    refine ⟨⟨m', l.length⟩, ⟨0, fun fuel _ ↦ ?_⟩, ?_⟩
    · dsimp only [Routine.call]
      rw [lift_ok hrun]
      rfl
    · have hr := h.content hc
      rwa [hc.length] at hr
  | reverse =>
    obtain ⟨m', hret, hc⟩ := reverseArray_returns h.holds
    refine ⟨⟨m', l.length⟩, hret.bind (returns_ok _), ?_⟩
    have hr := h.content hc
    rwa [hc.length] at hr

theorem program_represents {top : ℕ} {b : Buffer} (prog : List Routine)
    (h : Represents m₀ arr top b l) :
    ∃ b', Returns (fun fuel ↦ runProgram arr fuel prog b) b' ∧
      Represents m₀ arr top b' (applyProgram prog l) := by
  induction prog generalizing b l with
  | nil => exact ⟨b, returns_ok b, h⟩
  | cons r prog ih =>
    obtain ⟨b₁, hret, h₁⟩ := r.call_represents h
    obtain ⟨b', hret', h'⟩ := ih h₁
    refine ⟨b', ?_, h'⟩
    exact hret.bind hret'

/-- Any program of the array routines, run in one buffer on one array, ends
with the array that the same program makes of the list, and writes nothing
outside the array it was given; the reduction that follows folds that list. -/
theorem programs_refine_lists (prog : List Routine) (init : Int32) (op : Int32 → Int32 → Int32)
    (m : Memory Int32) (arr : ℕ) (l : List Int32) (h : m.Holds arr l) :
    ∃ m', Returns (fun fuel ↦ runProgram arr fuel prog ⟨m, l.length⟩)
        ⟨m', (applyProgram prog l).length⟩ ∧
      m'.Holds arr (applyProgram prog l) ∧
      Memory.Outside arr (arr + l.length) m m' ∧
      intReduce m' arr (applyProgram prog l).length init op =
        .ok ((applyProgram prog l).foldl op init) := by
  have hstart : Represents m arr l.length ⟨m, l.length⟩ l := ⟨rfl, Nat.le_refl _, h, fun _ _ ↦ rfl⟩
  obtain ⟨⟨m', len⟩, hret, hlen, -, hholds, hframe⟩ := program_represents prog hstart
  dsimp only at hlen hholds hframe
  subst hlen
  exact ⟨m', hret, hholds, hframe, intReduce_eq hholds init op⟩

theorem programs_refine_lists_three :
    ∃ m', Returns (fun fuel ↦ runProgram 100 fuel
        [.map (· * 2), .filter (· > 2), .sort (fun a b ↦ if a > b then 1 else 0), .reverse]
        ⟨Memory.sample [3, 1, 2] (by decide), 3⟩) ⟨m', 2⟩ ∧ m'.Holds 100 [6, 4] := by
  obtain ⟨m', hret, hholds, -⟩ := programs_refine_lists
    [.map (· * 2), .filter (· > 2), .sort (fun a b ↦ if a > b then 1 else 0), .reverse] 0 (· + ·) _
    100 [3, 1, 2] (Memory.holds_sample (by decide))
  exact ⟨m', hret, hholds⟩

end LowLevel.ProperC.FuncptrPrograms
