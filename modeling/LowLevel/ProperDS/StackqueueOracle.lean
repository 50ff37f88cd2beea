import LowLevel.ProperDS.Judgement
import LowLevel.ProperDS.Shadow

namespace LowLevel.ProperDS.StackqueueOracle

open Basis.AddressSpace Basis.Differential Basis.Loop Basis.StaticArray

namespace Stack

def cap : ℕ := 2048

inductive Call
  | init
  | push (x : ℤ)
  | pop
  | peek
  | isEmpty
  | free

/-- A pop and a peek answer whether there was an element, with `*out` after it. -/
abbrev Reply : Call → Type
  | .push _ | .isEmpty => Bool
  | .pop | .peek => Bool × ℤ
  | .init | .free => Unit

abbrev Prog := Test Call Reply

/-- A stack, the top at the end of the list. -/
def contract : Contract (List ℤ) Call Reply where
  pre _ _ := True
  allows l c r :=
    match c, r with
    | .push _, ok => ok = true
    | .pop, (got, out) | .peek, (got, out) =>
      got = decide (l ≠ []) ∧ (l ≠ [] → out = l.getLastD 0)
    | .isEmpty, b => b = decide (l = [])
    | .init, _ | .free, _ => True
  next l c :=
    match c with
    | .init | .free => []
    | .push x => l ++ [x]
    | .pop => l.dropLast
    | .peek | .isEmpty => l
  answer l c :=
    match c with
    | .push _ => true
    | .pop | .peek => (decide (l ≠ []), l.getLastD 0)
    | .isEmpty => decide (l = [])
    | .init | .free => ()
  answer_allowed := by
    intro l c _
    cases c with
    | init => trivial
    | push x => rfl
    | pop => exact ⟨rfl, fun _ ↦ rfl⟩
    | peek => exact ⟨rfl, fun _ ↦ rfl⟩
    | isEmpty => rfl
    | free => trivial

def callPop : Prog (Bool × ℤ) := Test.call Call.pop

def callPeek : Prog (Bool × ℤ) := Test.call Call.peek

def push (s : Shadow) : Prog Shadow := do
  let x ← Test.draw
  Test.checkEq (.push x) true
  Test.lift (s.push x)

/-- `peek` and `pop` against the top of the shadow. -/
def pop (s : Shadow) : Prog Shadow := do
  Test.checkOut callPeek s.last
  Test.checkOut callPop (read s.shorten.cells s.shorten.len)
  return s.shorten

def operation (r : ℕ) (s : Shadow) : Prog Shadow :=
  if (r = 0 ∨ s.len = 0) ∧ s.len < cap then push s else pop s

def pass (_op : ℕ) (s : Shadow) : Prog Shadow := do
  let r ← Test.drawBelow 2
  let s ← operation r s
  Test.checkEq .isEmpty (decide (s.len = 0))
  return s

def differential (ops : ℕ) : Prog Unit := do
  Test.heading "stack differential vs oracle"
  let _ ← Test.call Call.init
  let _ ← Test.forInt pass ops (Shadow.empty cap)
  let _ ← Test.call Call.free
  return ()

abbrev Held : List ℤ → Shadow → Prop := Shadow.Keeps cap

variable {l : List ℤ} {s : Shadow}

theorem decides_push (h : Held l s) (hroom : s.len < cap) :
    Decides contract Held 4 (push s) l := by
  refine decides_draw (fun x ↦ ?_)
  obtain ⟨s', hrun, hkeeps⟩ := h.push hroom x
  refine decides_checkEq trivial (fun _ ↦ Iff.rfl) ?_
  rw [hrun]
  exact hkeeps

theorem decides_pop (h : Held l s) (hne : l ≠ []) : Decides contract Held 4 (pop s) l := by
  have hlast := h.last hne
  have hlast' : read s.shorten.cells s.shorten.len = .ok (l.getLastD 0) := by
    rw [Shadow.shorten_cells, Shadow.shorten_len]
    exact hlast
  refine decides_checkOut .peek callPeek id rfl trivial hlast (found_iff hne _) ?_
  refine decides_checkOut .pop callPop id rfl trivial hlast' (found_iff hne _) ?_
  exact h.shorten hne

theorem decides_pass (i : ℕ) (h : Held l s) : Decides contract Held 5 (pass i s) l := by
  refine decides_drawBelow (by decide) (fun r _ ↦ Decides.bind (n := 4) (m := 1) ?_)
  have hop : Decides contract Held 4 (operation r s) l := by
    rw [operation]
    split_ifs with hpush
    · exact decides_push h hpush.2
    · refine decides_pop h (h.len_pos (fun hempty ↦ hpush ⟨.inr hempty, ?_⟩))
      rw [hempty]
      decide
  refine hop.mono (fun l' s' h' ↦ decides_checkEq trivial (fun b ↦ ?_) h')
  have hiff : decide (s'.len = 0) = decide (l' = []) :=
    decide_eq_decide.mpr (by rw [h'.len, List.length_eq_zero_iff])
  rw [hiff]
  rfl

theorem judges_differential (l : List ℤ) {ops : ℕ} (hops : ops < 2 ^ 31) :
    Judges contract (5 * ops) l (differential ops) := by
  have hloop := decides_forInt pass (fun _ ↦ Held) hops (Shadow.keeps_empty (by decide))
    (fun i _ _ _ h ↦ decides_pass i h)
  refine judges_of_decides _ (decides_quiet trivial (fun _ ↦ trivial) (fun _ ↦ ?_))
  refine Decides.bind (m := 0) (hloop.mono (fun l s _ ↦ ?_))
  exact decides_quiet trivial (fun _ ↦ trivial) (fun _ ↦ trivial)

end Stack

namespace Queue

inductive Call
  | init (cap : ℕ)
  | enqueue (x : ℤ)
  | dequeue
  | isEmpty
  | isFull
  | free

abbrev Reply : Call → Type
  | .init _ | .enqueue _ | .isEmpty | .isFull => Bool
  | .dequeue => Bool × ℤ
  | .free => Unit

abbrev Prog := Test Call Reply

/-- The capacity a queue got from `init`, and its elements. -/
structure Bounded where
  cap : ℕ
  elems : List ℤ

/-- A queue that turns an element away when it is full. -/
def contract : Contract Bounded Call Reply where
  pre _ c :=
    match c with
    | .init cap => 0 < cap
    | .enqueue _ | .dequeue | .isEmpty | .isFull | .free => True
  allows q c r :=
    match c, r with
    | .init _, ok => ok = true
    | .enqueue _, ok => ok = decide (q.elems.length < q.cap)
    | .dequeue, (got, out) =>
      got = decide (q.elems ≠ []) ∧ (q.elems ≠ [] → out = q.elems.headD 0)
    | .isEmpty, b => b = decide (q.elems = [])
    | .isFull, b => b = decide (q.elems.length = q.cap)
    | .free, _ => True
  next q c :=
    match c with
    | .init cap => ⟨cap, []⟩
    | .enqueue x => ⟨q.cap, if q.elems.length < q.cap then q.elems ++ [x] else q.elems⟩
    | .dequeue => ⟨q.cap, q.elems.tail⟩
    | .isEmpty | .isFull => q
    | .free => ⟨0, []⟩
  answer q c :=
    match c with
    | .init _ => true
    | .enqueue _ => decide (q.elems.length < q.cap)
    | .dequeue => (decide (q.elems ≠ []), q.elems.headD 0)
    | .isEmpty => decide (q.elems = [])
    | .isFull => decide (q.elems.length = q.cap)
    | .free => ()
  answer_allowed := by
    intro q c _
    cases c with
    | init cap => rfl
    | enqueue x => rfl
    | dequeue => exact ⟨rfl, fun _ ↦ rfl⟩
    | isEmpty => rfl
    | isFull => rfl
    | free => trivial

/-- The elements pending are those from `fh` up to `ft`, around the array. -/
structure Ring where
  fifo : List ℤ
  fh : ℕ
  ft : ℕ

def start : Ring := ⟨List.replicate 4000 0, 0, 0⟩

def callEnqueue (x : ℤ) : Prog Bool := Test.call (Call.enqueue x)

def callDequeue : Prog (Bool × ℤ) := Test.call Call.dequeue

def enqueue (s : Ring) : Prog Ring := do
  let x ← Test.draw
  let got ← callEnqueue x
  Test.check (got = decide (sizeSub s.ft s.fh < 8))
  if got then do
    let fifo ← Test.lift (assign s.fifo (s.ft % 4000) (x : ℤ))
    return ⟨fifo, s.fh, sizeAdd s.ft 1⟩
  else return s

def dequeue (s : Ring) : Prog Ring := do
  let (got, out) ← callDequeue
  Test.check (got = decide (s.fh < s.ft))
  if got then do
    let want ← Test.lift (read s.fifo (s.fh % 4000))
    Test.check (out = want)
    return { s with fh := sizeAdd s.fh 1 }
  else return s

def operation (r : ℕ) (s : Ring) : Prog Ring := if r = 0 then enqueue s else dequeue s

def pass (_op : ℕ) (s : Ring) : Prog Ring := do
  let r ← Test.drawBelow 2
  let s ← operation r s
  Test.checkEq .isEmpty (decide (s.ft = s.fh))
  Test.checkEq .isFull (decide (sizeSub s.ft s.fh = 8))
  return s

def differential (ops : ℕ) : Prog Unit := do
  Test.heading "queue differential vs oracle"
  Test.checkEq (.init 8) true
  let _ ← Test.forInt pass ops start
  let _ ← Test.call Call.free
  return ()

/-- After `n` operations the ring holds the elements `l`. -/
structure Holds (n : ℕ) (l : List ℤ) (s : Ring) : Prop where
  size : s.fifo.length = 4000
  few : l.length ≤ 8
  ft : s.ft = s.fh + l.length
  early : s.ft ≤ n
  cells : ∀ i < l.length, s.fifo[(s.fh + i) % 4000]? = l[i]?

variable {n : ℕ} {l : List ℤ} {s : Ring}

theorem holds_start : Holds 0 [] start :=
  ⟨List.length_replicate, by decide, rfl, Nat.le_refl 0, fun i hi ↦ absurd hi (Nat.not_lt_zero i)⟩

theorem Holds.later (h : Holds n l s) : Holds (n + 1) l s :=
  { h with early := Nat.le_succ_of_le h.early }

theorem Holds.pending (h : Holds n l s) (hn : n < 2 ^ 31) : sizeSub s.ft s.fh = l.length := by
  have hft := h.ft
  have hearly := h.early
  rw [sizeSub_of_le (by omega) (by omega)]
  omega

theorem Holds.enqueue (h : Holds n l s) (hn : n < 2 ^ 31) (hroom : l.length < 8) (x : ℤ) :
    ∃ a, assign s.fifo (s.ft % 4000) x = .ok a ∧
      Holds (n + 1) (l ++ [x]) ⟨a, s.fh, sizeAdd s.ft 1⟩ := by
  have hft := h.ft
  have hearly := h.early
  have hslot : s.ft % 4000 < s.fifo.length := by
    rw [h.size]
    exact Nat.mod_lt _ (by decide)
  rw [sizeAdd_of_lt (by omega)]
  refine ⟨_, assign_eq hslot x, ?_, ?_, ?_, ?_, fun i hi ↦ ?_⟩
  · rw [List.length_set, h.size]
  · rw [List.length_append, List.length_singleton]
    omega
  · rw [List.length_append, List.length_singleton]
    dsimp only
    omega
  · dsimp only
    omega
  · rw [List.length_append, List.length_singleton] at hi
    dsimp only
    rcases Nat.lt_or_eq_of_le (Nat.le_of_lt_succ hi) with hlt | rfl
    · -- fewer than 4000 slots apart
      have hne : s.ft % 4000 ≠ (s.fh + i) % 4000 := by omega
      rw [List.getElem?_set_ne hne, h.cells i hlt, List.getElem?_append_left hlt]
    · rw [← hft, List.getElem?_set_self hslot, List.getElem?_append_right (Nat.le_refl _),
        Nat.sub_self]
      rfl

theorem Holds.dequeue (h : Holds n l s) (hn : n < 2 ^ 31) (hne : l ≠ []) :
    read s.fifo (s.fh % 4000) = .ok (l.headD 0) ∧
      Holds n l.tail { s with fh := sizeAdd s.fh 1 } := by
  have hft := h.ft
  have hearly := h.early
  have hfew := h.few
  have hcells := h.cells
  obtain ⟨x, l, rfl⟩ := List.exists_cons_of_ne_nil hne
  rw [List.length_cons] at hft hfew hcells
  rw [sizeAdd_of_lt (by omega)]
  refine ⟨read_eq (hcells 0 (Nat.succ_pos _)), h.size, ?_, ?_, hearly, fun i hi ↦ ?_⟩
  · rw [List.tail_cons]
    omega
  · rw [List.tail_cons]
    dsimp only
    omega
  · rw [List.tail_cons] at hi ⊢
    have hcell := hcells (i + 1) (Nat.succ_lt_succ hi)
    rwa [List.getElem?_cons_succ, ← Nat.add_assoc, Nat.add_right_comm] at hcell

/-- The queue was initialised with room for eight. -/
def Kept (n : ℕ) (q : Bounded) (s : Ring) : Prop := q.cap = 8 ∧ Holds n q.elems s

theorem decides_enqueue (h : Holds n l s) (hn : n < 2 ^ 31) :
    Decides contract (Kept (n + 1)) 2 (enqueue s) ⟨8, l⟩ := by
  refine decides_draw (fun x ↦ decides_call trivial ?_ ?_)
  · rintro (got : Bool) (hgot : got = decide (l.length < 8))
    refine decides_check (decide_eq_true (by rw [h.pending hn]; exact hgot)) ?_
    by_cases hroom : l.length < 8
    · obtain ⟨a, hrun, hholds⟩ := h.enqueue hn hroom x
      rw [if_pos (hgot.trans (decide_eq_true hroom))]
      refine decides_lift hrun ⟨rfl, ?_⟩
      change Holds (n + 1) (if l.length < 8 then l ++ [(x : ℤ)] else l) _
      rwa [if_pos hroom]
    · rw [if_neg (by rw [hgot, decide_eq_false hroom]; exact Bool.false_ne_true)]
      refine ⟨rfl, ?_⟩
      change Holds (n + 1) (if l.length < 8 then l ++ [(x : ℤ)] else l) _
      rw [if_neg hroom]
      exact h.later
  · rintro (got : Bool) (hwrong : got ≠ decide (l.length < 8))
    refine fails_check (fun hgot ↦ (hwrong ?_).elim)
    rw [h.pending hn] at hgot
    exact of_decide_eq_true hgot

theorem decides_dequeue (h : Holds n l s) (hn : n < 2 ^ 31) :
    Decides contract (Kept (n + 1)) 2 (dequeue s) ⟨8, l⟩ := by
  have hpos : decide (s.fh < s.ft) = decide (l ≠ []) := by
    refine decide_eq_decide.mpr ?_
    rw [h.ft, ← List.length_pos_iff]
    omega
  refine decides_found Call.dequeue callDequeue id rfl (l.headD 0)
    (fun _ _ ↦ rfl) trivial (fun _ ↦ Iff.rfl) hpos ?_ ?_ ?_
  · intro hnil out
    obtain rfl : l = [] := not_not.mp hnil
    exact ⟨rfl, h.later⟩
  · intro hne
    obtain ⟨hread, hholds⟩ := h.dequeue hn hne
    rw [if_pos rfl]
    exact decides_lift hread (decides_check (decide_eq_true rfl) ⟨rfl, hholds.later⟩)
  · intro hne out hout
    obtain ⟨hread, -⟩ := h.dequeue hn hne
    rw [if_pos rfl]
    exact fails_lift hread (.inl (decide_eq_false hout))

theorem decides_pass (h : Holds n l s) (hn : n + 1 < 2 ^ 31) :
    Decides contract (Kept (n + 1)) 4 (pass n s) ⟨8, l⟩ := by
  refine decides_drawBelow (by decide) (fun r _ ↦ Decides.bind (n := 2) (m := 2) ?_)
  have hop : Decides contract (Kept (n + 1)) 2 (operation r s) ⟨8, l⟩ := by
    rw [operation]
    split_ifs
    · exact decides_enqueue h (by omega)
    · exact decides_dequeue h (by omega)
  refine hop.mono ?_
  rintro ⟨-, l'⟩ s' ⟨rfl, h'⟩
  have hempty : decide (s'.ft = s'.fh) = decide (l' = []) := by
    refine decide_eq_decide.mpr ?_
    rw [h'.ft, ← List.length_eq_zero_iff]
    dsimp only
    omega
  refine decides_checkEq trivial (fun b ↦ by rw [hempty]; rfl) ?_
  exact decides_checkEq trivial (fun b ↦ by rw [h'.pending hn]; rfl) ⟨rfl, h'⟩

theorem judges_differential (q : Bounded) {ops : ℕ} (hops : ops < 2 ^ 31) :
    Judges contract (4 * ops + 1) q (differential ops) := by
  have hloop : Decides contract (Kept ops) (4 * ops) (Test.forInt pass ops start) ⟨8, []⟩ := by
    refine decides_forInt pass Kept hops ⟨rfl, holds_start⟩ ?_
    rintro i ⟨-, l⟩ s hi ⟨rfl, h⟩
    exact decides_pass h (by omega)
  refine judges_of_decides _ (decides_checkEq (Nat.succ_pos 7) (fun _ ↦ Iff.rfl) ?_)
  refine Decides.bind (m := 0) (hloop.mono (fun q s _ ↦ ?_))
  exact decides_quiet trivial (fun _ ↦ trivial) (fun _ ↦ trivial)

end Queue

/-- Both tests of `test_stackqueue.c`: they succeed exactly for the stacks and
for the bounded queues that keep their contract on the calls made, and the ring
of the queue's shadow never overwrites an element that is pending. -/
theorem stackqueue_test_exact (l : List ℤ) (q : Queue.Bounded) (ops : ℕ) (hops : ops < 2 ^ 31) :
    Judges Stack.contract (5 * ops) l (Stack.differential ops) ∧
      Judges Queue.contract (4 * ops + 1) q (Queue.differential ops) :=
  ⟨Stack.judges_differential l hops, Queue.judges_differential q hops⟩

theorem stackqueue_test_exact_source :
    Judges Stack.contract (5 * 3000) [] (Stack.differential 3000) ∧
      Judges Queue.contract (4 * 3000 + 1) ⟨0, []⟩ (Queue.differential 3000) :=
  stackqueue_test_exact [] ⟨0, []⟩ 3000 (by decide)

end LowLevel.ProperDS.StackqueueOracle
