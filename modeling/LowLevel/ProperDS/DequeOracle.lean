import LowLevel.ProperDS.Judgement
import LowLevel.ProperDS.Shadow

namespace LowLevel.ProperDS.DequeOracle

open Basis.AddressSpace Basis.Differential Basis.Loop Basis.StaticArray

inductive End
  | front
  | back

inductive Call
  | init
  | push (e : End) (x : ℤ)
  | pop (e : End)
  | len
  | validate
  | free

/-- A pop answers whether there was an element, with `*out` after it. -/
abbrev Reply : Call → Type
  | .push _ _ | .validate => Bool
  | .pop _ => Bool × ℤ
  | .len => ℕ
  | .init | .free => Unit

abbrev Prog := Test Call Reply

section Contract

def insert (e : End) (x : ℤ) (l : List ℤ) : List ℤ :=
  match e with
  | .front => x :: l
  | .back => l ++ [x]

def peek (e : End) (l : List ℤ) : ℤ :=
  match e with
  | .front => l.headD 0
  | .back => l.getLastD 0

def remove (e : End) (l : List ℤ) : List ℤ :=
  match e with
  | .front => l.tail
  | .back => l.dropLast

/-- A queue with two ends. What an empty one leaves in `*out` does not matter. -/
def contract : Contract (List ℤ) Call Reply where
  pre _ _ := True
  allows l c r :=
    match c, r with
    | .push _ _, ok => ok = true
    | .pop e, (got, out) => got = decide (l ≠ []) ∧ (l ≠ [] → out = peek e l)
    | .len, n => n = l.length
    | .validate, ok => ok = true
    | .init, _ | .free, _ => True
  next l c :=
    match c with
    | .init | .free => []
    | .push e x => insert e x l
    | .pop e => remove e l
    | .len | .validate => l
  answer l c :=
    match c with
    | .push _ _ | .validate => true
    | .pop e => (decide (l ≠ []), peek e l)
    | .len => l.length
    | .init | .free => ()
  answer_allowed := by
    intro l c _
    cases c with
    | init => trivial
    | push e x => rfl
    | pop e => exact ⟨rfl, fun _ ↦ rfl⟩
    | len => rfl
    | validate => rfl
    | free => trivial

end Contract

def oraCap : ℕ := 4096

def oraPushFront (s : Shadow) (x : ℤ) : Except Stop Shadow := do
  let ora ← memmove s.cells 1 0 s.len
  let ora ← assign ora 0 x
  return ⟨ora, s.len + 1⟩

def oraPushBack (s : Shadow) (x : ℤ) : Except Stop Shadow := s.push x

def oraPopFront (s : Shadow) : Except Stop (ℤ × Shadow) := do
  let x ← read s.cells 0
  let ora ← memmove s.cells 0 1 (sizeSub s.len 1)
  return (x, Shadow.shorten { s with cells := ora })

def oraPopBack (s : Shadow) : Except Stop (ℤ × Shadow) := do
  let x ← s.last
  return (x, s.shorten)

def oraPush : End → Shadow → ℤ → Except Stop Shadow
  | .front => oraPushFront
  | .back => oraPushBack

def oraPop : End → Shadow → Except Stop (ℤ × Shadow)
  | .front => oraPopFront
  | .back => oraPopBack

def callPop (e : End) : Prog (Bool × ℤ) := Test.call (Call.pop e)

def push (e : End) (s : Shadow) (x : ℤ) : Prog Shadow := do
  Test.checkEq (.push e x) true
  Test.lift (oraPush e s x)

def pop (e : End) (s : Shadow) : Prog Shadow := do
  let (got, out) ← callPop e
  Test.check (got = decide (0 < s.len))
  if got then do
    let (x, s) ← Test.lift (oraPop e s)
    Test.check (out = x)
    return s
  else return s

def operation (r : ℕ) (x : ℤ) (s : Shadow) : Prog Shadow :=
  if r = 0 ∧ s.len < oraCap then push .front s x
  else if r = 1 ∧ s.len < oraCap then push .back s x
  else if r = 2 then pop .front s
  else if r = 3 then pop .back s
  else pure s

def pass (_op : ℕ) (s : Shadow) : Prog Shadow := do
  let r ← Test.drawBelow 4
  let x ← Test.draw
  let s ← operation r x s
  Test.checkEq .validate true
  Test.checkEq .len s.len
  return s

def drain (s : Shadow) : Prog Shadow := do
  let (got, out) ← callPop .front
  Test.check got
  let (x, s) ← Test.lift (oraPopFront s)
  Test.check (out = x)
  return s

/-- The randomized part of the test, with so many operations. -/
def differential (ops : ℕ) : Prog Unit := do
  Test.heading "differential vs oracle"
  let _ ← Test.call Call.init
  let s ← Test.forInt pass ops (Shadow.empty oraCap)
  Test.heading "differential drain compare"
  let _ ← Test.repeatWhile (fun s ↦ 0 < s.len) drain s.len s
  Test.checkEq .len 0
  let _ ← Test.call Call.free
  return ()

abbrev Held : List ℤ → Shadow → Prop := Shadow.Keeps oraCap

variable {l : List ℤ} {s : Shadow} {e : End}

theorem oraPush_ok (h : Held l s) (hroom : s.len < oraCap) (e : End) (x : ℤ) :
    ∃ s', oraPush e s x = .ok s' ∧ Held (insert e x l) s' := by
  cases e with
  | front =>
    have hlen := h.len
    obtain ⟨a, a', hmove, hassign, hsize, hused⟩ :=
      memmove_up h.used (by rw [h.size]; omega) x
    refine ⟨⟨a', s.len + 1⟩, ?_, h.small, hsize.trans h.size, hused, congrArg (· + 1) hlen⟩
    rw [oraPush, oraPushFront, hlen, hmove, ok_bind, hassign]
    rfl
  | back => exact h.push hroom x

theorem oraPop_ok (h : Held l s) (hne : l ≠ []) (e : End) :
    ∃ s', oraPop e s = .ok (peek e l, s') ∧ Held (remove e l) s' := by
  cases e with
  | front =>
    have hindex := h.index hne
    obtain ⟨x, l, rfl⟩ := List.exists_cons_of_ne_nil hne
    obtain ⟨a, hmove, hsize, hused⟩ := memmove_down h.used
    refine ⟨Shadow.shorten { s with cells := a }, ?_, h.small, ?_, ?_, ?_⟩
    · rw [oraPop, oraPopFront, h.read (Nat.succ_pos _), hindex]
      rw [ok_bind, List.length_cons, Nat.add_sub_cancel, hmove]
      rfl
    · rw [Shadow.shorten_cells, hsize, h.size]
    · rw [Shadow.shorten_cells]
      exact hused
    · rw [Shadow.shorten_len, hindex]
      rfl
  | back =>
    refine ⟨s.shorten, ?_, h.shorten hne⟩
    rw [oraPop, oraPopBack, h.last hne]
    rfl

theorem pos_iff (h : Held l s) : 0 < s.len ↔ l ≠ [] := by
  rw [h.len, List.length_pos_iff]

theorem decides_pop (h : Held l s) (e : End) : Decides contract Held 2 (pop e s) l := by
  refine decides_found (.pop e) (callPop e) id rfl (peek e l)
    (fun _ _ ↦ rfl) trivial (fun _ ↦ Iff.rfl) (decide_eq_decide.mpr (pos_iff h)) ?_ ?_ ?_
  · intro hnil out
    obtain rfl : l = [] := not_not.mp hnil
    cases e <;> exact h
  · intro hne
    obtain ⟨s', hrun, hkeeps⟩ := oraPop_ok h hne e
    rw [if_pos rfl]
    exact decides_lift hrun (decides_check (decide_eq_true rfl) hkeeps)
  · intro hne out hout
    obtain ⟨s', hrun, -⟩ := oraPop_ok h hne e
    rw [if_pos rfl]
    exact fails_lift hrun (.inl (decide_eq_false hout))

theorem decides_operation (r : ℕ) (x : ℤ) (h : Held l s) :
    Decides contract Held 2 (operation r x s) l := by
  have hpush : s.len < oraCap → ∀ e, Decides contract Held 2 (push e s x) l := by
    intro hroom e
    obtain ⟨s', hrun, hkeeps⟩ := oraPush_ok h hroom e x
    refine decides_checkEq trivial (fun _ ↦ Iff.rfl) ?_
    rw [hrun]
    exact hkeeps
  rw [operation]
  split_ifs with hfront hback
  · exact hpush hfront.2 .front
  · exact hpush hback.2 .back
  · exact decides_pop h .front
  · exact decides_pop h .back
  · exact h

theorem decides_pass (i : ℕ) (h : Held l s) : Decides contract Held 4 (pass i s) l := by
  refine decides_drawBelow (by decide) (fun r _ ↦ decides_draw (fun x ↦ ?_))
  refine Decides.bind (n := 2) (m := 2) ((decides_operation r x h).mono (fun l' s' h' ↦ ?_))
  refine decides_checkEq trivial (fun _ ↦ Iff.rfl) ?_
  exact decides_checkEq trivial (fun n ↦ by rw [h'.len]; rfl) h'

theorem decides_drain {n : ℕ} (h : Held l s) (hlen : s.len = n + 1) :
    Decides contract (fun l s ↦ Held l s ∧ s.len = n) 2 (drain s) l := by
  have hne : l ≠ [] := (pos_iff h).mp (by omega)
  obtain ⟨s', hrun, hkeeps⟩ := oraPop_ok h hne .front
  refine decides_call trivial ?_ ?_
  · rintro ⟨got, out⟩ ⟨rfl, hout⟩
    refine decides_check (decide_eq_true hne) (decides_lift hrun ?_)
    refine decides_check (decide_eq_true (hout hne)) (decides_pure ⟨hkeeps, ?_⟩)
    have hlen' := hkeeps.len
    rw [remove, List.length_tail, ← h.len] at hlen'
    omega
  · rintro ⟨got, out⟩ hwrong
    refine fails_check (fun hgot ↦ fails_lift hrun (fails_check (fun hout ↦ ?_)))
    exact (hwrong ⟨hgot.trans (decide_eq_true hne).symm, fun _ ↦ of_decide_eq_true hout⟩).elim

/-- What is left is drained from the front, and the deque released. -/
theorem decides_rest (h : Held l s) : Decides contract (fun _ _ ↦ True) (2 * oraCap + 1) (do
    let _ ← Test.repeatWhile (fun s ↦ 0 < s.len) drain s.len s
    Test.checkEq .len 0
    let _ ← Test.call Call.free
    return ()) l := by
  have hdrained := decides_repeatWhile Shadow.len drain Held (fun _ _ _ ↦ decides_drain) h
  have hroom : 2 * s.len + 1 ≤ 2 * oraCap + 1 := by
    have hle := h.length_le
    rw [h.len]
    omega
  refine (Decides.bind (hdrained.mono (fun l s hI ↦ ?_))).le hroom
  refine decides_checkEq trivial (fun n ↦ ?_) (decides_quiet trivial (fun _ ↦ trivial) ?_)
  · rw [← hI.2, hI.1.len]
    rfl
  · exact fun _ ↦ trivial

/-- Whatever the random numbers and the number of operations, the test succeeds
exactly for the deques that behave as a list with two ends on the calls made. -/
theorem deque_test_exact (l : List ℤ) (ops : ℕ) (hops : ops < 2 ^ 31) :
    Judges contract (4 * ops + (2 * oraCap + 1)) l (differential ops) := by
  have hloop := decides_forInt pass (fun _ ↦ Held) hops (Shadow.keeps_empty (by decide))
    (fun i _ _ _ h ↦ decides_pass i h)
  refine judges_of_decides _ (decides_quiet trivial (fun _ ↦ trivial) (fun _ ↦ ?_))
  exact Decides.bind (hloop.mono (fun l s h ↦ decides_heading _ (decides_rest h)))

theorem deque_test_exact_source :
    Judges contract (4 * 4000 + (2 * oraCap + 1)) [] (differential 4000) :=
  deque_test_exact [] 4000 (by decide)

end LowLevel.ProperDS.DequeOracle
