import Mathlib.Data.Fintype.Basic
import Mathlib.Data.Int.Basic
import LowLevel.Basis.Transition

namespace LowLevel.Interview.Workerpool

open Function

structure Job where
  index : ℕ
  val : ℤ
  deriving DecidableEq, Repr

inductive MainPc
  | spawn (i : ℕ)
  | feed (index : ℕ)
  | waiting
  | returned
  deriving DecidableEq, Repr

/-- Where a worker goroutine stands: before its `go` statement, blocked in
`range jobs`, before `fn(job.val)`, before the store to `results`, past the
loop with `wg.Done` still deferred, and gone. -/
inductive WorkerPc
  | unborn
  | receiving
  | holding (job : Job)
  | storing (index : ℕ) (val : ℤ)
  | leaving
  | exited
  deriving DecidableEq, Repr

structure State (n : ℕ) where
  main : MainPc
  worker : Fin n → WorkerPc
  closed : Bool
  counter : ℤ
  results : List ℤ
  panicked : Bool

inductive Label (n : ℕ)
  | spawn (k : Fin n)
  | launched
  | send (k : Fin n) (index : ℕ)
  | sendClosed (index : ℕ)
  | apply (k : Fin n) (job : Job)
  | write (k : Fin n) (index : ℕ)
  | close
  | leave (k : Fin n)
  | done (k : Fin n)
  | wait
  deriving DecidableEq, Repr

/-- `workers <= 0` is treated as one worker. -/
def poolSize (workers : ℤ) : ℕ := if workers ≤ 0 then 1 else workers.toNat

/-- `WaitGroup.Add`; a counter that would go negative panics. -/
def wgAdd (counter delta : ℤ) : Option ℤ :=
  if counter + delta < 0 then none else some (counter + delta)

variable {n : ℕ}

def State.panic (s : State n) : State n := { s with panicked := true }

def State.goto (s : State n) (k : Fin n) (pc : WorkerPc) : State n :=
  { s with worker := update s.worker k pc }

@[simp] theorem goto_main (s : State n) (k : Fin n) (pc : WorkerPc) :
    (s.goto k pc).main = s.main := rfl

@[simp] theorem goto_worker (s : State n) (k : Fin n) (pc : WorkerPc) :
    (s.goto k pc).worker = update s.worker k pc := rfl

@[simp] theorem goto_closed (s : State n) (k : Fin n) (pc : WorkerPc) :
    (s.goto k pc).closed = s.closed := rfl

@[simp] theorem goto_counter (s : State n) (k : Fin n) (pc : WorkerPc) :
    (s.goto k pc).counter = s.counter := rfl

@[simp] theorem goto_panicked (s : State n) (k : Fin n) (pc : WorkerPc) :
    (s.goto k pc).panicked = s.panicked := rfl

/-- What `Process` has done when it reaches its first `go` statement. With no
items it has already returned. -/
def start (items : List ℤ) (n : ℕ) : State n where
  main := if items.length = 0 then .returned else .spawn 0
  worker := fun _ ↦ .unborn
  closed := false
  counter := if items.length = 0 then 0 else n
  results := List.replicate items.length 0
  panicked := false

/-- One step of one goroutine, or of the two that meet at the unbuffered
channel. A panic in any goroutine ends the program. -/
def step (items : List ℤ) (fn : ℤ → ℤ) (s : State n) (l : Label n) : Option (State n) :=
  if s.panicked then none else
  match l with
  | .spawn k =>
    if s.main = .spawn k then some { s.goto k .receiving with main := .spawn (k + 1) } else none
  | .launched => if s.main = .spawn n then some { s with main := .feed 0 } else none
  | .send k index =>
    match items[index]? with
    | none => none
    | some item =>
      if s.main = .feed index ∧ s.closed = false ∧ s.worker k = .receiving then
        some { s.goto k (.holding ⟨index, item⟩) with main := .feed (index + 1) }
      else none
  | .sendClosed index =>
    if s.main = .feed index ∧ index < items.length ∧ s.closed then some s.panic else none
  | .apply k job =>
    if s.worker k = .holding job then some (s.goto k (.storing job.index (fn job.val))) else none
  | .write k index =>
    match s.worker k with
    | .storing i val =>
      if i ≠ index then none
      else if index < s.results.length then
        some { s.goto k .receiving with results := s.results.set index val }
      else some s.panic
    | _ => none
  | .close =>
    if s.main = .feed items.length then
      if s.closed then some s.panic else some { s with closed := true, main := .waiting }
    else none
  | .leave k => if s.worker k = .receiving ∧ s.closed then some (s.goto k .leaving) else none
  | .done k =>
    if s.worker k = .leaving then
      match wgAdd s.counter (-1) with
      | none => some s.panic
      | some c => some { s.goto k .exited with counter := c }
    else none
  | .wait =>
    if s.main = .waiting ∧ s.counter = 0 then some { s with main := .returned } else none

inductive Move (items : List ℤ) (fn : ℤ → ℤ) : State n → Label n → State n → Prop
  | spawn {s : State n} (k : Fin n) : s.main = .spawn k →
      Move items fn s (.spawn k) { s.goto k .receiving with main := .spawn (k + 1) }
  | launched {s : State n} : s.main = .spawn n →
      Move items fn s .launched { s with main := .feed 0 }
  | send {s : State n} (k : Fin n) (job : Job) : items[job.index]? = some job.val →
      s.main = .feed job.index → s.closed = false → s.worker k = .receiving →
      Move items fn s (.send k job.index)
        { s.goto k (.holding job) with main := .feed (job.index + 1) }
  | sendClosed {s : State n} (index : ℕ) : s.main = .feed index → s.closed = true →
      Move items fn s (.sendClosed index) s.panic
  | apply {s : State n} (k : Fin n) (job : Job) : s.worker k = .holding job →
      Move items fn s (.apply k job) (s.goto k (.storing job.index (fn job.val)))
  | write {s : State n} (k : Fin n) (index : ℕ) (val : ℤ) : s.worker k = .storing index val →
      index < s.results.length →
      Move items fn s (.write k index)
        { s.goto k .receiving with results := s.results.set index val }
  | writeRange {s : State n} (k : Fin n) (index : ℕ) (val : ℤ) : s.worker k = .storing index val →
      s.results.length ≤ index → Move items fn s (.write k index) s.panic
  | close {s : State n} : s.main = .feed items.length → s.closed = false →
      Move items fn s .close { s with closed := true, main := .waiting }
  | closeClosed {s : State n} : s.main = .feed items.length → s.closed = true →
      Move items fn s .close s.panic
  | leave {s : State n} (k : Fin n) : s.worker k = .receiving → s.closed = true →
      Move items fn s (.leave k) (s.goto k .leaving)
  | done {s : State n} (k : Fin n) : s.worker k = .leaving → 1 ≤ s.counter →
      Move items fn s (.done k) { s.goto k .exited with counter := s.counter - 1 }
  | doneNegative {s : State n} (k : Fin n) : s.worker k = .leaving → s.counter < 1 →
      Move items fn s (.done k) s.panic
  | wait {s : State n} : s.main = .waiting → s.counter = 0 →
      Move items fn s .wait { s with main := .returned }

theorem step_move {items : List ℤ} {fn : ℤ → ℤ} {s t : State n} {l : Label n}
    (h : step items fn s l = some t) : s.panicked = false ∧ Move items fn s l t := by
  unfold step at h
  split at h
  · cases h
  · rename_i hp
    refine ⟨by simpa using hp, ?_⟩
    cases l with
    | spawn k =>
      obtain ⟨hm, ⟨⟩⟩ := Option.ite_none_right_eq_some.mp h
      exact .spawn k hm
    | launched =>
      obtain ⟨hm, ⟨⟩⟩ := Option.ite_none_right_eq_some.mp h
      exact .launched hm
    | send k index =>
      dsimp only at h
      split at h
      · cases h
      · rename_i item hi
        obtain ⟨⟨hm, hc, hw⟩, ⟨⟩⟩ := Option.ite_none_right_eq_some.mp h
        exact .send k ⟨index, item⟩ hi hm hc hw
    | sendClosed index =>
      obtain ⟨⟨hm, -, hc⟩, ⟨⟩⟩ := Option.ite_none_right_eq_some.mp h
      exact .sendClosed index hm hc
    | apply k job =>
      obtain ⟨hw, ⟨⟩⟩ := Option.ite_none_right_eq_some.mp h
      exact .apply k job hw
    | write k index =>
      dsimp only at h
      split at h
      · rename_i i val hw
        by_cases hi : i = index
        · subst hi
          simp only [ne_eq, not_true_eq_false, if_false] at h
          split at h
          · rename_i hlt
            cases h
            exact .write k i val hw hlt
          · rename_i hlt
            cases h
            exact .writeRange k i val hw (not_lt.mp hlt)
        · simp [hi] at h
      · cases h
    | close =>
      obtain ⟨hm, h⟩ := Option.ite_none_right_eq_some.mp h
      split at h
      · rename_i hc
        cases h
        exact .closeClosed hm hc
      · rename_i hc
        cases h
        exact .close hm (by simpa using hc)
    | leave k =>
      obtain ⟨⟨hw, hc⟩, ⟨⟩⟩ := Option.ite_none_right_eq_some.mp h
      exact .leave k hw hc
    | done k =>
      obtain ⟨hw, h⟩ := Option.ite_none_right_eq_some.mp h
      unfold wgAdd at h
      by_cases hc : s.counter + -1 < 0
      · simp only [hc, if_true, Option.some.injEq] at h
        subst h
        exact .doneNegative k hw (by omega)
      · simp only [hc, if_false, Option.some.injEq] at h
        subst h
        exact .done k hw (by omega)
    | wait =>
      obtain ⟨⟨hm, hc⟩, ⟨⟩⟩ := Option.ite_none_right_eq_some.mp h
      exact .wait hm hc

end LowLevel.Interview.Workerpool
