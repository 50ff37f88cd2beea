import LowLevel.Basis.HappensBefore
import LowLevel.Interview.WorkerpoolProgress

namespace LowLevel.Interview.WorkerpoolRaces

open Function Workerpool WorkerpoolInvariant WorkerpoolCorrect Basis.Transition
open Basis.HappensBefore
open scoped BigOperators

variable {n : ℕ} {items : List ℤ} {fn : ℤ → ℤ} {s t : State n} {l : Label n}
variable {tr : List (Label n)}

inductive Agent (n : ℕ)
  | main
  | worker (k : Fin n)
  deriving DecidableEq

/-- The goroutines a step belongs to; both sides of an unbuffered channel
operation wait for each other. -/
def agents : Label n → Agent n → Prop
  | .send k _, a => a = .main ∨ a = .worker k
  | .apply k _, a | .write k _, a | .leave k, a | .done k, a => a = .worker k
  | .spawn _, a | .launched, a | .sendClosed _, a | .close, a | .wait, a => a = .main

/-- The `go` statement comes before its goroutine, the `close` before a receive
that finds the channel closed, each `Done` before the `Wait` it lets through. -/
def sync : Label n → Label n → Prop
  | .spawn k, m => agents m (.worker k)
  | .close, .leave _ => True
  | .done _, .wait => True
  | _, _ => False

/-- The cells are the slots of `results`; past `wg.Wait` they are the caller's
to read. -/
def golang (n : ℕ) : Actions (Label n) (Agent n) ℕ where
  agents := agents
  sync := sync
  reads := fun l _ ↦ l = .wait
  writes := fun l i ↦ writes i l = true

def goStatement : Agent n → Option (Label n)
  | .main => none
  | .worker k => some (.spawn k)

/-- What the trace remembers of the goroutines that were started, and of those
that are gone. -/
structure Trail (tr : List (Label n)) (s : State n) : Prop where
  born : ∀ k, s.worker k ≠ .unborn → .spawn k ∈ tr
  gone : ∀ k, s.worker k = .exited → ∃ q : ℕ, tr[q]? = some (.done k) ∧
    ∀ p m, tr[p]? = some m → agents m (.worker k) → p ≤ q
  returned : .wait ∈ tr → s.main = .returned

theorem trail_start : Trail [] (start items n) where
  born := by simp [start]
  gone := by simp [start]
  returned := by simp

/-- What a step does to worker `k`: its `go` statement, a step of its own, or
nothing. -/
theorem move_worker (hm : Move items fn s l t) (k : Fin n) :
    (l = .spawn k ∧ t.worker k = .receiving) ∨
    (agents l (.worker k) ∧ s.worker k ≠ .unborn ∧ s.worker k ≠ .exited ∧
      t.worker k ≠ .unborn ∧ (t.worker k = .exited → l = .done k)) ∨
    (¬ agents l (.worker k) ∧ t.worker k = s.worker k) := by
  cases hm with
  | spawn j hs =>
    by_cases hjk : k = j
    · subst hjk
      simp
    · exact Or.inr (Or.inr (by simp [agents, update_of_ne hjk]))
  | send j job _ _ _ hw | apply j job hw | write j _ _ hw _ | leave j hw _ | done j hw _ =>
    by_cases hjk : k = j
    · subst hjk
      exact Or.inr (Or.inl (by simp [agents, hw]))
    · exact Or.inr (Or.inr (by simp [agents, hjk]))
  | writeRange j _ _ hw _ | doneNegative j hw _ =>
    by_cases hjk : k = j
    · subst hjk
      exact Or.inr (Or.inl (by simp [agents, hw, State.panic]))
    · exact Or.inr (Or.inr (by simp [agents, hjk, State.panic]))
  | launched | sendClosed | close | closeClosed | wait =>
    exact Or.inr (Or.inr (by simp [agents, State.panic]))

theorem Trail.step (h : Trail tr s) (hr : s.main ≠ .returned) (hm : Move items fn s l t) :
    Trail (tr ++ [l]) t where
  born := by
    intro k hk
    rcases move_worker hm k with ⟨rfl, -⟩ | ⟨-, hu, -⟩ | ⟨-, heq⟩
    · simp
    · exact List.mem_append_left _ (h.born k hu)
    · exact List.mem_append_left _ (h.born k (heq ▸ hk))
  gone := by
    intro k hk
    rcases move_worker hm k with ⟨-, heq⟩ | ⟨-, -, -, -, hd⟩ | ⟨ha, heq⟩
    · rw [heq] at hk
      cases hk
    · refine ⟨tr.length, by simp [hd hk], ?_⟩
      intro p m hp _
      have hlt := lt_length_of_some hp
      simp only [List.length_append, List.length_singleton] at hlt
      omega
    · obtain ⟨q, hq, hlast⟩ := h.gone k (heq ▸ hk)
      refine ⟨q, getElem?_append_some hq, ?_⟩
      intro p m hp hm'
      rcases getElem?_snoc hp with hp | ⟨-, rfl⟩
      · exact hlast p m hp hm'
      · exact absurd hm' ha
  returned := by
    intro hmem
    rcases List.mem_append.mp hmem with hmem | hmem
    · exact absurd (h.returned hmem) hr
    · cases List.mem_singleton.mp hmem
      cases hm
      rfl

/-- A slot about to be stored to has not been stored to. -/
theorem store_fresh (h : Ledger items fn tr s) {k : Fin n} {i : ℕ} {v : ℤ}
    (hw : s.worker k = .storing i v) : tr.countP (writes i) = 0 := by
  have hle : carries i (s.worker k) ≤ ∑ j, carries i (s.worker j) :=
    Finset.single_le_sum (f := fun j ↦ carries i (s.worker j)) (fun _ _ ↦ Nat.zero_le _)
      (Finset.mem_univ k)
  have hone : carries i (.storing i v) = 1 := if_pos rfl
  have ha := h.account i
  rw [hw, hone] at hle
  unfold due at ha
  split_ifs at ha <;> omega

theorem writes_iff {i : ℕ} : writes i l = true ↔ ∃ k, l = .write k i := by
  cases l <;> simp [writes]

structure Ordered (items : List ℤ) (fn : ℤ → ℤ) (tr : List (Label n)) (s : State n) : Prop where
  sound : Sound items fn tr s
  trail : Trail tr s
  races : RaceFree (golang n) tr
  started : Started (golang n) goStatement tr

theorem Ordered.races_step (h : Ordered items fn tr s) (hr : s.main ≠ .returned)
    (hm : Move items fn s l t) (hc : t.panicked = false) : RaceFree (golang n) (tr ++ [l]) := by
  refine h.races.snoc ?_
  intro p m hp hcon
  have hmem : m ∈ tr := List.mem_of_getElem? hp
  obtain ⟨i, ⟨hw, hrw⟩ | ⟨hread, hw⟩⟩ := hcon
  · obtain ⟨k, rfl⟩ := writes_iff.mp hw
    rcases hrw with rfl | hw'
    · -- the worker that stored is gone, and its `Done` let the `Wait` through
      obtain ⟨q, hq, hlast⟩ : ∃ q : ℕ, tr[q]? = some (.done k) ∧
          ∀ p m, tr[p]? = some m → agents m (.worker k) → p ≤ q := by
        refine h.trail.gone k (h.sound.control.exited ?_ k)
        cases hm with
        | wait _ hz => exact hz
      have hlt : p < q := by
        refine lt_of_le_of_ne (hlast p _ hp rfl) ?_
        rintro rfl
        rw [hp] at hq
        cases hq
      have hdone : Before (golang n) (tr ++ [.wait]) p q :=
        .program (.worker k) hlt (getElem?_append_some hp) (getElem?_append_some hq) rfl rfl
      exact hdone.trans (.sync (lt_length_of_some hq) (getElem?_append_some hq)
        List.getElem?_concat_length trivial)
    · obtain ⟨j, rfl⟩ := writes_iff.mp hw'
      have hz : tr.countP (writes i) = 0 := by
        cases hm with
        | write _ _ v hs _ => exact store_fresh h.sound.ledger hs
        | writeRange => cases hc
      exact absurd hw (List.countP_eq_zero.mp hz _ hmem)
  · cases hread
    exact absurd (h.trail.returned hmem) hr

theorem Ordered.started_step (h : Ordered items fn tr s) (hm : Move items fn s l t) :
    Started (golang n) goStatement (tr ++ [l]) := by
  refine h.started.snoc ?_
  intro a m ha hg
  cases a with
  | main => cases hg
  | worker k =>
    cases hg
    rcases move_worker hm k with ⟨rfl, -⟩ | ⟨-, hu, -⟩ | ⟨hn, -⟩
    · cases ha
    · exact ⟨ha, h.trail.born k hu⟩
    · exact absurd ha hn

theorem ordered_run (hi : items ≠ []) (h : Run (step items fn) (start items n) tr s) :
    Ordered items fn tr s := by
  refine h.invariant ⟨sound_run hi (.nil _), trail_start, raceFree_nil, started_nil⟩ ?_
  intro tr t l u hs hstep
  obtain ⟨-, hm⟩ := step_move hstep
  have hr : t.main ≠ .returned := fun hr ↦ hs.sound.control.final hr hm
  have hsound := hs.sound.step hm
  exact ⟨hsound, hs.trail.step hr hm, hs.races_step hr hm hsound.control.calm, hs.started_step hm⟩

/-- Under every schedule the accesses to `results` are ordered by what the Go
memory model promises: the make of the slice and the `Add` come before a worker
does anything, no two workers meet in a slot, and what the caller reads after
`wg.Wait` was stored before it. -/
theorem process_race_free (items : List ℤ) (workers : ℤ) (fn : ℤ → ℤ)
    (tr : List (Label (poolSize workers))) (s : State (poolSize workers))
    (h : Run (step items fn) (start items (poolSize workers)) tr s) :
    RaceFree (golang (poolSize workers)) tr ∧
    Started (golang (poolSize workers)) goStatement tr := by
  rcases eq_or_ne items [] with heq | hne
  · subst heq
    obtain ⟨rfl, rfl⟩ := run_stuck h start_nil_stuck
    exact ⟨raceFree_nil, started_nil⟩
  · have ho := ordered_run hne h
    exact ⟨ho.races, ho.started⟩

theorem process_race_free_one_worker : ∃ s,
    Run (step [3] (fun x ↦ x + 1)) (start [3] (poolSize 1))
      [.spawn ⟨0, by decide⟩, .launched, .send ⟨0, by decide⟩ 0, .apply ⟨0, by decide⟩ ⟨0, 3⟩,
        .write ⟨0, by decide⟩ 0, .close, .leave ⟨0, by decide⟩, .done ⟨0, by decide⟩, .wait] s ∧
    Before (golang (poolSize 1))
      [.spawn ⟨0, by decide⟩, .launched, .send ⟨0, by decide⟩ 0, .apply ⟨0, by decide⟩ ⟨0, 3⟩,
        .write ⟨0, by decide⟩ 0, .close, .leave ⟨0, by decide⟩, .done ⟨0, by decide⟩, .wait] 4 8 := by
  have hrun : follow (step [3] (fun x ↦ x + 1)) (start [3] (poolSize 1))
    [.spawn ⟨0, by decide⟩, .launched, .send ⟨0, by decide⟩ 0, .apply ⟨0, by decide⟩ ⟨0, 3⟩,
      .write ⟨0, by decide⟩ 0, .close, .leave ⟨0, by decide⟩, .done ⟨0, by decide⟩, .wait] =
      some _ := rfl
  exact ⟨_, run_follow hrun, (process_race_free [3] 1 _ _ _ (run_follow hrun)).1 4 8 _ _
    (by decide) rfl rfl ⟨0, Or.inl ⟨rfl, Or.inl rfl⟩⟩⟩

end LowLevel.Interview.WorkerpoolRaces
