import Mathlib.Data.List.Basic
import Mathlib.Tactic.Common

namespace LowLevel.Basis.Transition

variable {σ ι : Type*}

/-- Finite runs of a partial labelled step function; the labels are kept in
the order in which they were taken. -/
inductive Run (step : σ → ι → Option σ) : σ → List ι → σ → Prop
  | nil (s : σ) : Run step s [] s
  | snoc {s t u : σ} {tr : List ι} {l : ι} :
      Run step s tr t → step t l = some u → Run step s (tr ++ [l]) u

variable {step : σ → ι → Option σ} {s t u : σ} {tr : List ι}

/-- What holds of the empty trace and survives every step holds along every run. -/
theorem Run.invariant {I : List ι → σ → Prop} (h : Run step s tr t) (hs : I [] s)
    (hstep : ∀ tr t l u, I tr t → step t l = some u → I (tr ++ [l]) u) : I tr t := by
  induction h with
  | nil => exact hs
  | snoc _ hl ih => exact hstep _ _ _ _ ih hl

theorem Run.length_le {μ : σ → ℕ} (hμ : ∀ t l u, step t l = some u → μ u < μ t)
    (h : Run step s tr t) : tr.length + μ t ≤ μ s := by
  induction h with
  | nil => simp
  | snoc _ hl ih =>
    have hlt := hμ _ _ _ hl
    simp only [List.length_append, List.length_singleton]
    omega

theorem Run.trans {tr' : List ι} (h : Run step s tr t) (h' : Run step t tr' u) :
    Run step s (tr ++ tr') u := by
  induction h' with
  | nil => simpa using h
  | snoc _ hl ih => simpa only [List.append_assoc] using Run.snoc ih hl

def follow (step : σ → ι → Option σ) : σ → List ι → Option σ
  | s, [] => some s
  | s, l :: ls => (step s l).bind (fun t ↦ follow step t ls)

theorem run_follow {s : σ} (h : follow step s tr = some t) : Run step s tr t := by
  induction tr generalizing s with
  | nil =>
    cases h
    exact .nil t
  | cons l ls ih =>
    obtain ⟨u, hu, hrest⟩ := Option.bind_eq_some_iff.mp h
    exact (Run.snoc (.nil s) hu).trans (ih hrest)

theorem run_stuck (h : Run step s tr t) (hs : ∀ l, step s l = none) : tr = [] ∧ t = s := by
  induction h with
  | nil => exact ⟨rfl, rfl⟩
  | snoc _ hl ih =>
    obtain ⟨-, rfl⟩ := ih
    rw [hs] at hl
    cases hl

theorem no_infinite_run {μ : σ → ℕ} (hμ : ∀ t l u, step t l = some u → μ u < μ t)
    (f : ℕ → σ) (g : ℕ → ι) : ¬ ∀ n, step (f n) (g n) = some (f (n + 1)) := by
  intro h
  have hle : ∀ n, μ (f n) + n ≤ μ (f 0) := by
    intro n
    induction n with
    | zero => simp
    | succ n ih =>
      have hlt := hμ _ _ _ (h n)
      omega
  have hbound := hle (μ (f 0) + 1)
  omega

/-- Where only the done states are stuck and every step uses up potential, a run
goes on to a done state. -/
theorem Run.complete {μ : σ → ℕ} {D : σ → Prop} (hμ : ∀ t l u, step t l = some u → μ u < μ t)
    (hp : ∀ tr t, Run step s tr t → ¬ D t → ∃ l u, step t l = some u) (h : Run step s tr t) :
    ∃ tr' u, Run step s (tr ++ tr') u ∧ D u := by
  induction hk : μ t using Nat.strongRecOn generalizing tr t with
  | _ k ih =>
    by_cases hd : D t
    · exact ⟨[], t, by simpa using h, hd⟩
    · obtain ⟨l, u, hl⟩ := hp tr t h hd
      obtain ⟨tr', v, hrun, hv⟩ := ih (μ u) (hk ▸ hμ t l u hl) (h.snoc hl) rfl
      exact ⟨l :: tr', v, by simpa using hrun, hv⟩

end LowLevel.Basis.Transition
