import Mathlib.Data.Nat.Init
import Mathlib.Tactic.Common

namespace LowLevel.Basis.Loop

variable {σ ε : Type*}

theorem ok_bind {σ τ : Type _} (s : σ) (f : σ → Except ε τ) :
    (Except.ok s >>= f) = f s := rfl

def forGo (body : ℕ → σ → Except ε σ) : ℕ → ℕ → σ → Except ε σ
  | _, 0, s => .ok s
  | i, n + 1, s => (body i s).bind (forGo body (i + 1) n)

/-- `for (i = lo; i < hi; i++)` around a body that may fail. -/
def forRange (body : ℕ → σ → Except ε σ) (lo hi : ℕ) (s : σ) : Except ε σ :=
  forGo body lo (hi - lo) s

variable {body : ℕ → σ → Except ε σ} {lo hi : ℕ} {s : σ}

theorem forRange_empty (h : hi ≤ lo) : forRange body lo hi s = .ok s := by
  rw [forRange, Nat.sub_eq_zero_of_le h, forGo]

theorem forRange_step (h : lo < hi) :
    forRange body lo hi s = (body lo s).bind (forRange body (lo + 1) hi) := by
  have hn : hi - lo = (hi - (lo + 1)) + 1 := by omega
  rw [forRange, hn, forGo]
  rfl

theorem forRange_or_error (body : ℕ → σ → Except ε σ) (P : ℕ → σ → Prop) (E : ε → Prop)
    (hle : lo ≤ hi) (h0 : P lo s)
    (hstep : ∀ i, lo ≤ i → i < hi → ∀ s, P i s →
      (∃ s', body i s = .ok s' ∧ P (i + 1) s') ∨ ∃ e, body i s = .error e ∧ E e) :
    (∃ s', forRange body lo hi s = .ok s' ∧ P hi s') ∨
      ∃ e, forRange body lo hi s = .error e ∧ E e := by
  obtain ⟨n, rfl⟩ := Nat.exists_eq_add_of_le hle
  clear hle
  induction n generalizing lo s with
  | zero => exact .inl ⟨s, forRange_empty (by omega), h0⟩
  | succ n ih =>
    have heq : lo + (n + 1) = lo + 1 + n := by omega
    rw [forRange_step (by omega), heq]
    rcases hstep lo (Nat.le_refl lo) (by omega) s h0 with ⟨t, ht, hP⟩ | ⟨e, he, hE⟩
    · rw [ht]
      exact ih hP (fun i hi hlt ↦ hstep i (by omega) (by omega))
    · rw [he]
      exact .inr ⟨e, rfl, hE⟩

/-- The total invariant rule: every pass succeeds and carries the invariant on. -/
theorem forRange_ok (P : ℕ → σ → Prop) (hle : lo ≤ hi) (h0 : P lo s)
    (hstep : ∀ i, lo ≤ i → i < hi → ∀ s, P i s → ∃ s', body i s = .ok s' ∧ P (i + 1) s') :
    ∃ s', forRange body lo hi s = .ok s' ∧ P hi s' := by
  rcases forRange_or_error body P (fun _ ↦ False) hle h0
    (fun i hlo hhi s hP ↦ .inl (hstep i hlo hhi s hP)) with h | ⟨e, -, hE⟩
  · exact h
  · exact hE.elim

theorem forRange_congr {body' : ℕ → σ → Except ε σ}
    (h : ∀ i, lo ≤ i → i < hi → ∀ s, body i s = body' i s) :
    forRange body lo hi s = forRange body' lo hi s := by
  rcases Nat.lt_or_ge hi lo with hlt | hle
  · rw [forRange_empty (Nat.le_of_lt hlt), forRange_empty (Nat.le_of_lt hlt)]
  · obtain ⟨n, rfl⟩ := Nat.exists_eq_add_of_le hle
    clear hle
    induction n generalizing lo s with
    | zero => rw [forRange_empty (by omega), forRange_empty (by omega)]
    | succ n ih =>
      have heq : lo + (n + 1) = lo + 1 + n := by omega
      rw [forRange_step (by omega), forRange_step (by omega), h lo (Nat.le_refl lo) (by omega) s]
      congr 1
      funext t
      rw [heq]
      exact ih (fun i hi hlt ↦ h i (by omega) (by omega))

/-- Two loops over different parts of the state, pass by pass in turn. -/
theorem forRange_pair {τ : Type*} {other : ℕ → τ → Except ε τ} {s' : σ} {t t' : τ}
    (h : forRange body lo hi s = .ok s') (h' : forRange other lo hi t = .ok t') :
    forRange (fun i p ↦ (body i p.1).bind (fun s ↦ (other i p.2).map (fun t ↦ (s, t)))) lo hi
      (s, t) = .ok (s', t') := by
  rcases Nat.lt_or_ge hi lo with hlt | hle
  · rw [forRange_empty (Nat.le_of_lt hlt)] at h h' ⊢
    cases h
    cases h'
    rfl
  · obtain ⟨n, rfl⟩ := Nat.exists_eq_add_of_le hle
    clear hle
    induction n generalizing lo s t with
    | zero =>
      rw [forRange_empty (by omega)] at h h' ⊢
      cases h
      cases h'
      rfl
    | succ n ih =>
      have heq : lo + (n + 1) = lo + 1 + n := by omega
      rw [forRange_step (by omega)] at h h' ⊢
      cases hs : body lo s with
      | error e =>
        rw [hs] at h
        cases h
      | ok s₁ =>
        cases ht : other lo t with
        | error e =>
          rw [ht] at h'
          cases h'
        | ok t₁ =>
          rw [hs] at h
          rw [ht] at h'
          dsimp only [Except.bind, Except.map]
          rw [heq] at h h' ⊢
          exact ih h h'

/-- `for (k = hi; k > lo; k--)` -/
def forDown (body : ℕ → σ → Except ε σ) (hi lo : ℕ) (s : σ) : Except ε σ :=
  forRange (fun t ↦ body (hi - t)) 0 (hi - lo) s

theorem forDown_ok (P : ℕ → σ → Prop) (hle : lo ≤ hi) (h0 : P hi s)
    (hstep : ∀ k, lo ≤ k → k < hi → ∀ s, P (k + 1) s → ∃ s', body (k + 1) s = .ok s' ∧ P k s') :
    ∃ s', forDown body hi lo s = .ok s' ∧ P lo s' := by
  have hloop : ∃ s', forRange (fun t ↦ body (hi - t)) 0 (hi - lo) s = .ok s' ∧
      P (hi - (hi - lo)) s' := by
    refine forRange_ok (fun t s ↦ P (hi - t) s) (Nat.zero_le (hi - lo)) h0 ?_
    intro t _ ht s hP
    have hk : hi - t = hi - (t + 1) + 1 := by omega
    rw [hk] at hP ⊢
    exact hstep (hi - (t + 1)) (by omega) (by omega) s hP
  rwa [Nat.sub_sub_self hle] at hloop

section Avoids

/-- The run does not stop with `e`. -/
def Avoids {α : Type*} (e : ε) (run : Except ε α) : Prop := run ≠ .error e

theorem avoids_ok {α : Type*} (e : ε) (v : α) : Avoids e (.ok v) := by
  intro h
  cases h

theorem Avoids.bind {α β : Type _} {e : ε} {run : Except ε α} {next : α → Except ε β}
    (h : Avoids e run) (hnext : ∀ v, Avoids e (next v)) : Avoids e (run >>= next) := by
  cases run with
  | error e' => exact fun heq ↦ h (congrArg Except.error (Except.error.inj heq))
  | ok v => exact hnext v

theorem Avoids.forRange {e : ε} (h : ∀ i, lo ≤ i → i < hi → ∀ s, Avoids e (body i s)) :
    Avoids e (forRange body lo hi s) := by
  rcases Nat.lt_or_ge hi lo with hlt | hle
  · rw [forRange_empty (Nat.le_of_lt hlt)]
    exact avoids_ok e s
  · have hbody : ∀ i, lo ≤ i → i < hi → ∀ s, True →
        (∃ s', body i s = .ok s' ∧ True) ∨ ∃ e', body i s = .error e' ∧ e' ≠ e := by
      intro i hlo hhi s _
      have hne := h i hlo hhi s
      cases hb : body i s with
      | ok s' => exact .inl ⟨s', rfl, trivial⟩
      | error e' => exact .inr ⟨e', rfl, fun heq ↦ hne (hb.trans (congrArg Except.error heq))⟩
    rcases forRange_or_error body (fun _ _ ↦ True) (· ≠ e) hle trivial hbody with
      ⟨s', hs', -⟩ | ⟨e', he', hne⟩
    · rw [hs']
      exact avoids_ok e s'
    · rw [he']
      exact fun heq ↦ hne (Except.error.inj heq)

end Avoids

section Fold

variable {τ : Type*} {f g : ℕ → τ → τ} {t : τ}

def foldGo (f : ℕ → τ → τ) (lo : ℕ) : ℕ → τ → τ
  | 0, t => t
  | n + 1, t => f (lo + n) (foldGo f lo n t)

/-- The same loop around a pure body. -/
def foldRange (f : ℕ → τ → τ) (lo hi : ℕ) (t : τ) : τ := foldGo f lo (hi - lo) t

theorem foldRange_empty (h : hi ≤ lo) : foldRange f lo hi t = t := by
  rw [foldRange, Nat.sub_eq_zero_of_le h, foldGo]

theorem foldRange_succ (h : lo ≤ hi) :
    foldRange f lo (hi + 1) t = f hi (foldRange f lo hi t) := by
  have hn : hi + 1 - lo = hi - lo + 1 := by omega
  have hlast : lo + (hi - lo) = hi := by omega
  rw [foldRange, hn, foldGo, hlast, foldRange]

theorem foldRange_invariant (P : ℕ → τ → Prop) (hle : lo ≤ hi) (h0 : P lo t)
    (hstep : ∀ i, lo ≤ i → i < hi → ∀ t, P i t → P (i + 1) (f i t)) :
    P hi (foldRange f lo hi t) := by
  induction hi, hle using Nat.le_induction with
  | base =>
    rw [foldRange_empty (Nat.le_refl lo)]
    exact h0
  | succ hi hle ih =>
    rw [foldRange_succ hle]
    apply hstep hi hle (Nat.lt_succ_self hi)
    exact ih (fun i hlo hlt ↦ hstep i hlo (by omega))

/-- Two bodies that agree on the states met give the same result. -/
theorem foldRange_congr (P : ℕ → τ → Prop) (h0 : P lo t)
    (hstep : ∀ i, lo ≤ i → i < hi → ∀ t, P i t → g i t = f i t ∧ P (i + 1) (f i t)) :
    foldRange g lo hi t = foldRange f lo hi t := by
  rcases Nat.lt_or_ge hi lo with hlt | hle
  · rw [foldRange_empty (Nat.le_of_lt hlt), foldRange_empty (Nat.le_of_lt hlt)]
  · suffices h : foldRange g lo hi t = foldRange f lo hi t ∧ P hi (foldRange f lo hi t) from h.1
    induction hi, hle using Nat.le_induction with
    | base =>
      rw [foldRange_empty (Nat.le_refl lo), foldRange_empty (Nat.le_refl lo)]
      exact ⟨rfl, h0⟩
    | succ hi hle ih =>
      obtain ⟨heq, hP⟩ := ih (fun i hlo hlt ↦ hstep i hlo (by omega))
      obtain ⟨hbody, hnext⟩ := hstep hi hle (Nat.lt_succ_self hi) _ hP
      rw [foldRange_succ hle, foldRange_succ hle, heq, hbody]
      exact ⟨rfl, hnext⟩

/-- The simulation rule: a body that succeeds and follows the pure one does so
over the whole range. -/
theorem forRange_simulates (R : σ → τ → Prop) (h0 : R s t)
    (hstep : ∀ i, lo ≤ i → i < hi → ∀ s t, R s t → ∃ s', body i s = .ok s' ∧ R s' (f i t)) :
    ∃ s', forRange body lo hi s = .ok s' ∧ R s' (foldRange f lo hi t) := by
  rcases Nat.lt_or_ge hi lo with hlt | hle
  · rw [foldRange_empty (Nat.le_of_lt hlt)]
    exact ⟨s, forRange_empty (Nat.le_of_lt hlt), h0⟩
  · refine forRange_ok (fun i s ↦ R s (foldRange f lo i t)) hle ?_ ?_
    · rw [foldRange_empty (Nat.le_refl lo)]
      exact h0
    · intro i hlo hlt s hR
      rw [foldRange_succ hlo]
      exact hstep i hlo hlt s _ hR

end Fold

/-- `while (cond) body`, given up as `timeout` after so many passes. -/
def whileFuel (timeout : ε) (cond : σ → Bool) (body : σ → Except ε σ) : ℕ → σ → Except ε σ
  | 0, s => if cond s then .error timeout else .ok s
  | n + 1, s => if cond s then (body s).bind (whileFuel timeout cond body n) else .ok s

/-- The total rule: `P n` says that `n` passes are left. -/
theorem whileFuel_ok (timeout : ε) {cond : σ → Bool} {body : σ → Except ε σ} (P : ℕ → σ → Prop)
    (hend : ∀ s, P 0 s → cond s = false)
    (hstep : ∀ n s, P (n + 1) s → cond s = true ∧ ∃ s', body s = .ok s' ∧ P n s')
    {n fuel : ℕ} (hle : n ≤ fuel) (h : P n s) :
    ∃ s', whileFuel timeout cond body fuel s = .ok s' ∧ P 0 s' := by
  induction n generalizing fuel s with
  | zero => exact ⟨s, by cases fuel <;> simp [whileFuel, hend s h], h⟩
  | succ n ih =>
    obtain ⟨fuel, rfl⟩ := Nat.exists_eq_succ_of_ne_zero (show fuel ≠ 0 by omega)
    obtain ⟨hcond, t, ht, hP⟩ := hstep n s h
    obtain ⟨u, hu, hPu⟩ := ih (Nat.le_of_succ_le_succ hle) hP
    refine ⟨u, ?_, hPu⟩
    rw [whileFuel, if_pos hcond, ht]
    exact hu

/-- A state from which every pass goes on has no end. -/
theorem whileFuel_timeout (timeout : ε) {cond : σ → Bool} {body : σ → Except ε σ} (P : σ → Prop)
    (hstep : ∀ s, P s → cond s = true ∧ ∃ s', body s = .ok s' ∧ P s') (fuel : ℕ) (h : P s) :
    whileFuel timeout cond body fuel s = .error timeout := by
  induction fuel generalizing s with
  | zero => rw [whileFuel, if_pos (hstep s h).1]
  | succ fuel ih =>
    obtain ⟨hcond, s', hbody, hs'⟩ := hstep s h
    rw [whileFuel, if_pos hcond, hbody]
    exact ih hs'

/-- A loop left from inside: a pass either ends it with a result or goes on. -/
def loopFuel {β : Type*} (timeout : ε) (pass : σ → Except ε (β ⊕ σ)) : ℕ → σ → Except ε β
  | 0, _ => .error timeout
  | n + 1, s => (pass s).bind (fun r ↦ r.elim .ok (loopFuel timeout pass n))

theorem loopFuel_timeout {β : Type*} (timeout : ε) {pass : σ → Except ε (β ⊕ σ)} (P : σ → Prop)
    (hstep : ∀ s, P s → ∃ s', pass s = .ok (.inr s') ∧ P s') (fuel : ℕ) (h : P s) :
    loopFuel timeout pass fuel s = .error timeout := by
  induction fuel generalizing s with
  | zero => rfl
  | succ fuel ih =>
    obtain ⟨s', hpass, hs'⟩ := hstep s h
    rw [loopFuel, hpass]
    exact ih hs'

/-- The total rule: `P n` says that at most `n` passes go on. -/
theorem loopFuel_ok {β : Type*} (timeout : ε) {pass : σ → Except ε (β ⊕ σ)} (P : ℕ → σ → Prop)
    (Q : β → Prop)
    (hstep : ∀ n s, P n s → (∃ b, pass s = .ok (.inl b) ∧ Q b) ∨
      ∃ n' s', n = n' + 1 ∧ pass s = .ok (.inr s') ∧ P n' s')
    {n fuel : ℕ} (hlt : n < fuel) (h : P n s) :
    ∃ b, loopFuel timeout pass fuel s = .ok b ∧ Q b := by
  induction fuel generalizing n s with
  | zero => exact absurd hlt (Nat.not_lt_zero n)
  | succ fuel ih =>
    rw [loopFuel]
    rcases hstep n s h with ⟨b, hpass, hQ⟩ | ⟨n', s', rfl, hpass, hP⟩
    · exact ⟨b, by rw [hpass]; rfl, hQ⟩
    · obtain ⟨b, hrun, hQ⟩ := ih (by omega) hP
      refine ⟨b, ?_, hQ⟩
      rw [hpass]
      exact hrun

/-- With enough fuel the run ends, with `b`. -/
def Returns {β : Type*} (run : ℕ → Except ε β) (b : β) : Prop :=
  ∃ n, ∀ fuel, n ≤ fuel → run fuel = .ok b

theorem Returns.unique {β : Type*} {run : ℕ → Except ε β} {b b' : β} (h : Returns run b)
    (h' : Returns run b') : b = b' := by
  obtain ⟨n, hn⟩ := h
  obtain ⟨n', hn'⟩ := h'
  have hrun := hn (max n n') (Nat.le_max_left n n')
  rw [hn' _ (Nat.le_max_right n n')] at hrun
  exact (Except.ok.inj hrun).symm

theorem returns_ok {β : Type*} (b : β) : Returns (fun _ ↦ (.ok b : Except ε β)) b :=
  ⟨0, fun _ _ ↦ rfl⟩

theorem Returns.bind {α β : Type _} {run : ℕ → Except ε α} {next : ℕ → α → Except ε β} {a : α}
    {b : β} (h : Returns run a) (h' : Returns (fun fuel ↦ next fuel a) b) :
    Returns (fun fuel ↦ run fuel >>= next fuel) b := by
  obtain ⟨n, hn⟩ := h
  obtain ⟨n', hn'⟩ := h'
  refine ⟨max n n', fun fuel hfuel ↦ ?_⟩
  have hrun := hn fuel (Nat.le_trans (Nat.le_max_left n n') hfuel)
  dsimp only
  rw [hrun, ok_bind]
  exact hn' fuel (Nat.le_trans (Nat.le_max_right n n') hfuel)

/-- A run that ends in `P`, of which there is one, returns it. -/
theorem exists_returns {β : Type*} {run : ℕ → Except ε β} {P : β → Prop} {n : ℕ}
    (hrun : ∀ fuel, n ≤ fuel → ∃ b, run fuel = .ok b ∧ P b)
    (hunique : ∀ b b', P b → P b' → b = b') : ∃ b, Returns run b ∧ P b := by
  obtain ⟨b, -, hb⟩ := hrun n (Nat.le_refl n)
  refine ⟨b, ⟨n, fun fuel hfuel ↦ ?_⟩, hb⟩
  obtain ⟨b', hok, hb'⟩ := hrun fuel hfuel
  rw [hok, hunique b' b hb' hb]

/-- Runs that all end in `P`, of which there is one, return the same. -/
theorem exists_returns_all {ι β : Type*} [Nonempty ι] {run : ι → ℕ → Except ε β} {P : β → Prop}
    {n : ℕ} (hrun : ∀ i fuel, n ≤ fuel → ∃ b, run i fuel = .ok b ∧ P b)
    (hunique : ∀ b b', P b → P b' → b = b') : ∃ b, (∀ i, Returns (run i) b) ∧ P b := by
  obtain ⟨i₀⟩ := ‹Nonempty ι›
  obtain ⟨b, -, hb⟩ := exists_returns (hrun i₀) hunique
  refine ⟨b, fun i ↦ ?_, hb⟩
  obtain ⟨b', hret, hb'⟩ := exists_returns (hrun i) hunique
  rwa [hunique b b' hb hb']

end LowLevel.Basis.Loop
