import Mathlib.Algebra.Group.Nat.Defs
import Mathlib.Tactic.Common

namespace LowLevel.Basis.Differential

/-- A test program: it draws random numbers, calls the component under test,
checks what it got back and names the section it comes to. `fault` is a step
with undefined behaviour. -/
inductive Test (C : Type) (R : C → Type) (α : Type) : Type
  | done (a : α)
  | fault
  | drawThen (next : ℕ → Test C R α)
  | callThen (c : C) (next : R c → Test C R α)
  | checkThen (b : Bool) (next : Test C R α)
  | headThen (name : String) (next : Test C R α)

/-- What a test hands to the harness that counts its checks. -/
inductive Mark
  | heading (name : String)
  | check (b : Bool)
  deriving DecidableEq

def Mark.outcome? : Mark → Option Bool
  | .heading _ => none
  | .check b => some b

/-- What a run did. A run into undefined behaviour has no result. -/
structure Outcome (C : Type) (R : C → Type) (α : Type) where
  calls : List (Σ c, R c)
  marks : List Mark
  result : Option α

namespace Outcome

variable {C α : Type} {R : C → Type}

def checks (o : Outcome C R α) : List Bool := o.marks.filterMap Mark.outcome?

def Passed (o : Outcome C R α) : Prop := ∀ b ∈ o.checks, b = true

end Outcome

variable {S C σ α β τ : Type} {R : C → Type} {ε : Type*}

namespace Test

def bind : Test C R α → (α → Test C R β) → Test C R β
  | .done a, f => f a
  | .fault, _ => .fault
  | .drawThen next, f => .drawThen (fun n ↦ (next n).bind f)
  | .callThen c next, f => .callThen c (fun r ↦ (next r).bind f)
  | .checkThen b next, f => .checkThen b (next.bind f)
  | .headThen name next, f => .headThen name (next.bind f)

instance : Monad (Test C R) where
  pure := .done
  bind := bind

def lift : Except ε α → Test C R α
  | .ok a => .done a
  | .error _ => .fault

/-- `rand()` -/
def draw : Test C R ℕ := .drawThen .done

def call (c : C) : Test C R (R c) := .callThen c .done

/-- `rand() % n` -/
def drawBelow (n : ℕ) : Test C R ℕ :=
  if n = 0 then .fault else .drawThen (fun i ↦ .done (i % n))

/-- A check hands its outcome to the harness and goes on. -/
def check (b : Bool) : Test C R Unit := .checkThen b (.done ())

def heading (name : String) : Test C R Unit := .headThen name (.done ())

def checkEq (c : C) [DecidableEq (R c)] (want : R c) : Test C R Unit := do
  let got ← call c
  check (got = want)

/-- An equality check against what is read after the call. -/
def checkRead (c : C) [DecidableEq (R c)] (want : Except ε (R c)) : Test C R Unit := do
  let got ← call c
  let want ← lift want
  check (got = want)

/-- A call that has to answer true and leave in `*out` what is read after it. -/
def checkOut [DecidableEq β] (ask : Test C R (Bool × β)) (want : Except ε β) :
    Test C R Unit := do
  let (got, out) ← ask
  check got
  let want ← lift want
  check (out = want)

/-- `for (i = 0; i < n; i++)` -/
def times (body : ℕ → τ → Test C R τ) : ℕ → τ → Test C R τ
  | 0, t => .done t
  | n + 1, t => times body n t >>= body n

/-- `for (int i = 0; i < n; i++)`: the counter must not pass the largest `int`. -/
def forInt (body : ℕ → τ → Test C R τ) (n : ℕ) (t : τ) : Test C R τ :=
  times (fun i t ↦ body i t >>= fun t ↦ if i + 1 < 2 ^ 31 then pure t else .fault) n t

/-- `while (cond) body`, which has to end within so many passes. -/
def repeatWhile (cond : τ → Bool) (body : τ → Test C R τ) : ℕ → τ → Test C R τ
  | 0, t => if cond t then .fault else .done t
  | n + 1, t => if cond t then body t >>= repeatWhile cond body n else .done t

/-- The run against a component in the state `s`, on a stream of random numbers. -/
def run (component : (c : C) → σ → R c × σ) :
    Test C R α → (ℕ → ℕ) → σ → Outcome C R α
  | .done a, _, _ => ⟨[], [], some a⟩
  | .fault, _, _ => ⟨[], [], none⟩
  | .drawThen next, rand, s => (next (rand 0)).run component (fun i ↦ rand (i + 1)) s
  | .callThen c next, rand, s =>
    let reply := component c s
    let o := (next reply.1).run component rand reply.2
    { o with calls := ⟨c, reply.1⟩ :: o.calls }
  | .checkThen b next, rand, s =>
    let o := next.run component rand s
    { o with marks := .check b :: o.marks }
  | .headThen name next, rand, s =>
    let o := next.run component rand s
    { o with marks := .heading name :: o.marks }

end Test

/-- What a component promises, over an abstract state: the calls it may be sent,
the replies it may give and the state a call leads to. Every call has some
right reply. -/
structure Contract (S C : Type) (R : C → Type) where
  pre : S → C → Prop
  allows : S → (c : C) → R c → Prop
  next : S → C → S
  answer : S → (c : C) → R c
  answer_allowed : ∀ s c, pre s c → allows s c (answer s c)

namespace Contract

variable (K : Contract S C R)

/-- Calls and replies that keep the contract on both sides. -/
def Conforms : S → List (Σ c, R c) → Prop
  | _, [] => True
  | s, ⟨c, r⟩ :: rest => K.pre s c ∧ K.allows s c r ∧ Conforms (K.next s c) rest

/-- A component that gives right replies as long as it is called rightly. -/
def Serves (component : (c : C) → σ → R c × σ) (t : σ) (s : S) : Prop :=
  ∃ rel : σ → S → Prop, rel t s ∧ ∀ t s c, rel t s → K.pre s c →
    K.allows s c (component c t).1 ∧ rel (component c t).2 (K.next s c)

/-- The contract with one right reply for each call. -/
def exactly (pre : S → C → Prop) (answer : S → (c : C) → R c) (next : S → C → S) :
    Contract S C R where
  pre := pre
  allows s c r := r = answer s c
  next := next
  answer := answer
  answer_allowed _ _ _ := rfl

/-- The component that keeps the abstract state. -/
def reference (c : C) (s : S) : R c × S := (K.answer s c, K.next s c)

theorem reference_serves (s : S) : K.Serves K.reference s s := by
  refine ⟨Eq, rfl, ?_⟩
  rintro t _ c rfl hpre
  exact ⟨K.answer_allowed t c hpre, rfl⟩

end Contract

/-- Some check fails, whatever the replies and the random numbers are. -/
def Test.Fails : Test C R α → Prop
  | .done _ => False
  | .fault => False
  | .drawThen next => ∀ n, (next n).Fails
  | .callThen _ next => ∀ r, (next r).Fails
  | .checkThen b next => b = false ∨ next.Fails
  | .headThen _ next => next.Fails

/-- In the abstract state `s` the program passes on right replies, with at most
`n` checks, and ends in `Q`. It fails after a wrong reply. -/
def Decides (K : Contract S C R) (Q : S → α → Prop) : ℕ → Test C R α → S → Prop
  | _, .done a, s => Q s a
  | _, .fault, _ => False
  | n, .drawThen next, s => ∀ i, Decides K Q n (next i) s
  | n, .callThen c next, s => K.pre s c ∧ ∀ r,
    (K.allows s c r → Decides K Q n (next r) (K.next s c)) ∧ (¬ K.allows s c r → (next r).Fails)
  | 0, .checkThen _ _, _ => False
  | n + 1, .checkThen b next, s => b = true ∧ Decides K Q n next s
  | n, .headThen _ next, s => Decides K Q n next s

section Rules

variable {K : Contract S C R} {Q Q' : S → α → Prop} {P : S → β → Prop} {p : Test C R α}
  {f : α → Test C R β} {s : S} {a : α} {c : C} {b : Bool} {k n m : ℕ} {t : τ}

theorem Test.Fails.bind (h : p.Fails) (f : α → Test C R β) : (p >>= f).Fails := by
  induction p with
  | done a => exact h.elim
  | fault => exact h.elim
  | drawThen next ih => exact fun i ↦ ih i (h i)
  | callThen c next ih => exact fun r ↦ ih r (h r)
  | checkThen b next ih => exact h.imp id ih
  | headThen name next ih => exact ih h

theorem Decides.le (h : Decides K Q n p s) (hle : n ≤ m) : Decides K Q m p s := by
  induction p generalizing n m s with
  | done a => exact h
  | fault => exact h.elim
  | drawThen next ih => exact fun i ↦ ih i (h i) hle
  | callThen c next ih => exact ⟨h.1, fun r ↦ ⟨fun hr ↦ ih r ((h.2 r).1 hr) hle, (h.2 r).2⟩⟩
  | checkThen b next ih =>
    cases n with
    | zero => exact h.elim
    | succ n =>
      cases m with
      | zero => exact absurd hle (Nat.not_succ_le_zero n)
      | succ m => exact ⟨h.1, ih h.2 (Nat.le_of_succ_le_succ hle)⟩
  | headThen name next ih => exact ih h hle

theorem Decides.bind (h : Decides K (fun s a ↦ Decides K P m (f a) s) n p s) :
    Decides K P (n + m) (p >>= f) s := by
  induction p generalizing n s with
  | done a =>
    have hrest : Decides K P m (f a) s := h
    exact hrest.le (Nat.le_add_left m n)
  | fault => exact h.elim
  | drawThen next ih => exact fun i ↦ ih i (h i)
  | callThen c next ih =>
    exact ⟨h.1, fun r ↦ ⟨fun hr ↦ ih r ((h.2 r).1 hr), fun hr ↦ ((h.2 r).2 hr).bind f⟩⟩
  | checkThen b next ih =>
    cases n with
    | zero => exact h.elim
    | succ n =>
      rw [Nat.add_right_comm]
      exact ⟨h.1, ih h.2⟩
  | headThen name next ih => exact ih h

theorem Decides.mono (h : Decides K Q n p s) (himp : ∀ s a, Q s a → Q' s a) :
    Decides K Q' n p s := by
  induction p generalizing n s with
  | done a => exact himp s a h
  | fault => exact h.elim
  | drawThen next ih => exact fun i ↦ ih i (h i)
  | callThen c next ih => exact ⟨h.1, fun r ↦ ⟨fun hr ↦ ih r ((h.2 r).1 hr), (h.2 r).2⟩⟩
  | checkThen b next ih =>
    cases n with
    | zero => exact h.elim
    | succ n => exact ⟨h.1, ih h.2⟩
  | headThen name next ih => exact ih h

theorem decides_pure (h : Q s a) : Decides K Q n (pure a) s := h

theorem decides_heading {f : Unit → Test C R β} (name : String) (h : Decides K P n (f ()) s) :
    Decides K P n (Test.heading name >>= f) s := h

theorem decides_draw {f : ℕ → Test C R β} (h : ∀ i, Decides K P n (f i) s) :
    Decides K P n (Test.draw >>= f) s := h

theorem decides_drawBelow {f : ℕ → Test C R β} (hk : 0 < k)
    (h : ∀ i, i < k → Decides K P n (f i) s) : Decides K P n (Test.drawBelow k >>= f) s := by
  rw [Test.drawBelow, if_neg (by omega)]
  exact fun i ↦ h (i % k) (Nat.mod_lt i hk)

theorem decides_lift {e : Except ε α} (he : e = .ok a) (h : Decides K P n (f a) s) :
    Decides K P n (Test.lift e >>= f) s := by
  rw [he]
  exact h

theorem decides_check {f : Unit → Test C R β} (hb : b = true) (h : Decides K P n (f ()) s) :
    Decides K P (n + 1) (Test.check b >>= f) s := ⟨hb, h⟩

theorem decides_call {f : R c → Test C R β} (hpre : K.pre s c)
    (hright : ∀ r, K.allows s c r → Decides K P n (f r) (K.next s c))
    (hwrong : ∀ r, ¬ K.allows s c r → (f r).Fails) : Decides K P n (Test.call c >>= f) s :=
  ⟨hpre, fun r ↦ ⟨hright r, hwrong r⟩⟩

/-- A call that has no wrong reply. -/
theorem decides_quiet {f : R c → Test C R β} (hpre : K.pre s c) (hall : ∀ r, K.allows s c r)
    (h : ∀ r, Decides K P n (f r) (K.next s c)) : Decides K P n (Test.call c >>= f) s :=
  decides_call hpre (fun r _ ↦ h r) (fun r hr ↦ absurd (hall r) hr)

theorem fails_lift {e : Except ε α} (he : e = .ok a) (h : (f a).Fails) :
    (Test.lift e >>= f : Test C R β).Fails := by
  rw [he]
  exact h

theorem fails_check {f : Unit → Test C R β} (h : b = true → (f ()).Fails) :
    (Test.check b >>= f : Test C R β).Fails := by
  cases b with
  | false => exact .inl rfl
  | true => exact .inr (h rfl)

theorem decides_checkEq [DecidableEq (R c)] {v : R c} {f : Unit → Test C R β} (hpre : K.pre s c)
    (hright : ∀ r, K.allows s c r ↔ r = v) (h : Decides K P n (f ()) (K.next s c)) :
    Decides K P (n + 1) (Test.checkEq c v >>= f) s := by
  refine decides_call hpre (fun r hr ↦ ?_) (fun r hr ↦ ?_)
  · exact ⟨decide_eq_true ((hright r).mp hr), h⟩
  · exact .inl (decide_eq_false (fun heq ↦ hr ((hright r).mpr heq)))

theorem decides_checkRead [DecidableEq (R c)] {want : Except ε (R c)} {v : R c}
    {f : Unit → Test C R β} (hpre : K.pre s c) (hwant : want = .ok v)
    (hright : ∀ r, K.allows s c r ↔ r = v) (h : Decides K P n (f ()) (K.next s c)) :
    Decides K P (n + 1) (Test.checkRead c want >>= f) s := by
  rw [hwant]
  exact decides_checkEq hpre hright h

theorem decides_checkOut [DecidableEq β] {γ : Type} {P : S → γ → Prop} (c : C)
    (ask : Test C R (Bool × β)) (view : R c → Bool × β)
    (hask : ask = .callThen c (fun r ↦ .done (view r))) {want : Except ε β} {v : β}
    {f : Unit → Test C R γ} (hpre : K.pre s c) (hwant : want = .ok v)
    (hright : ∀ r, K.allows s c r ↔ view r = (true, v)) (h : Decides K P n (f ()) (K.next s c)) :
    Decides K P (n + 2) (Test.checkOut ask want >>= f) s := by
  rw [hask, hwant]
  refine ⟨hpre, fun r ↦ ⟨fun hr ↦ ?_, fun hr ↦ ?_⟩⟩
  · have heq := (hright r).mp hr
    exact ⟨congrArg Prod.fst heq, decide_eq_true (congrArg Prod.snd heq), h⟩
  · cases hgot : (view r).1 with
    | false => exact .inl hgot
    | true =>
      refine .inr (.inl (decide_eq_false (fun hout ↦ ?_)))
      exact hr ((hright r).mpr (Prod.ext hgot hout))

theorem found_iff {p : Prop} [Decidable p] (hp : p) (v : β) (r : Bool × β) :
    r.1 = decide p ∧ (p → r.2 = v) ↔ r = (true, v) := by
  rw [decide_eq_true hp, Prod.ext_iff]
  exact and_congr Iff.rfl (forall_prop_of_true hp)

/-- A call that answers whether there was an element, and the element. The test
checks the answer and goes on with both. -/
theorem decides_found {p : Prop} [Decidable p] {full : Bool} {g : Bool × β → Test C R τ}
    {f : Bool → β → Test C R τ} {P : S → τ → Prop} (c : C) (ask : Test C R (Bool × β))
    (view : R c → Bool × β) (hask : ask = .callThen c (fun r ↦ .done (view r))) (v : β)
    (hg : ∀ got out, g (got, out) = Test.check (got = full) >>= fun _ ↦ f got out)
    (hpre : K.pre s c)
    (hallows : ∀ r, K.allows s c r ↔ (view r).1 = decide p ∧ (p → (view r).2 = v))
    (hfull : full = decide p) (hempty : ¬ p → ∀ out, Decides K P n (f false out) (K.next s c))
    (hfound : p → Decides K P n (f true v) (K.next s c))
    (hwrong : p → ∀ out, out ≠ v → (f true out).Fails) : Decides K P (n + 1) (ask >>= g) s := by
  rw [hask]
  refine ⟨hpre, fun r ↦ ⟨fun hr ↦ ?_, fun hr ↦ ?_⟩⟩
  · obtain ⟨hgot, hout⟩ := (hallows r).mp hr
    change Decides K P (n + 1) (g ((view r).1, (view r).2)) _
    rw [hg]
    refine decides_check (decide_eq_true (hgot.trans hfull.symm)) ?_
    rw [hgot]
    by_cases hp : p
    · rw [decide_eq_true hp, hout hp]
      exact hfound hp
    · rw [decide_eq_false hp]
      exact hempty hp _
  · change (g ((view r).1, (view r).2)).Fails
    rw [hg]
    refine fails_check (fun hcheck ↦ ?_)
    have hgot : (view r).1 = decide p := (of_decide_eq_true hcheck).trans hfull
    have hp : p := by
      by_contra hp
      exact hr ((hallows r).mpr ⟨hgot, fun h ↦ absurd h hp⟩)
    rw [hgot, decide_eq_true hp]
    exact hwrong hp _ (fun hout ↦ hr ((hallows r).mpr ⟨hgot, fun _ ↦ hout⟩))

theorem decides_times (body : ℕ → τ → Test C R τ) (I : ℕ → S → τ → Prop) (h0 : I 0 s t)
    (hstep : ∀ i s t, i < n → I i s t → Decides K (I (i + 1)) k (body i t) s) :
    Decides K (I n) (k * n) (Test.times body n t) s := by
  induction n with
  | zero => exact h0
  | succ n ih =>
    have hfirst := ih (fun i s t hi ↦ hstep i s t (by omega))
    exact Decides.bind (hfirst.mono (fun s t hI ↦ hstep n s t (Nat.lt_succ_self n) hI))

theorem decides_forInt (body : ℕ → τ → Test C R τ) (I : ℕ → S → τ → Prop) (hn : n < 2 ^ 31)
    (h0 : I 0 s t) (hstep : ∀ i s t, i < n → I i s t → Decides K (I (i + 1)) k (body i t) s) :
    Decides K (I n) (k * n) (Test.forInt body n t) s := by
  refine decides_times _ I h0 (fun i s t hi hI ↦ ?_)
  refine Decides.bind (m := 0) ((hstep i s t hi hI).mono (fun s t hI' ↦ ?_))
  rw [if_pos (by omega)]
  exact hI'

theorem Test.bind_assoc {γ : Type} (p : Test C R α) (f : α → Test C R β) (g : β → Test C R γ) :
    p >>= f >>= g = p >>= fun a ↦ f a >>= g := by
  induction p with
  | done a => rfl
  | fault => rfl
  | drawThen next ih => exact congrArg Test.drawThen (funext ih)
  | callThen c next ih => exact congrArg (Test.callThen c) (funext ih)
  | checkThen b next ih => exact congrArg (Test.checkThen b) ih
  | headThen name next ih => exact congrArg (Test.headThen name) ih

/-- A loop of checks, one of which does not hold, whatever follows it. -/
theorem fails_times {body : ℕ → τ → Test C R τ} {g : ℕ → Bool} {i : ℕ} {f : τ → Test C R β}
    (hbody : ∀ i < n, body i t = .checkThen (g i) (.done t)) (hi : i < n) (hfail : g i = false) :
    (Test.times body n t >>= f).Fails := by
  have hall : ∀ f : τ → Test C R β, (∃ i < n, g i = false) ∨ (f t).Fails →
      (Test.times body n t >>= f).Fails := by
    clear hi hfail
    induction n with
    | zero =>
      rintro f (⟨i, hi, -⟩ | hf)
      · exact absurd hi (Nat.not_lt_zero i)
      · exact hf
    | succ n ih =>
      intro f h
      rw [Test.times, Test.bind_assoc]
      refine ih (fun i hi ↦ hbody i (by omega)) _ ?_
      rw [hbody n (Nat.lt_succ_self n)]
      rcases h with ⟨i, hi, hg⟩ | hf
      · rcases Nat.lt_or_eq_of_le (Nat.le_of_lt_succ hi) with hlt | rfl
        · exact .inl ⟨i, hlt, hg⟩
        · exact .inr (.inl hg)
      · exact .inr (.inr hf)
  exact hall f (.inl ⟨i, hi, hfail⟩)

/-- A loop whose passes count `size` down to 0. -/
theorem decides_repeatWhile (size : τ → ℕ) (body : τ → Test C R τ) (I : S → τ → Prop)
    (hstep : ∀ n s t, I s t → size t = n + 1 →
      Decides K (fun s t ↦ I s t ∧ size t = n) k (body t) s) (h : I s t) :
    Decides K (fun s t ↦ I s t ∧ size t = 0) (k * size t)
      (Test.repeatWhile (fun t ↦ decide (0 < size t)) body (size t) t) s := by
  generalize hn : size t = n
  induction n generalizing s t with
  | zero =>
    rw [Test.repeatWhile, if_neg (by simp [hn])]
    exact ⟨h, hn⟩
  | succ n ih =>
    rw [Test.repeatWhile, if_pos (decide_eq_true (by omega)), Nat.mul_succ, Nat.add_comm]
    exact Decides.bind ((hstep n s t h hn).mono (fun s t hI ↦ ih hI.1 hI.2))

variable (component : (c : C) → σ → R c × σ) (rand : ℕ → ℕ) (t : σ)

theorem Test.Fails.run (h : p.Fails) : ¬ (p.run component rand t).Passed := by
  induction p generalizing rand t with
  | done a => exact h.elim
  | fault => exact h.elim
  | drawThen next ih => exact ih _ _ t (h _)
  | callThen c next ih => exact ih _ rand _ (h _)
  | checkThen b next ih =>
    intro hpassed
    obtain ⟨hb, hrest⟩ := List.forall_mem_cons.mp hpassed
    rcases h with rfl | h
    · cases hb
    · exact ih rand t h hrest
  | headThen name next ih => exact ih rand t h

theorem Decides.passed_iff (h : Decides K Q n p s) :
    (p.run component rand t).Passed ↔ K.Conforms s (p.run component rand t).calls := by
  induction p generalizing n s rand t with
  | done a => simp [Test.run, Outcome.Passed, Outcome.checks, Contract.Conforms]
  | fault => exact h.elim
  | drawThen next ih => exact ih _ _ t (h _)
  | callThen c next ih =>
    obtain ⟨hpre, hreply⟩ := h
    obtain ⟨hright, hwrong⟩ := hreply (component c t).1
    by_cases hallowed : K.allows s c (component c t).1
    · have hrest := ih _ rand (component c t).2 (hright hallowed)
      exact ⟨fun hp ↦ ⟨hpre, hallowed, hrest.mp hp⟩, fun hc ↦ hrest.mpr hc.2.2⟩
    · exact ⟨fun hp ↦ absurd hp ((hwrong hallowed).run component rand _),
        fun hc ↦ absurd hc.2.1 hallowed⟩
  | checkThen b next ih =>
    cases n with
    | zero => exact h.elim
    | succ n =>
      obtain ⟨rfl, h⟩ := h
      have hrest := ih rand t h
      exact ⟨fun hp ↦ hrest.mp (List.forall_mem_cons.mp hp).2,
        fun hc ↦ List.forall_mem_cons.mpr ⟨rfl, hrest.mpr hc⟩⟩
  | headThen name next ih => exact ih rand t h

/-- A passing run has a result, after at most `n` checks. -/
theorem Decides.result (h : Decides K Q n p s) (hpassed : (p.run component rand t).Passed) :
    (p.run component rand t).result.isSome ∧ (p.run component rand t).checks.length ≤ n := by
  induction p generalizing n s rand t with
  | done a => exact ⟨rfl, Nat.zero_le n⟩
  | fault => exact h.elim
  | drawThen next ih => exact ih _ _ t (h _) hpassed
  | callThen c next ih =>
    obtain ⟨hright, hwrong⟩ := h.2 (component c t).1
    by_cases hallowed : K.allows s c (component c t).1
    · exact ih _ rand _ (hright hallowed) hpassed
    · exact absurd hpassed ((hwrong hallowed).run component rand _)
  | checkThen b next ih =>
    cases n with
    | zero => exact h.elim
    | succ n =>
      obtain ⟨hsome, hcount⟩ := ih rand t h.2 (List.forall_mem_cons.mp hpassed).2
      exact ⟨hsome, Nat.succ_le_succ hcount⟩
  | headThen name next ih => exact ih rand t h hpassed

theorem Decides.conforms (h : Decides K Q n p s) (hserves : K.Serves component t s) :
    K.Conforms s (p.run component rand t).calls := by
  induction p generalizing n s rand t with
  | done a => trivial
  | fault => exact h.elim
  | drawThen next ih => exact ih _ _ t (h _) hserves
  | callThen c next ih =>
    obtain ⟨rel, hrel, hstep⟩ := hserves
    obtain ⟨hpre, hreply⟩ := h
    obtain ⟨hallowed, hnext⟩ := hstep t s c hrel hpre
    exact ⟨hpre, hallowed, ih _ rand _ ((hreply _).1 hallowed) ⟨rel, hnext, hstep⟩⟩
  | checkThen b next ih =>
    cases n with
    | zero => exact h.elim
    | succ n => exact ih rand t h.2 hserves
  | headThen name next ih => exact ih rand t h hserves

end Rules

end LowLevel.Basis.Differential
