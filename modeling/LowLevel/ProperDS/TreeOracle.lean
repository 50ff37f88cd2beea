import LowLevel.ProperDS.Judgement
import LowLevel.ProperDS.SetOracle
import LowLevel.ProperDS.Shadow
import Mathlib.Data.Int.Interval

namespace LowLevel.ProperDS.TreeOracle

open Basis.AddressSpace Basis.Differential Basis.Loop Basis.SortedList Basis.StaticArray SetOracle

def oraCap : ℕ := 1024

/-- The array that `inorder` fills. -/
abbrev Filled := { vs : List ℤ // vs.length = oraCap }

inductive Call
  | init
  | op (o : Op)
  | size
  | validate
  | min
  | max
  | inorder
  | free

abbrev Reply : Call → Type
  | .op _ | .validate => Bool
  | .size => ℕ
  | .min | .max => Bool × ℤ
  | .inorder => Filled
  | .init | .free => Unit

abbrev Prog := Test Call Reply

section Contract

def answer (S : Finset ℤ) : Op → Bool
  | .insert key => decide (key ∉ S)
  | .remove key | .contains key => decide (key ∈ S)

def next (S : Finset ℤ) : Op → Finset ℤ
  | .insert key => insert key S
  | .remove key => S.erase key
  | .contains _ => S

def fill (vs : List ℤ) : Filled :=
  ⟨(vs ++ List.replicate oraCap 0).take oraCap, by simp⟩

/-- A set of keys. The caller of `inorder` has to provide the room. -/
def contract : Contract (Finset ℤ) Call Reply where
  pre S c :=
    match c with
    | .inorder => S.card ≤ oraCap
    | .init | .op _ | .size | .validate | .min | .max | .free => True
  allows S c r :=
    match c, r with
    | .op o, b => b = answer S o
    | .size, n => n = S.card
    | .validate, ok => ok = true
    | .min, (got, out) => got = decide (S ≠ ∅) ∧ (S ≠ ∅ → out = (inOrder S).headD 0)
    | .max, (got, out) => got = decide (S ≠ ∅) ∧ (S ≠ ∅ → out = (inOrder S).getLastD 0)
    | .inorder, vs => inOrder S <+: vs.1
    | .init, _ | .free, _ => True
  next S c :=
    match c with
    | .init | .free => ∅
    | .op o => next S o
    | .size | .validate | .min | .max | .inorder => S
  answer S c :=
    match c with
    | .op o => answer S o
    | .size => S.card
    | .validate => true
    | .min => (decide (S ≠ ∅), (inOrder S).headD 0)
    | .max => (decide (S ≠ ∅), (inOrder S).getLastD 0)
    | .inorder => fill (inOrder S)
    | .init | .free => ()
  answer_allowed := by
    intro S c hpre
    cases c with
    | init => trivial
    | op o => rfl
    | size => rfl
    | validate => rfl
    | min => exact ⟨rfl, fun _ ↦ rfl⟩
    | max => exact ⟨rfl, fun _ ↦ rfl⟩
    | inorder =>
      refine List.prefix_take_iff.mpr ⟨List.prefix_append _ _, ?_⟩
      rw [inOrder, Finset.length_sort]
      exact hpre
    | free => trivial

end Contract

def callOp (o : Op) : Prog Bool := Test.call (Call.op o)

def callMin : Prog (Bool × ℤ) := Test.call Call.min

def callMax : Prog (Bool × ℤ) := Test.call Call.max

def callInorder : Prog Filled := Test.call Call.inorder

def choose (r : ℕ) (key : ℤ) : Op :=
  if r = 0 then .insert key else if r = 1 then .remove key else .contains key

def operation (o : Op) (s : Ora) : Prog Ora := do
  let got ← callOp o
  let (want, s) ← Test.lift (s.exec o)
  Test.check (got = want)
  return s

def start : Ora := ⟨List.replicate oraCap 0, 0⟩

/-- The inorder keys against the sorted array, and the release of the tree. -/
def finish (s : Ora) : Prog Unit := do
  let vs ← callInorder
  let _ ← Test.times (compareCells vs.1 s.ora) s.olen s
  let _ ← Test.call Call.free
  return ()

namespace Bst

def sometimes (op : ℕ) : Prog Unit :=
  if op % 50 = 0 then Test.checkEq .validate true else pure ()

def pass (op : ℕ) (s : Ora) : Prog Ora := do
  let r ← Test.drawBelow 3
  let key ← Test.drawBelow 400
  let s ← operation (choose r key) s
  Test.checkEq .size s.olen
  sometimes op
  return s

def ends (s : Ora) : Prog Unit :=
  if 0 < s.olen then do
    Test.checkOut callMin (read s.ora 0)
    Test.checkOut callMax (read s.ora (sizeSub s.olen 1))
    return ()
  else pure ()

/-- The randomized part of `test_bst.c`, with so many operations. -/
def differential (ops : ℕ) : Prog Unit := do
  Test.heading "differential vs oracle"
  let _ ← Test.call Call.init
  let s ← Test.forInt pass ops start
  Test.checkEq .validate true
  Test.heading "differential final min/max/inorder"
  ends s
  finish s

end Bst

namespace Avl

def pass (_op : ℕ) (s : Ora) : Prog Ora := do
  let r ← Test.drawBelow 3
  let key ← Test.drawBelow 300
  let s ← operation (choose r key) s
  Test.checkEq .validate true
  Test.checkEq .size s.olen
  return s

/-- The randomized part of `test_avl.c`, with so many operations. -/
def differential (ops : ℕ) : Prog Unit := do
  Test.heading "differential vs oracle + validate"
  let _ ← Test.call Call.init
  let s ← Test.forInt pass ops start
  Test.heading "differential final inorder"
  finish s

end Avl

/-- The sorted array holds the set, of keys below 400 only. -/
structure Held (S : Finset ℤ) (s : Ora) : Prop where
  keeps : Keeps oraCap (inOrder S) s
  keys : ∀ k ∈ S, 0 ≤ k ∧ k < 400

variable {S : Finset ℤ} {s : Ora} {o : Op} {key : ℤ}

theorem length_inOrder (S : Finset ℤ) : (inOrder S).length = S.card := Finset.length_sort _

theorem toFinset_inOrder (S : Finset ℤ) : (inOrder S).toFinset = S := Finset.sort_toFinset _ _

theorem held_start : Held ∅ start where
  keeps := ⟨List.length_replicate, by simp [inOrder], by simp [inOrder, start], by simp [inOrder]⟩
  keys := by simp

theorem Held.card_lt (h : Held S s) : S.card < oraCap := by
  have hsub : S ⊆ Finset.Ico 0 400 := fun k hk ↦ Finset.mem_Ico.mpr (h.keys k hk)
  have hcard := Finset.card_le_card hsub
  rw [Int.card_Ico] at hcard
  exact Nat.lt_of_le_of_lt hcard (by decide)

theorem Held.olen (h : Held S s) : s.olen = S.card := by rw [h.keeps.olen, length_inOrder]

theorem setExec_eq (h : S.card < oraCap) (o : Op) :
    setExec oraCap S o = .ok (answer S o, next S o) := by
  cases o with
  | insert key =>
    rw [setExec, answer, next]
    split_ifs with hmem hfull
    · rw [decide_eq_false (not_not_intro hmem), Finset.insert_eq_of_mem hmem]
    · omega
    · rw [decide_eq_true hmem]
  | remove key => rfl
  | contains key => rfl

/-- The key an operation is about. -/
def opKey : Op → ℤ
  | .insert key | .remove key | .contains key => key

theorem next_keys (h : ∀ k ∈ S, 0 ≤ k ∧ k < 400) (hkey : 0 ≤ opKey o ∧ opKey o < 400) :
    ∀ k ∈ next S o, 0 ≤ k ∧ k < 400 := by
  intro k hk
  cases o with
  | insert key =>
    rcases Finset.mem_insert.mp hk with rfl | hk
    · exact hkey
    · exact h k hk
  | remove key => exact h k (Finset.mem_of_mem_erase hk)
  | contains key => exact h k hk

theorem Held.exec (h : Held S s) (hkey : 0 ≤ opKey o ∧ opKey o < 400) :
    ∃ s', s.exec o = .ok (answer S o, s') ∧ Held (next S o) s' := by
  have hset := setExec_eq h.card_lt o
  rcases h.keeps.exec o with ⟨b, s', l', hrun, hkeeps, hset'⟩ | ⟨-, hset'⟩
  · rw [toFinset_inOrder, hset] at hset'
    obtain ⟨rfl, hnext⟩ := Prod.ext_iff.mp (Except.ok.inj hset')
    dsimp only at hnext
    refine ⟨s', hrun, ?_, next_keys h.keys hkey⟩
    rwa [hnext, inOrder_toFinset hkeeps.sorted]
  · rw [toFinset_inOrder, hset] at hset'
    cases hset'

theorem opKey_choose (r : ℕ) (key : ℤ) : opKey (choose r key) = key := by
  rw [choose]
  split_ifs <;> rfl

theorem decides_operation (h : Held S s) (hkey : 0 ≤ opKey o ∧ opKey o < 400) :
    Decides contract Held 1 (operation o s) S := by
  obtain ⟨s', hrun, hheld⟩ := h.exec hkey
  refine decides_call trivial ?_ ?_
  · rintro (got : Bool) (hgot : got = answer S o)
    exact decides_lift hrun (decides_check (decide_eq_true hgot) hheld)
  · rintro (got : Bool) (hgot : got ≠ answer S o)
    exact fails_lift hrun (fails_check (fun heq ↦ (hgot (of_decide_eq_true heq)).elim))

section rules

variable {β : Type} {n : ℕ} {P : Finset ℤ → β → Prop} {f : Unit → Prog β}

theorem decides_size (h : Held S s) (hrest : Decides contract P n (f ()) S) :
    Decides contract P (n + 1) (Test.checkEq .size s.olen >>= f) S :=
  decides_checkEq trivial (fun n ↦ by rw [h.olen]; rfl) hrest

theorem decides_validate (hrest : Decides contract P n (f ()) S) :
    Decides contract P (n + 1) (Test.checkEq .validate true >>= f) S :=
  decides_checkEq trivial (fun _ ↦ Iff.rfl) hrest

end rules

theorem decides_sometimes (i : ℕ) {s : Ora} (h : Held S s) :
    Decides contract Held 1 (Bst.sometimes i >>= fun _ ↦ return s) S := by
  rw [Bst.sometimes]
  split_ifs
  · exact decides_validate h
  · exact h

theorem decides_bst_pass (i : ℕ) (h : Held S s) : Decides contract Held 3 (Bst.pass i s) S := by
  refine decides_drawBelow (by decide) (fun r _ ↦ decides_drawBelow (by decide) (fun k hk ↦ ?_))
  have hkey : 0 ≤ opKey (choose r k) ∧ opKey (choose r k) < 400 := by
    rw [opKey_choose]
    omega
  refine Decides.bind (n := 1) (m := 2) ((decides_operation h hkey).mono (fun S' s' h' ↦ ?_))
  exact decides_size h' (decides_sometimes i h')

theorem decides_avl_pass (i : ℕ) (h : Held S s) : Decides contract Held 3 (Avl.pass i s) S := by
  refine decides_drawBelow (by decide) (fun r _ ↦ decides_drawBelow (by decide) (fun k hk ↦ ?_))
  have hkey : 0 ≤ opKey (choose r k) ∧ opKey (choose r k) < 400 := by
    rw [opKey_choose]
    omega
  refine Decides.bind (n := 1) (m := 2) ((decides_operation h hkey).mono (fun S' s' h' ↦ ?_))
  exact decides_validate (decides_size h' h')

/-- The last comparison: what `inorder` fills in against the sorted array. -/
theorem decides_finish (h : Held S s) :
    Decides contract (fun _ _ ↦ True) oraCap (finish s) S := by
  have hlen : s.olen = (inOrder S).length := h.keeps.olen
  have hroom := h.card_lt
  refine decides_call hroom.le ?_ ?_
  · rintro ⟨vs, hvs⟩ (hfilled : inOrder S <+: vs)
    have hcount : (inOrder S).length + 0 ≤ oraCap := by
      rw [length_inOrder]
      exact hroom.le
    rw [hlen]
    refine Decides.le ?_ hcount
    refine decides_compareCells h.keeps.used (Nat.le_refl _)
      (fun i hi ↦ prefix_getElem? hfilled hi) ?_
    exact decides_quiet trivial (fun _ ↦ trivial) (fun _ ↦ trivial)
  · rintro ⟨vs, hvs⟩ (hwrong : ¬ inOrder S <+: vs)
    rw [hlen]
    have hle : (inOrder S).length ≤ vs.length := by
      rw [length_inOrder, hvs]
      exact hroom.le
    refine fails_compareCells h.keeps.used (Nat.le_refl _) hle (fun hsame ↦ hwrong ?_)
    refine prefix_of_getElem? (fun i v hv ↦ ?_)
    obtain ⟨hi, -⟩ := List.getElem?_eq_some_iff.mp hv
    rw [hsame i hi, hv]

theorem decides_ends (h : Held S s) :
    Decides contract (fun S' _ ↦ S' = S) 4 (Bst.ends s) S := by
  rw [Bst.ends]
  split_ifs with hpos
  · have holen := h.keeps.olen
    have hsmall := h.card_lt
    have hne : S ≠ ∅ := (Finset.card_pos.mp (h.olen ▸ hpos)).ne_empty
    have hlen := length_inOrder S
    have hfirst : read s.ora 0 = .ok ((inOrder S).headD 0) := by
      rw [read_within h.keeps.used (by omega), List.headD_eq_head?_getD, List.head?_eq_getElem?,
        List.getElem?_eq_getElem (by omega)]
      rfl
    have hlast : read s.ora (sizeSub s.olen 1) = .ok ((inOrder S).getLastD 0) := by
      rw [sizeSub_of_le hpos (by rw [oraCap] at hsmall; omega), holen,
        read_within h.keeps.used (by omega), List.getLastD_eq_getLast?, List.getLast?_eq_getElem?,
        List.getElem?_eq_getElem (by omega)]
      rfl
    refine decides_checkOut Call.min callMin id rfl trivial hfirst (found_iff hne _) ?_
    exact decides_checkOut Call.max callMax id rfl trivial hlast (found_iff hne _) rfl
  · exact rfl

/-- The differential tests of both search trees: they succeed exactly for the
trees that behave as a set of keys on the calls made, down to the smallest key,
the largest one and the order of all. -/
theorem tree_tests_exact (S : Finset ℤ) (ops ops' : ℕ) (hops : ops < 2 ^ 31)
    (hops' : ops' < 2 ^ 31) :
    Judges contract (3 * ops + (oraCap + 5)) S (Bst.differential ops) ∧
      Judges contract (3 * ops' + oraCap) S (Avl.differential ops') := by
  constructor
  · have hloop := decides_forInt Bst.pass (fun _ ↦ Held) hops held_start
      (fun i _ _ _ h ↦ decides_bst_pass i h)
    refine judges_of_decides _ (decides_quiet trivial (fun _ ↦ trivial) (fun _ ↦ ?_))
    refine Decides.bind (hloop.mono (fun S s h ↦ decides_validate (decides_heading _ ?_)))
    refine (Decides.bind ((decides_ends h).mono ?_)).le (Nat.add_comm 4 oraCap).le
    rintro _ _ rfl
    exact decides_finish h
  · have hloop := decides_forInt Avl.pass (fun _ ↦ Held) hops' held_start
      (fun i _ _ _ h ↦ decides_avl_pass i h)
    refine judges_of_decides _ (decides_quiet trivial (fun _ ↦ trivial) (fun _ ↦ ?_))
    exact Decides.bind (hloop.mono (fun S s h ↦ decides_heading _ (decides_finish h)))

theorem tree_tests_exact_source :
    Judges contract (3 * 3000 + (oraCap + 5)) ∅ (Bst.differential 3000) ∧
      Judges contract (3 * 1000 + oraCap) ∅ (Avl.differential 1000) :=
  tree_tests_exact ∅ 3000 1000 (by decide) (by decide)

end LowLevel.ProperDS.TreeOracle
