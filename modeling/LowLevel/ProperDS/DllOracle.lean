import LowLevel.ProperDS.DequeOracle

namespace LowLevel.ProperDS.DllOracle

open Basis.AddressSpace Basis.Differential Basis.Loop Basis.StaticArray DequeOracle

def cap : ℕ := 1024

/-- The shadow occupies the cells from `shead` to `shead + slen`. -/
structure Window where
  shadow : List ℤ
  shead : ℕ
  slen : ℕ

def start : Window := ⟨List.replicate cap 0, 512, 0⟩

def pushFront (s : Window) (x : ℤ) : Prog Window := do
  Test.checkEq (.push .front x) true
  let shead := sizeSub s.shead 1
  let shadow ← Test.lift (assign s.shadow shead x)
  return ⟨shadow, shead, s.slen + 1⟩

def pushBack (s : Window) (x : ℤ) : Prog Window := do
  Test.checkEq (.push .back x) true
  let shadow ← Test.lift (assign s.shadow (s.shead + s.slen) x)
  return ⟨shadow, s.shead, s.slen + 1⟩

/-- An empty window goes back to the middle. -/
def recenter (s : Window) : Window := if s.slen = 0 then { s with shead := 512 } else s

def popFront (s : Window) : Prog Window := do
  let (got, out) ← callPop .front
  Test.check (got = decide (0 < s.slen))
  if 0 < s.slen then do
    let x ← Test.lift (read s.shadow s.shead)
    Test.check (out = x)
    return recenter ⟨s.shadow, s.shead + 1, sizeSub s.slen 1⟩
  else return s

def popBack (s : Window) : Prog Window := do
  let (got, out) ← callPop .back
  Test.check (got = decide (0 < s.slen))
  if 0 < s.slen then do
    let x ← Test.lift (read s.shadow (sizeSub (s.shead + s.slen) 1))
    Test.check (out = x)
    return recenter ⟨s.shadow, s.shead, sizeSub s.slen 1⟩
  else return s

def operation (r : ℕ) (x : ℤ) (s : Window) : Prog Window :=
  if r = 0 ∧ 0 < s.shead ∧ s.slen < 500 then pushFront s x
  else if r = 1 ∧ s.shead + s.slen < 1024 ∧ s.slen < 500 then pushBack s x
  else if r = 2 then popFront s
  else popBack s

def pass (_op : ℕ) (s : Window) : Prog Window := do
  let r ← Test.drawBelow 4
  let x ← Test.draw
  let s ← operation r x s
  Test.checkEq .validate true
  Test.checkEq .len s.slen
  return s

def drain (s : Window) : Prog Window := do
  Test.checkOut (callPop .front) (read s.shadow s.shead)
  return ⟨s.shadow, s.shead + 1, sizeSub s.slen 1⟩

/-- The randomized part of the test, with so many operations. -/
def differential (ops : ℕ) : Prog Unit := do
  Test.heading "differential vs oracle"
  let _ ← Test.call Call.init
  let s ← Test.forInt pass ops start
  Test.heading "differential drain compare"
  let _ ← Test.repeatWhile (fun s ↦ 0 < s.slen) drain s.slen s
  Test.checkEq .validate true
  let _ ← Test.call Call.free
  return ()

structure Holds (l : List ℤ) (s : Window) : Prop where
  size : s.shadow.length = 1024
  inside : s.shead + l.length ≤ 1024
  used : l <+: s.shadow.drop s.shead
  slen : s.slen = l.length

variable {l : List ℤ} {s : Window} {x : ℤ} {e : End}

theorem holds_start : Holds [] start :=
  ⟨List.length_replicate, by decide, List.nil_prefix, rfl⟩

theorem Holds.pos_iff (h : Holds l s) : 0 < s.slen ↔ l ≠ [] := by
  rw [h.slen, List.length_pos_iff]

theorem Holds.read (h : Holds l s) {i : ℕ} (hi : i < l.length) :
    Basis.StaticArray.read s.shadow (s.shead + i) = .ok (l.getD i 0) := by
  have hcell := prefix_getElem? h.used hi
  rw [List.getElem?_drop, List.getElem?_eq_getElem hi] at hcell
  rw [read_eq hcell, List.getD_eq_getElem?_getD, List.getElem?_eq_getElem hi]
  rfl

theorem Holds.recenter (h : Holds l s) : Holds l (recenter s) := by
  rw [DllOracle.recenter]
  split_ifs with hempty
  · have hnil : l = [] := List.length_eq_zero_iff.mp (h.slen.symm.trans hempty)
    subst hnil
    exact ⟨h.size, by simp, List.nil_prefix, h.slen⟩
  · exact h

theorem Holds.pushFront (h : Holds l s) (hroom : 0 < s.shead) (x : ℤ) :
    ∃ a, assign s.shadow (sizeSub s.shead 1) x = .ok a ∧
      Holds (x :: l) ⟨a, sizeSub s.shead 1, s.slen + 1⟩ := by
  have hinside := h.inside
  have hsize := h.size
  have hlt : s.shead - 1 < s.shadow.length := by omega
  rw [sizeSub_of_le hroom (by omega)]
  refine ⟨_, assign_eq hlt x, ?_, ?_, ?_, ?_⟩
  · rw [List.length_set, hsize]
  · rw [List.length_cons]
    dsimp only
    omega
  · have hnext : s.shead - 1 + 1 = s.shead := Nat.sub_add_cancel hroom
    rw [List.drop_set, if_neg (Nat.lt_irrefl _), Nat.sub_self, List.drop_eq_getElem_cons hlt,
      List.set_cons_zero, hnext]
    obtain ⟨rest, hrest⟩ := h.used
    exact ⟨rest, by rw [List.cons_append, hrest]⟩
  · exact congrArg (· + 1) h.slen

theorem Holds.pushBack (h : Holds l s) (hroom : s.shead + s.slen < 1024) (x : ℤ) :
    ∃ a, assign s.shadow (s.shead + s.slen) x = .ok a ∧
      Holds (l ++ [x]) ⟨a, s.shead, s.slen + 1⟩ := by
  have hsize := h.size
  have hslen := h.slen
  have hlen : l.length < (s.shadow.drop s.shead).length := by
    rw [List.length_drop]
    omega
  refine ⟨_, assign_eq (by omega) x, ?_, ?_, ?_, ?_⟩
  · rw [List.length_set, hsize]
  · rw [List.length_append, List.length_singleton]
    dsimp only
    omega
  · dsimp only
    rw [List.drop_set, if_neg (by omega), Nat.add_sub_cancel_left, hslen]
    exact prefix_concat h.used hlen x
  · rw [List.length_append, List.length_singleton]
    exact congrArg (· + 1) hslen

theorem Holds.popFront (h : Holds l s) (hne : l ≠ []) :
    Basis.StaticArray.read s.shadow s.shead = .ok (peek .front l) ∧
      Holds l.tail ⟨s.shadow, s.shead + 1, sizeSub s.slen 1⟩ := by
  have hinside := h.inside
  have hpos := List.length_pos_iff.mpr hne
  have hslen := h.slen
  refine ⟨?_, h.size, ?_, ?_, ?_⟩
  · rw [← Nat.add_zero s.shead, h.read hpos]
    cases l with
    | nil => exact absurd rfl hne
    | cons x l => rfl
  · rw [List.length_tail]
    dsimp only
    omega
  · obtain ⟨rest, hrest⟩ := h.used
    refine ⟨rest, ?_⟩
    rw [← List.tail_append_of_ne_nil hne, hrest, List.tail_drop]
  · rw [List.length_tail, ← hslen]
    exact sizeSub_of_le (by omega) (by omega)

theorem Holds.popBack (h : Holds l s) (hne : l ≠ []) :
    Basis.StaticArray.read s.shadow (sizeSub (s.shead + s.slen) 1) = .ok (peek .back l) ∧
      Holds l.dropLast ⟨s.shadow, s.shead, sizeSub s.slen 1⟩ := by
  have hinside := h.inside
  have hpos := List.length_pos_iff.mpr hne
  have hslen := h.slen
  refine ⟨?_, h.size, ?_, (List.dropLast_prefix l).trans h.used, ?_⟩
  · have hindex : s.shead + s.slen - 1 = s.shead + (l.length - 1) := by omega
    rw [sizeSub_of_le (by omega) (by omega), hindex, h.read (by omega), peek,
      List.getLastD_eq_getLast?, List.getLast?_eq_getElem?, List.getD_eq_getElem?_getD]
  · rw [List.length_dropLast]
    dsimp only
    omega
  · rw [List.length_dropLast, ← hslen]
    exact sizeSub_of_le (by omega) (by omega)

/-- Both pops: the window decides whether there is an element, `read` finds it
and `s'` is the window without it. -/
theorem decides_pop {s' : Window} {want : Except Stop ℤ} (h : Holds l s)
    (hstep : l ≠ [] → want = .ok (peek e l) ∧ Holds (remove e l) s') :
    Decides contract Holds 2 (do
      let (got, out) ← callPop e
      Test.check (got = decide (0 < s.slen))
      if 0 < s.slen then do
        let x ← Test.lift want
        Test.check (out = x)
        return s'
      else return s) l := by
  refine decides_found (.pop e) (callPop e) id rfl (peek e l)
    (fun _ _ ↦ rfl) trivial (fun _ ↦ Iff.rfl) (decide_eq_decide.mpr h.pos_iff) ?_ ?_ ?_
  · intro hnil out
    obtain rfl : l = [] := not_not.mp hnil
    rw [if_neg (fun hpos ↦ hnil (h.pos_iff.mp hpos))]
    cases e <;> exact h
  · intro hne
    obtain ⟨hread, hkeeps⟩ := hstep hne
    rw [if_pos (h.pos_iff.mpr hne)]
    exact decides_lift hread (decides_check (decide_eq_true rfl) hkeeps)
  · intro hne out hout
    obtain ⟨hread, -⟩ := hstep hne
    rw [if_pos (h.pos_iff.mpr hne)]
    exact fails_lift hread (.inl (decide_eq_false hout))

theorem decides_operation (r : ℕ) (x : ℤ) (h : Holds l s) :
    Decides contract Holds 2 (operation r x s) l := by
  rw [operation]
  split_ifs with hfront hback
  · obtain ⟨a, hrun, hkeeps⟩ := h.pushFront hfront.2.1 x
    refine decides_checkEq trivial (fun _ ↦ Iff.rfl) ?_
    exact decides_lift hrun hkeeps
  · obtain ⟨a, hrun, hkeeps⟩ := h.pushBack hback.2.1 x
    refine decides_checkEq trivial (fun _ ↦ Iff.rfl) ?_
    exact decides_lift hrun hkeeps
  · refine decides_pop h (fun hne ↦ ?_)
    obtain ⟨hread, hkeeps⟩ := h.popFront hne
    exact ⟨hread, hkeeps.recenter⟩
  · refine decides_pop h (fun hne ↦ ?_)
    obtain ⟨hread, hkeeps⟩ := h.popBack hne
    exact ⟨hread, hkeeps.recenter⟩

theorem decides_pass (i : ℕ) (h : Holds l s) : Decides contract Holds 4 (pass i s) l := by
  refine decides_drawBelow (by decide) (fun r _ ↦ decides_draw (fun x ↦ ?_))
  refine Decides.bind (n := 2) (m := 2) ((decides_operation r x h).mono (fun l' s' h' ↦ ?_))
  refine decides_checkEq trivial (fun _ ↦ Iff.rfl) ?_
  exact decides_checkEq trivial (fun n ↦ by rw [h'.slen]; rfl) h'

theorem decides_drain {n : ℕ} (h : Holds l s) (hlen : s.slen = n + 1) :
    Decides contract (fun l s ↦ Holds l s ∧ s.slen = n) 2 (drain s) l := by
  have hne : l ≠ [] := h.pos_iff.mp (by omega)
  obtain ⟨hread, hkeeps⟩ := h.popFront hne
  have hlen' := hkeeps.slen
  have hslen := h.slen
  rw [List.length_tail] at hlen'
  refine decides_checkOut (.pop .front) (callPop .front) id rfl trivial hread (found_iff hne _) ?_
  exact ⟨hkeeps, by omega⟩

/-- What is left is drained from the front, and the list released. -/
theorem decides_rest (h : Holds l s) : Decides contract (fun _ _ ↦ True) (2 * cap + 1) (do
    let _ ← Test.repeatWhile (fun s ↦ 0 < s.slen) drain s.slen s
    Test.checkEq .validate true
    let _ ← Test.call Call.free
    return ()) l := by
  have hdrained := decides_repeatWhile Window.slen drain Holds (fun _ _ _ ↦ decides_drain) h
  have hroom : 2 * s.slen + 1 ≤ 2 * cap + 1 := by
    have hinside := h.inside
    rw [h.slen, cap]
    omega
  refine (Decides.bind (hdrained.mono (fun l s _ ↦ ?_))).le hroom
  refine decides_checkEq trivial (fun _ ↦ Iff.rfl) (decides_quiet trivial (fun _ ↦ trivial) ?_)
  exact fun _ ↦ trivial

/-- The sliding window never leaves its array, and the test succeeds exactly for
the lists that behave as a list with two ends on the calls made. -/
theorem dll_test_exact (l : List ℤ) (ops : ℕ) (hops : ops < 2 ^ 31) :
    Judges contract (4 * ops + (2 * cap + 1)) l (differential ops) := by
  have hloop := decides_forInt pass (fun _ ↦ Holds) hops holds_start
    (fun i _ _ _ h ↦ decides_pass i h)
  refine judges_of_decides _ (decides_quiet trivial (fun _ ↦ trivial) (fun _ ↦ ?_))
  exact Decides.bind (hloop.mono (fun l s h ↦ decides_heading _ (decides_rest h)))

theorem dll_test_exact_source :
    Judges contract (4 * 3000 + (2 * cap + 1)) [] (differential 3000) :=
  dll_test_exact [] 3000 (by decide)

end LowLevel.ProperDS.DllOracle
