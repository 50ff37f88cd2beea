import LowLevel.Basis.SortedList
import LowLevel.Basis.StaticArray
import Mathlib.Algebra.Order.Group.Int

namespace LowLevel.ProperDS.SetOracle

open Basis.AddressSpace Basis.Loop Basis.SortedList Basis.StaticArray

/-- The sorted array of the differential tests of the search trees. -/
structure Ora where
  ora : List ℤ
  olen : ℕ

namespace Ora

def lower (s : Ora) (key : ℤ) : Except Stop ℕ := advance (· < key) s.ora s.olen

/-- `i < olen && ora[i] == key` -/
def hit (s : Ora) (i : ℕ) (key : ℤ) : Except Stop Bool :=
  if i < s.olen then (read s.ora i).map (· == key) else .ok false

def contains (s : Ora) (key : ℤ) : Except Stop Bool := do
  let i ← s.lower key
  s.hit i key

def insert (s : Ora) (key : ℤ) : Except Stop (Bool × Ora) := do
  let i ← s.lower key
  if ← s.hit i key then
    return (false, s)
  let ora ← shiftUp s.ora i s.olen
  let ora ← assign ora i key
  return (true, ⟨ora, s.olen + 1⟩)

/-- `i == olen || ora[i] != key` -/
def miss (s : Ora) (i : ℕ) (key : ℤ) : Except Stop Bool :=
  if i = s.olen then .ok true else (read s.ora i).map (· != key)

def remove (s : Ora) (key : ℤ) : Except Stop (Bool × Ora) := do
  let i ← s.lower key
  if ← s.miss i key then
    return (false, s)
  let ora ← shiftDown s.ora i s.olen
  return (true, ⟨ora, s.olen - 1⟩)

end Ora

inductive Op
  | insert (key : ℤ)
  | remove (key : ℤ)
  | contains (key : ℤ)

def Ora.exec (s : Ora) : Op → Except Stop (Bool × Ora)
  | .insert key => s.insert key
  | .remove key => s.remove key
  | .contains key => (s.contains key).map (fun b ↦ (b, s))

/-- The answers, each with the part of the array in use after it. -/
def Ora.trace (s : Ora) : List Op → Except Stop (List (Bool × List ℤ))
  | [] => .ok []
  | op :: ops => do
    let (answer, s) ← s.exec op
    return (answer, s.ora.take s.olen) :: (← s.trace ops)

/-- A set of at most `cap` keys. Only a new key for a full set has no answer. -/
def setExec (cap : ℕ) (S : Finset ℤ) : Op → Except Stop (Bool × Finset ℤ)
  | .insert key =>
    if key ∈ S then .ok (false, S)
    else if S.card = cap then .error (.store cap) else .ok (true, insert key S)
  | .remove key => .ok (decide (key ∈ S), S.erase key)
  | .contains key => .ok (decide (key ∈ S), S)

def setTrace (cap : ℕ) (S : Finset ℤ) : List Op → Except Stop (List (Bool × List ℤ))
  | [] => .ok []
  | op :: ops => do
    let (answer, S) ← setExec cap S op
    return (answer, inOrder S) :: (← setTrace cap S ops)

variable {cap : ℕ} {l pre post : List ℤ} {s : Ora} {S : Finset ℤ} {key : ℤ}

/-- The part of the array in use is the list `l` of the keys in order. -/
structure Keeps (cap : ℕ) (l : List ℤ) (s : Ora) : Prop where
  size : s.ora.length = cap
  used : l <+: s.ora
  olen : s.olen = l.length
  sorted : l.Pairwise (· < ·)

theorem Keeps.lower (h : Keeps cap l s) (key : ℤ) :
    ∃ pre post, s.lower key = .ok pre.length ∧ Place l key pre post := by
  obtain ⟨post, hplace⟩ := place h.sorted key
  refine ⟨_, post, ?_, hplace⟩
  rw [Ora.lower, h.olen]
  exact advance_eq h.used

theorem Keeps.hit (h : Keeps cap l s) (hplace : Place l key pre post) :
    s.hit pre.length key = .ok (decide (key ∈ l)) := by
  have hiff := hplace.mem_iff h.sorted
  rw [Ora.hit, h.olen]
  split_ifs with hlt
  · rw [read_within h.used hlt]
    rw [List.getElem?_eq_getElem hlt, Option.some_inj] at hiff
    exact congrArg Except.ok (decide_eq_decide.mpr hiff.symm)
  · rw [List.getElem?_eq_none (Nat.le_of_not_lt hlt)] at hiff
    rw [decide_eq_false (fun hmem ↦ absurd (hiff.mp hmem) (by simp))]

theorem Keeps.miss (h : Keeps cap l s) (hplace : Place l key pre post) :
    s.miss pre.length key = .ok (decide (key ∉ l)) := by
  have hle : pre.length ≤ l.length := by
    rw [hplace.split, List.length_append]
    omega
  have hhit := h.hit hplace
  rw [Ora.hit, h.olen] at hhit
  rw [Ora.miss, h.olen]
  split_ifs with heq
  · rw [if_neg (by omega)] at hhit
    have hnot := of_decide_eq_false (Except.ok.inj hhit).symm
    rw [decide_eq_true hnot]
  · have hlt : pre.length < l.length := by omega
    rw [if_pos hlt, read_within h.used hlt] at hhit
    rw [read_within h.used hlt]
    have hsame : (l[pre.length] == key) = decide (key ∈ l) := Except.ok.inj hhit
    exact congrArg Except.ok ((congrArg not hsame).trans decide_not.symm)

theorem Keeps.insert (h : Keeps cap l s) (key : ℤ) :
    (∃ s' l', s.insert key = .ok (decide (key ∉ l), s') ∧ Keeps cap l' s' ∧
      l'.toFinset = insert key l.toFinset ∧ (key ∈ l ∨ l.length ≠ cap)) ∨
      s.insert key = .error (.store cap) ∧ key ∉ l ∧ l.length = cap := by
  obtain ⟨pre, post, hrun, hplace⟩ := h.lower key
  have hle : pre.length ≤ l.length := by
    rw [hplace.split, List.length_append]
    omega
  have hused := h.used.length_le
  rw [h.size] at hused
  rw [Ora.insert, hrun, ok_bind, h.hit hplace, ok_bind]
  by_cases hmem : key ∈ l
  · refine .inl ⟨s, l, ?_, h, ?_, .inl hmem⟩
    · rw [decide_eq_true hmem, decide_eq_false (not_not_intro hmem)]
      rfl
    · rw [Finset.insert_eq_of_mem (List.mem_toFinset.mpr hmem)]
  · rw [decide_eq_false hmem, if_neg (by simp)]
    rcases Nat.lt_or_ge l.length cap with hroom | hfull
    · obtain ⟨ora, hora, hsize, hl'⟩ :=
        shiftUp_insert h.used hle (by rwa [h.size]) key
      obtain ⟨hsorted, hset⟩ := hplace.insert h.sorted hmem
      refine .inl ⟨⟨ora, s.olen + 1⟩, l.insertIdx pre.length key, ?_,
        ⟨hsize.trans h.size, hl', ?_, hsorted⟩, hset, .inr (Nat.ne_of_lt hroom)⟩
      · rw [decide_eq_true hmem, h.olen]
        cases hshift : shiftUp s.ora pre.length l.length with
        | error e =>
          rw [hshift] at hora
          cases hora
        | ok a =>
          rw [hshift] at hora
          rw [ok_bind]
          dsimp only [Except.bind] at hora
          rw [hora]
          rfl
      · rw [List.length_insertIdx_of_le_length hle]
        exact congrArg (· + 1) h.olen
    · refine .inr ⟨?_, hmem, by omega⟩
      have hcap : l.length = cap := by omega
      rw [h.olen, hcap]
      rcases Nat.lt_or_ge pre.length cap with hlt | hge
      · rw [shiftUp_full hlt h.size.symm]
        rfl
      · have hpre : pre.length = cap := by omega
        have hshift : shiftUp s.ora pre.length cap = .ok s.ora := by
          rw [shiftUp, forDown]
          exact forRange_empty (by omega)
        rw [hshift, ok_bind, assign, if_neg (by rw [h.size]; omega), hpre]
        rfl

theorem Keeps.remove (h : Keeps cap l s) (key : ℤ) :
    ∃ s' l', s.remove key = .ok (decide (key ∈ l), s') ∧ Keeps cap l' s' ∧
      l'.toFinset = l.toFinset.erase key := by
  obtain ⟨pre, post, hrun, hplace⟩ := h.lower key
  rw [Ora.remove, hrun, ok_bind, h.miss hplace, ok_bind]
  by_cases hmem : key ∈ l
  · obtain ⟨ora, hora, hsize, hl'⟩ := shiftDown_erase h.used pre.length
    obtain ⟨hsorted, hset⟩ := hplace.erase h.sorted hmem
    obtain ⟨hlt, -⟩ := List.getElem?_eq_some_iff.mp ((hplace.mem_iff h.sorted).mp hmem)
    refine ⟨⟨ora, s.olen - 1⟩, l.eraseIdx pre.length, ?_,
      ⟨hsize.trans h.size, hl', ?_, hsorted⟩, hset⟩
    · rw [decide_eq_false (not_not_intro hmem), if_neg (by simp), h.olen, hora,
        decide_eq_true hmem]
      rfl
    · rw [List.length_eraseIdx_of_lt hlt]
      exact congrArg (· - 1) h.olen
  · refine ⟨s, l, ?_, h, ?_⟩
    · rw [decide_eq_true hmem, decide_eq_false hmem]
      rfl
    · rw [Finset.erase_eq_of_notMem (fun h ↦ hmem (List.mem_toFinset.mp h))]

theorem Keeps.take (h : Keeps cap l s) : s.ora.take s.olen = inOrder l.toFinset := by
  rw [inOrder_toFinset h.sorted, h.olen]
  exact (List.prefix_iff_eq_take.mp h.used).symm

theorem Keeps.card (h : Keeps cap l s) : l.toFinset.card = l.length :=
  List.toFinset_card_of_nodup (h.sorted.imp ne_of_lt)

theorem Keeps.exec (h : Keeps cap l s) (op : Op) :
    (∃ answer s' l', s.exec op = .ok (answer, s') ∧ Keeps cap l' s' ∧
      setExec cap l.toFinset op = .ok (answer, l'.toFinset)) ∨
      s.exec op = .error (.store cap) ∧ setExec cap l.toFinset op = .error (.store cap) := by
  cases op with
  | insert key =>
    rcases h.insert key with ⟨s', l', hrun, hkeeps, hset, hroom⟩ | ⟨hrun, hnot, hfull⟩
    · refine .inl ⟨_, s', l', hrun, hkeeps, ?_⟩
      rw [setExec, hset, h.card]
      by_cases hmem : key ∈ l
      · rw [if_pos (List.mem_toFinset.mpr hmem), decide_eq_false (not_not_intro hmem),
          Finset.insert_eq_of_mem (List.mem_toFinset.mpr hmem)]
      · rw [if_neg (fun hm ↦ hmem (List.mem_toFinset.mp hm)), if_neg (hroom.resolve_left hmem),
          decide_eq_true hmem]
    · refine .inr ⟨hrun, ?_⟩
      rw [setExec, if_neg (fun hm ↦ hnot (List.mem_toFinset.mp hm)), h.card, if_pos hfull]
  | remove key =>
    obtain ⟨s', l', hrun, hkeeps, hset⟩ := h.remove key
    refine .inl ⟨_, s', l', hrun, hkeeps, ?_⟩
    rw [setExec, hset, decide_eq_decide.mpr List.mem_toFinset]
  | contains key =>
    obtain ⟨pre, post, hrun, hplace⟩ := h.lower key
    refine .inl ⟨decide (key ∈ l), s, l, ?_, h, ?_⟩
    · rw [Ora.exec, Ora.contains, hrun, ok_bind, h.hit hplace]
      rfl
    · rw [setExec, decide_eq_decide.mpr List.mem_toFinset]

theorem Keeps.trace (h : Keeps cap l s) (ops : List Op) :
    s.trace ops = setTrace cap l.toFinset ops := by
  induction ops generalizing l s with
  | nil => rfl
  | cons op ops ih =>
    rw [Ora.trace, setTrace]
    rcases h.exec op with ⟨answer, s', l', hrun, hkeeps, hset⟩ | ⟨hrun, hset⟩
    · rw [hrun, hset, ok_bind, ok_bind]
      dsimp only
      rw [ih hkeeps, hkeeps.take]
    · rw [hrun, hset]
      rfl

/-- The sorted array is a finite set over every run: it gives the answers of
the set and holds its keys in order. It writes past its end exactly when a new
key comes to a full set. -/
theorem sorted_array_is_set (cap : ℕ) (ops : List Op) :
    (Ora.mk (List.replicate cap 0) 0).trace ops = setTrace cap ∅ ops :=
  Keeps.trace ⟨List.length_replicate, List.nil_prefix, rfl, List.Pairwise.nil⟩ ops

end LowLevel.ProperDS.SetOracle
