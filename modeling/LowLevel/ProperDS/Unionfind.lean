import LowLevel.Basis.CArith
import LowLevel.Basis.Classes
import LowLevel.Basis.StaticArray

namespace LowLevel.ProperDS.Unionfind

open Basis.AddressSpace Basis.CArith Basis.Classes Basis.Loop Basis.StaticArray

/-- The oracle of the differential test, with `on` for `ON`. -/
def oraInit (on : ℕ) (label : List Int32) : Except Fault (List Int32) :=
  forInt (fun i label ↦ do assign label i (← int32 i)) on label

def relabelPass (old new : Int32) (i : ℕ) (label : List Int32) : Except Fault (List Int32) := do
  if (← read label i) = old then
    return ← assign label i new
  return label

def oraUnion (on a b : ℕ) (label : List Int32) : Except Fault (Bool × List Int32) := do
  if (← read label a) = (← read label b) then
    return (false, label)
  let old ← read label b
  let new ← read label a
  let label ← forInt (relabelPass old new) on label
  return (true, label)

/-- A label counts where the scan of the cells before it does not find it. -/
def countPass (label : List Int32) (i : ℕ) (c : Int32) : Except Fault Int32 := do
  let li ← read label i
  if (← scan (· == li) label i).isNone then
    return ← int32 (c.toInt + 1)
  return c

def oraCount (on : ℕ) (label : List Int32) : Except Fault Int32 := forInt (countPass label) on 0

inductive Op (on : ℕ)
  | union (a b : Fin on)
  | connected (a b : Fin on)

variable {on : ℕ}

def exec (label : List Int32) : Op on → Except Fault (Bool × List Int32)
  | .union a b => oraUnion on a b label
  | .connected a b => do return (decide ((← read label a) = (← read label b)), label)

/-- The answer to each operation, and the count after it. -/
def trace (label : List Int32) : List (Op on) → Except Fault (List (Bool × Int32))
  | [] => .ok []
  | op :: ops => do
    let (answer, label) ← exec label op
    let count ← oraCount on label
    return (answer, count) :: (← trace label ops)

/-- What the answers should be, after the pairs joined so far. -/
inductive Agrees : List (Fin on × Fin on) → List (Op on) → List (Bool × Int32) → Prop
  | nil (pairs : List (Fin on × Fin on)) : Agrees pairs [] []
  | union {pairs : List (Fin on × Fin on)} {a b : Fin on} {ops : List (Op on)} {answer : Bool}
      {count : Int32} {rest : List (Bool × Int32)} :
      (answer = true ↔ ¬ Joined pairs a b) →
      count.toInt = Nat.card (Quotient (Joined ((a, b) :: pairs))) →
      Agrees ((a, b) :: pairs) ops rest → Agrees pairs (.union a b :: ops) ((answer, count) :: rest)
  | connected {pairs : List (Fin on × Fin on)} {a b : Fin on} {ops : List (Op on)} {answer : Bool}
      {count : Int32} {rest : List (Bool × Int32)} :
      (answer = true ↔ Joined pairs a b) → count.toInt = Nat.card (Quotient (Joined pairs)) →
      Agrees pairs ops rest → Agrees pairs (.connected a b :: ops) ((answer, count) :: rest)

variable {f : Fin on → Int32} {pairs : List (Fin on × Fin on)} {a b : Fin on}

theorem read_ofFn (f : Fin on → Int32) (i : Fin on) :
    (read (List.ofFn f) i : Except Fault Int32) = .ok (f i) :=
  lift_ok (read_eq (by rw [List.getElem?_ofFn, dif_pos i.isLt]))

/-- The label of a cell before any union. -/
def own (on : ℕ) (i : Fin on) : Int32 := Int32.ofInt i

theorem own_toInt (hon : on < 2 ^ 31) (i : Fin on) : (own on i).toInt = i := by
  have hi := i.isLt
  exact Int32.toInt_ofInt_of_le (by omega) (by omega)

theorem own_injective (hon : on < 2 ^ 31) : Function.Injective (own on) := by
  intro i j heq
  have hval := own_toInt hon i
  rw [heq, own_toInt hon j] at hval
  exact Fin.val_injective (by omega)

theorem oraInit_eq (hon : on < 2 ^ 31) (label : List Int32) (hlen : label.length = on) :
    oraInit on label = .ok (List.ofFn (own on)) := by
  have hloop : ∃ label', oraInit on label = .ok label' ∧
      label'.length = on ∧ ∀ j < on, label'[j]? = some (Int32.ofInt j) := by
    rw [oraInit, forInt_eq _ hon]
    refine forRange_ok (fun i (l : List Int32) ↦ l.length = on ∧
      ∀ j < i, l[j]? = some (Int32.ofInt j)) (Nat.zero_le on)
      ⟨hlen, fun j hj ↦ absurd hj (Nat.not_lt_zero j)⟩ ?_
    intro i _ hi l hl
    have hfits : Fits 32 i := by
      unfold Fits
      omega
    refine ⟨l.set i (Int32.ofInt i), ?_, by rw [List.length_set, hl.1], fun j hj ↦ ?_⟩
    · rw [int32, if_pos hfits, ok_bind]
      exact lift_ok (assign_eq (by omega) _)
    · rcases Nat.lt_succ_iff_lt_or_eq.mp hj with hlt | rfl
      · rw [List.getElem?_set_ne (by omega), hl.2 j hlt]
      · rw [List.getElem?_set_self (by omega)]
  obtain ⟨label', hrun, hlen', hcells⟩ := hloop
  rw [hrun]
  congr 1
  apply List.ext_getElem?
  intro j
  rw [List.getElem?_ofFn]
  split_ifs with hj
  · exact hcells j hj
  · exact List.getElem?_eq_none (by omega)

theorem relabelPass_eq (old new : Int32) (i : ℕ) (label : List Int32) (v : Int32)
    (hv : label[i]? = some v) :
    relabelPass old new i label = .ok (label.set i (if v = old then new else v)) := by
  obtain ⟨hi, hget⟩ := List.getElem?_eq_some_iff.mp hv
  rw [relabelPass, lift_ok (read_eq hv), ok_bind]
  split_ifs
  · rw [lift_ok (assign_eq hi new)]
  · rw [← hget, List.set_getElem_self]
    rfl

theorem oraUnion_eq (hon : on < 2 ^ 31) (f : Fin on → Int32) (a b : Fin on) :
    oraUnion on a b (List.ofFn f) = .ok (decide (f a ≠ f b), List.ofFn (relabel f a b)) := by
  rw [oraUnion, read_ofFn, ok_bind, read_ofFn, ok_bind]
  by_cases heq : f a = f b
  · rw [if_pos heq, relabel_of_eq heq, decide_eq_false (not_not_intro heq)]
    rfl
  · have hloop := forRange_map _ (relabelPass_eq (f b) (f a)) (List.ofFn f)
    rw [List.length_ofFn, List.map_ofFn] at hloop
    rw [if_neg heq, ok_bind, ok_bind, forInt_eq _ hon, hloop, decide_eq_true heq]
    rfl

theorem countPass_eq (label : List Int32) (i : ℕ) (c : Int32) (hi : i < label.length) :
    countPass label i c =
      if label[i] ∈ label.take i then .ok c else int32 (c.toInt + 1) := by
  have hscan := scan_eq (p := (· == label[i])) (List.take_prefix i label)
  rw [List.length_take, Nat.min_eq_left (Nat.le_of_lt hi)] at hscan
  rw [countPass, lift_ok (read_lt hi), ok_bind, lift_ok hscan, ok_bind]
  have hnone : ((label.take i).findIdx? (· == label[i])).isNone = true ↔
      label[i] ∉ label.take i := by
    rw [Option.isNone_iff_eq_none, List.findIdx?_eq_none_iff]
    simp only [beq_eq_false_iff_ne]
    exact ⟨fun h hmem ↦ h _ hmem rfl, fun h x hx heq ↦ h (heq ▸ hx)⟩
  by_cases hmem : label[i] ∈ label.take i
  · rw [if_pos hmem, if_neg (fun h ↦ hnone.mp h hmem)]
    rfl
  · rw [if_neg hmem, if_pos (hnone.mpr hmem)]

theorem oraCount_eq (label : List Int32) (hlen : label.length < 2 ^ 31) :
    ∃ c, oraCount label.length label = .ok c ∧ c.toInt = label.toFinset.card := by
  have hloop : ∃ c, oraCount label.length label = .ok c ∧
      c.toInt = (label.take label.length).toFinset.card := by
    rw [oraCount, forInt_eq _ hlen]
    refine forRange_ok (fun i (c : Int32) ↦ c.toInt = (label.take i).toFinset.card)
      (Nat.zero_le _) rfl ?_
    intro i _ hi c hc
    have hle := (label.take i).toFinset_card_le
    rw [List.length_take] at hle
    rw [countPass_eq label i c hi, ← List.take_append_getElem hi, List.toFinset_append,
      List.toFinset_cons, List.toFinset_nil, Finset.union_comm, LawfulSingleton.insert_empty_eq,
      ← Finset.insert_eq]
    split_ifs with hmem
    · rw [Finset.insert_eq_of_mem (List.mem_toFinset.mpr hmem)]
      exact ⟨c, rfl, hc⟩
    · rw [Finset.card_insert_of_notMem (fun h ↦ hmem (List.mem_toFinset.mp h)), Nat.cast_add,
        ← hc]
      exact int32_of_fits (by unfold Fits; omega)
  rwa [List.take_length] at hloop

theorem oraCount_classes (hon : on < 2 ^ 31) (h : Labels f pairs) :
    ∃ c, oraCount on (List.ofFn f) = .ok c ∧
      c.toInt = Nat.card (Quotient (Joined pairs)) := by
  have hcount := oraCount_eq (List.ofFn f)
  have hrange : ((List.ofFn f).toFinset : Set Int32) = Set.range f := by
    ext v
    rw [List.coe_toFinset, Set.mem_ofPred_eq, List.mem_ofFn']
  rw [List.length_ofFn] at hcount
  rw [h.card, ← hrange, Set.ncard_coe_finset]
  exact hcount hon

theorem trace_agrees (hon : on < 2 ^ 31) (h : Labels f pairs) (ops : List (Op on)) :
    ∃ answers, trace (List.ofFn f) ops = .ok answers ∧ Agrees pairs ops answers := by
  induction ops generalizing f pairs with
  | nil => exact ⟨[], rfl, .nil pairs⟩
  | cons op ops ih =>
    rw [trace]
    cases op with
    | union a b =>
      have hnext : Labels (relabel f a b) ((a, b) :: pairs) := h.relabel a b
      obtain ⟨c, hrun, hcard⟩ := oraCount_classes hon hnext
      obtain ⟨rest, hrest, hagrees⟩ := ih hnext
      refine ⟨(decide (f a ≠ f b), c) :: rest, ?_, .union ?_ hcard hagrees⟩
      · rw [exec, oraUnion_eq hon, ok_bind]
        dsimp only
        rw [hrun, ok_bind, hrest]
        rfl
      · rw [decide_eq_true_iff, Ne, h a b]
    | connected a b =>
      obtain ⟨c, hrun, hcard⟩ := oraCount_classes hon h
      obtain ⟨rest, hrest, hagrees⟩ := ih h
      refine ⟨(decide (f a = f b), c) :: rest, ?_, .connected ?_ hcard hagrees⟩
      · rw [exec, read_ofFn, ok_bind, read_ofFn, ok_bind]
        dsimp only [Pure.pure, Except.pure]
        rw [ok_bind]
        dsimp only
        rw [hrun, ok_bind, hrest]
        rfl
      · rw [decide_eq_true_iff, h a b]

/-- Over every sequence of operations the oracle joins classes as the closure
of the pairs does: a union answers whether two classes became one, and the
count is that of the classes. -/
theorem labels_track_classes (on : ℕ) (hon : on < 2 ^ 31) (ops : List (Op on)) :
    ∃ answers, (oraInit on (List.replicate on 0)).bind (fun label ↦ trace label ops) =
      .ok answers ∧ Agrees [] ops answers := by
  rw [oraInit_eq hon _ List.length_replicate]
  exact trace_agrees hon (labels_nil (own_injective hon)) ops

def sampleOps : List (Op 64) := [.union 3 5, .connected 5 3, .union 63 0]

theorem labels_track_sample :
    ∃ answers, (oraInit 64 (List.replicate 64 0)).bind (fun label ↦ trace label sampleOps) =
      .ok answers ∧ Agrees [] sampleOps answers := labels_track_classes 64 (by decide) sampleOps

end LowLevel.ProperDS.Unionfind
