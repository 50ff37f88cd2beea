import LowLevel.Basis.CArith
import LowLevel.Basis.PointerChain
import LowLevel.Basis.StaticArray
import LowLevel.ProperMachine.BenchRng
import Mathlib.Algebra.GroupWithZero.Nat
import Mathlib.Algebra.Ring.Int.Defs

namespace LowLevel.ProperMachine.Bench

open Function Basis.AddressSpace Basis.CArith Basis.Loop Basis.PointerChain Basis.StaticArray
open BenchRng

inductive Halt
  | fault (f : Fault)
  | division
  | exit (code : ℕ)

instance : MonadLift (Except Fault) (Except Halt) := ⟨Except.mapError .fault⟩

instance : MonadLift (Except Stop) (Except Halt) := ⟨Except.mapError (fun s ↦ .fault (.memory s))⟩

structure Node where
  value : Int64
  next : ℕ

def xmalloc (m : Memory Node) (answer : ℕ) (junk : Node) : Except Halt (ℕ × Memory Node) :=
  if h : m.Fresh answer then .ok (answer, m.allocate answer junk h) else .error (.exit 1)

/-- `i & 0xFF` -/
def lowByte (i : ℕ) : Int64 := Int64.ofNat (i &&& 0xFF)

def fillPass (i : ℕ) (arr : List Int64) : Except Halt (List Int64) := do
  assign arr i (lowByte i)

structure Building where
  nodes : List ℕ
  mem : Memory Node

def Building.pass (answers : ℕ → ℕ) (junk : ℕ → Node) (i : ℕ) (s : Building) :
    Except Halt Building := do
  let (p, m) ← xmalloc s.mem (answers i) (junk i)
  let nodes ← assign s.nodes i p
  let m ← m.modify (← read nodes i) (fun v ↦ { v with value := lowByte i })
  return ⟨nodes, m⟩

structure Shuffling where
  rng : UInt32
  nodes : List ℕ

def Shuffling.pass (i : ℕ) (s : Shuffling) : Except Halt Shuffling := do
  let rng := rngNext s.rng
  let divisor := UInt32.ofNat (i + 1)
  if divisor = 0 then
    throw .division
  let j := (rng % divisor).toNat
  let tmp ← read s.nodes i
  let nodes ← assign s.nodes i (← read s.nodes j)
  let nodes ← assign nodes j tmp
  return ⟨rng, nodes⟩

def linkPass (nodes : List ℕ) (i : ℕ) (m : Memory Node) : Except Halt (Memory Node) := do
  let next ← read nodes (i + 1)
  m.modify (← read nodes i) (fun v ↦ { v with next := next })

def sumArray (arr : List Int64) (n : ℕ) (sum : Int64) : Except Halt Int64 :=
  forRange (fun i sum ↦ do int64 (sum.toInt + (← read arr i).toInt)) 0 n sum

structure Walking where
  sum : Int64
  p : ℕ

def Walking.pass (m : Memory Node) (s : Walking) : Except Halt Walking := do
  let sum ← int64 (s.sum.toInt + (← m.load s.p).value.toInt)
  return ⟨sum, (← m.load s.p).next⟩

def sumList (fuel : ℕ) (m : Memory Node) (head : ℕ) (sum : Int64) : Except Halt Int64 :=
  (whileFuel (.fault (.memory .timeout)) (fun s : Walking ↦ s.p != 0) (Walking.pass m) fuel
    ⟨sum, head⟩).map Walking.sum

def freePass (nodes : List ℕ) (i : ℕ) (m : Memory Node) : Except Halt (Memory Node) := do
  m.release (← read nodes i)

structure Outcome where
  sumArr : Int64
  sumList : Int64
  warm : Int64
  mem : Memory Node

/-- `bench_array_vs_list`, with `n` for `LIST_N`, from where it has the two
arrays with whatever they hold. -/
def benchArrayVsList (fuel n : ℕ) (answers : ℕ → ℕ) (junk : ℕ → Node) (rng : UInt32)
    (arr : List Int64) (nodes : List ℕ) (m : Memory Node) : Except Halt Outcome := do
  let arr ← forRange fillPass 0 n arr
  let built ← forRange (Building.pass answers junk) 0 n ⟨nodes, m⟩
  let shuffled ← forDown Shuffling.pass (n - 1) 0 ⟨rng, built.nodes⟩
  let nodes := shuffled.nodes
  let m ← forRange (linkPass nodes) 0 (n - 1) built.mem
  let m ← m.modify (← read nodes (n - 1)) (fun v ↦ { v with next := 0 })
  let head ← read nodes 0
  let warm ← sumArray arr n 0
  let warm ← sumList fuel m head warm
  let sumArr ← sumArray arr n 0
  let sumList ← sumList fuel m head 0
  let m ← forRange (freePass nodes) 0 n m
  return ⟨sumArr, sumList, warm, m⟩

variable {n i fuel : ℕ} {answers : ℕ → ℕ} {junk : ℕ → Node} {m₀ m : Memory Node}
  {ps ps' : List ℕ} {val : ℕ → Int64}

theorem liftStop_ok {α : Type} {run : Except Stop α} {v : α} (h : run = .ok v) :
    (liftM run : Except Halt α) = .ok v := by
  rw [h]
  rfl

theorem liftFault_ok {α : Type} {run : Except Fault α} {v : α} (h : run = .ok v) :
    (liftM run : Except Halt α) = .ok v := by
  rw [h]
  rfl

theorem toInt_lowByte (i : ℕ) : (lowByte i).toInt = (i % 256 : ℕ) := by
  have hmod : i &&& 0xFF = i % 256 := Nat.and_two_pow_sub_one_eq_mod i 8
  rw [lowByte, hmod, Int64.toInt_ofNat_of_lt (by omega)]

/-- All the nodes get an address of their own. -/
def Allocates (m : Memory Node) (answers : ℕ → ℕ) (n : ℕ) : Prop :=
  (∀ j < n, m.Fresh (answers j)) ∧ ∀ j < n, ∀ k < n, answers j = answers k → j = k

theorem Allocates.succ (h : Allocates m answers i) (hfresh : m.Fresh (answers i))
    (hnew : ∀ j < i, answers i ≠ answers j) : Allocates m answers (i + 1) := by
  constructor
  · intro j hj
    rcases Nat.lt_succ_iff_lt_or_eq.mp hj with hlt | rfl
    · exact h.1 j hlt
    · exact hfresh
  · intro j hj k hk heq
    rcases Nat.lt_succ_iff_lt_or_eq.mp hj with hj | rfl
    · rcases Nat.lt_succ_iff_lt_or_eq.mp hk with hk | rfl
      · exact h.2 j hj k hk heq
      · exact absurd heq.symm (hnew j hj)
    · rcases Nat.lt_succ_iff_lt_or_eq.mp hk with hk | rfl
      · exact absurd heq (hnew k hk)
      · rfl

structure Filled (m₀ : Memory Node) (answers : ℕ → ℕ) (n i : ℕ) (s : Building) : Prop where
  length : s.nodes.length = n
  nodes : ∀ j < i, s.nodes[j]? = some (answers j)
  allocates : Allocates m₀ answers i
  cells : ∀ j < i, ∃ next, s.mem.cell (answers j) = some ⟨lowByte j, next⟩
  frame : ∀ a, (∀ j < i, a ≠ answers j) → s.mem.cell a = m₀.cell a

theorem Filled.fresh {s : Building} (h : Filled m₀ answers n i s) (hi : i < n)
    (hall : Allocates m₀ answers n) : s.mem.Fresh (answers i) := by
  have hfresh := hall.1 i hi
  refine ⟨hfresh.1, hfresh.2.1, ?_⟩
  rw [h.frame, hfresh.2.2]
  intro j hj heq
  exact absurd (hall.2 i hi j (Nat.lt_trans hj hi) heq) (Nat.ne_of_gt hj)

theorem Filled.pass {s : Building} (h : Filled m₀ answers n i s) (hi : i < n) :
    (∃ s', s.pass answers junk i = .ok s' ∧ Filled m₀ answers n (i + 1) s') ∨
      ∃ e, s.pass answers junk i = .error e ∧ e = .exit 1 ∧ ¬ Allocates m₀ answers n := by
  rw [Building.pass, xmalloc]
  by_cases hfresh : s.mem.Fresh (answers i)
  · have hnone : s.mem.cell (answers i) = none := hfresh.2.2
    have hnew : ∀ j < i, answers i ≠ answers j := by
      intro j hj heq
      obtain ⟨next, hcell⟩ := h.cells j hj
      rw [← heq, hnone] at hcell
      cases hcell
    have hnodes : i < s.nodes.length := by rw [h.length]; exact hi
    have hread : read (s.nodes.set i (answers i)) i = .ok (answers i) :=
      read_eq (List.getElem?_set_self hnodes)
    have hjunk : (s.mem.allocate (answers i) (junk i) hfresh).cell (answers i) = some (junk i) :=
      update_self ..
    obtain ⟨m', hmodify, hcell⟩ := Memory.modify_spec hjunk (fun v ↦ { v with value := lowByte i })
    rw [Memory.allocate_cell, update_idem] at hcell
    refine .inl ⟨⟨s.nodes.set i (answers i), m'⟩, ?_, List.length_set.trans h.length, ?_, ?_, ?_,
      ?_⟩
    · rw [dif_pos hfresh, ok_bind]
      dsimp only
      rw [liftStop_ok (assign_eq hnodes _), ok_bind, liftStop_ok hread, ok_bind,
        liftStop_ok hmodify, ok_bind]
      rfl
    · intro j hj
      rcases Nat.lt_succ_iff_lt_or_eq.mp hj with hlt | rfl
      · rw [List.getElem?_set_ne (Nat.ne_of_gt hlt), h.nodes j hlt]
      · exact List.getElem?_set_self hnodes
    · refine h.allocates.succ ⟨hfresh.1, hfresh.2.1, ?_⟩ hnew
      rw [← h.frame _ hnew, hnone]
    · intro j hj
      rcases Nat.lt_succ_iff_lt_or_eq.mp hj with hlt | rfl
      · rw [hcell, update_of_ne (hnew j hlt).symm]
        exact h.cells j hlt
      · exact ⟨(junk j).next, by rw [hcell, update_self]⟩
    · intro a ha
      rw [hcell, update_of_ne (ha i (Nat.lt_succ_self i))]
      exact h.frame a (fun j hj ↦ ha j (Nat.lt_succ_of_lt hj))
  · exact .inr ⟨.exit 1, by rw [dif_neg hfresh]; rfl, rfl, fun hall ↦ hfresh (h.fresh hi hall)⟩

/-- The nodes of the list are `ps`, in some order, with their values. The rest
of the memory is that of `m₀`. -/
structure Built (m₀ : Memory Node) (val : ℕ → Int64) (ps : List ℕ) (m : Memory Node) : Prop where
  nodup : ps.Nodup
  fresh : ∀ p ∈ ps, m₀.cell p = none
  cells : ∀ p ∈ ps, ∃ next, m.cell p = some ⟨val p, next⟩
  frame : ∀ a, a ∉ ps → m.cell a = m₀.cell a

theorem Built.perm (h : Built m₀ val ps m) (hperm : ps'.Perm ps) : Built m₀ val ps' m where
  nodup := hperm.nodup_iff.mpr h.nodup
  fresh p hp := h.fresh p (hperm.mem_iff.mp hp)
  cells p hp := h.cells p (hperm.mem_iff.mp hp)
  frame a ha := h.frame a (fun hmem ↦ ha (hperm.mem_iff.mpr hmem))

/-- A change of a link. -/
theorem Built.relink {m' : Memory Node} {p next : ℕ} (h : Built m₀ val ps m) (hp : p ∈ ps)
    (hcell : m'.cell = update m.cell p (some ⟨val p, next⟩)) : Built m₀ val ps m' where
  nodup := h.nodup
  fresh := h.fresh
  cells q hq := by
    rcases eq_or_ne q p with rfl | hne
    · exact ⟨next, by rw [hcell, update_self]⟩
    · rw [hcell, update_of_ne hne]
      exact h.cells q hq
  frame a ha := by
    have hne : a ≠ p := fun heq ↦ ha (heq ▸ hp)
    rw [hcell, update_of_ne hne, h.frame a ha]

theorem Filled.built {s : Building} (h : Filled m₀ answers n n s) :
    ∃ val, Built m₀ val s.nodes s.mem ∧ s.nodes.map val = (List.range n).map lowByte := by
  have hnodes : s.nodes = (List.range n).map answers := by
    apply List.ext_getElem?
    intro j
    rw [List.getElem?_map]
    rcases Nat.lt_or_ge j n with hj | hj
    · rw [h.nodes j hj, List.getElem?_range hj, Option.map_some]
    · rw [List.getElem?_eq_none (by rw [h.length]; exact hj),
        List.getElem?_eq_none (by rw [List.length_range]; exact hj), Option.map_none]
  have hval : ∀ j < n, ((s.mem.cell (answers j)).map Node.value).getD 0 = lowByte j := by
    intro j hj
    obtain ⟨next, hcell⟩ := h.cells j hj
    rw [hcell]
    rfl
  have hmem : ∀ p ∈ s.nodes, ∃ j < n, answers j = p := by
    intro p hp
    rw [hnodes, List.mem_map] at hp
    obtain ⟨j, hj, hp⟩ := hp
    exact ⟨j, List.mem_range.mp hj, hp⟩
  refine ⟨fun p ↦ ((s.mem.cell p).map Node.value).getD 0, ⟨?_, ?_, ?_, ?_⟩, ?_⟩
  · rw [hnodes, List.nodup_map_iff_inj_on List.nodup_range]
    exact fun j hj k hk ↦ h.allocates.2 j (List.mem_range.mp hj) k (List.mem_range.mp hk)
  · intro p hp
    obtain ⟨j, hj, rfl⟩ := hmem p hp
    exact (h.allocates.1 j hj).2.2
  · intro p hp
    obtain ⟨j, hj, rfl⟩ := hmem p hp
    obtain ⟨next, hcell⟩ := h.cells j hj
    exact ⟨next, by rw [hcell]; rfl⟩
  · intro a ha
    refine h.frame a (fun j hj heq ↦ ha ?_)
    rw [hnodes, heq]
    exact List.mem_map_of_mem (List.mem_range.mpr hj)
  · rw [hnodes, List.map_map]
    exact List.map_congr_left (fun j hj ↦ hval j (List.mem_range.mp hj))

theorem Shuffling.pass_perm {s : Shuffling} (hperm : s.nodes.Perm ps) (hi : i < ps.length)
    (hlen : ps.length < 2 ^ 31) :
    ∃ s', s.pass i = .ok s' ∧ s'.nodes.Perm ps := by
  have hlength := hperm.length_eq
  have hdivisor : (UInt32.ofNat (i + 1)).toNat = i + 1 := by
    rw [UInt32.toNat_ofNat', Nat.mod_eq_of_lt (by omega)]
  have hne : UInt32.ofNat (i + 1) ≠ 0 := by
    intro hzero
    rw [hzero] at hdivisor
    cases hdivisor
  have hj : (rngNext s.rng % UInt32.ofNat (i + 1)).toNat < s.nodes.length := by
    rw [UInt32.toNat_mod, hdivisor]
    exact Nat.lt_of_lt_of_le (Nat.mod_lt _ (Nat.succ_pos i)) (by omega)
  rw [Shuffling.pass]
  dsimp only
  rw [if_neg hne]
  generalize (rngNext s.rng % UInt32.ofNat (i + 1)).toNat = j at hj ⊢
  have hi' : i < s.nodes.length := by omega
  refine ⟨⟨rngNext s.rng, (s.nodes.set i s.nodes[j]).set j s.nodes[i]⟩, ?_,
    (List.set_set_perm hi' hj).trans hperm⟩
  rw [liftStop_ok (read_lt hi'), ok_bind, liftStop_ok (read_lt hj), ok_bind,
    liftStop_ok (assign_eq hi' _), ok_bind, liftStop_ok (assign_eq (by rwa [List.length_set]) _)]
  rfl

theorem shuffle_perm (ps : List ℕ) (rng : UInt32) (hlen : ps.length < 2 ^ 31) :
    ∃ s, forDown Shuffling.pass (ps.length - 1) 0 ⟨rng, ps⟩ = .ok s ∧ s.nodes.Perm ps :=
  forDown_ok (fun _ (s : Shuffling) ↦ s.nodes.Perm ps) (Nat.zero_le _) (.refl ps)
    (fun _ _ hk _ hperm ↦ Shuffling.pass_perm hperm (by omega) hlen)

/-- The first `i` nodes are linked to their successors. -/
structure Linking (m₀ : Memory Node) (val : ℕ → Int64) (ps : List ℕ) (i : ℕ) (m : Memory Node) :
    Prop where
  built : Built m₀ val ps m
  links : ∀ j < i, ∀ p q, ps[j]? = some p → ps[j + 1]? = some q → m.cell p = some ⟨val p, q⟩

theorem Linking.pass (h : Linking m₀ val ps i m) (hi : i + 1 < ps.length) :
    ∃ m', linkPass ps i m = .ok m' ∧ Linking m₀ val ps (i + 1) m' := by
  have hi' : i < ps.length := Nat.lt_of_succ_lt hi
  obtain ⟨next, hcell⟩ := h.built.cells ps[i] (List.getElem_mem hi')
  obtain ⟨m', hmodify, hcell'⟩ := Memory.modify_spec hcell (fun v ↦ { v with next := ps[i + 1] })
  refine ⟨m', ?_, h.built.relink (List.getElem_mem hi') hcell', ?_⟩
  · rw [linkPass, liftStop_ok (read_lt hi), ok_bind, liftStop_ok (read_lt hi'), ok_bind,
      liftStop_ok hmodify]
  · intro j hj p q hp hq
    rcases Nat.lt_succ_iff_lt_or_eq.mp hj with hlt | rfl
    · have hne : p ≠ ps[i] := by
        rintro rfl
        obtain ⟨hj', hpj⟩ := List.getElem?_eq_some_iff.mp hp
        exact absurd ((h.built.nodup.getElem_inj_iff).mp hpj) (Nat.ne_of_lt hlt)
      rw [hcell', update_of_ne hne]
      exact h.links j hlt p q hp hq
    · rw [List.getElem?_eq_getElem hi', Option.some_inj] at hp
      rw [List.getElem?_eq_getElem hi, Option.some_inj] at hq
      rw [hcell', ← hp, ← hq, update_self]

/-- Linked nodes with NULL behind them. -/
theorem chain_of_links (val : ℕ → Int64) {q : ℕ} (hps : ps ≠ [])
    (hlinks : ∀ j p q, ps[j]? = some p → ps[j + 1]? = some q → m.cell p = some ⟨val p, q⟩)
    (hlast : ∀ p, ps[ps.length - 1]? = some p → m.cell p = some ⟨val p, 0⟩)
    (hhead : ps[0]? = some q) : Chain Node.next m q ps := by
  induction ps generalizing q with
  | nil => exact absurd rfl hps
  | cons p ps ih =>
    obtain rfl : p = q := by simpa using hhead
    cases ps with
    | nil => exact Chain.cons (hlast p (by simp)) .nil
    | cons p' ps =>
      have hcell := hlinks 0 p p' rfl rfl
      refine Chain.cons hcell (ih (by simp) ?_ ?_ rfl)
      · intro j a b ha hb
        exact hlinks (j + 1) a b (by simpa using ha) (by simpa using hb)
      · intro a ha
        exact hlast a (by simpa using ha)

theorem link_chain (h : Built m₀ val ps m) (hps : ps ≠ []) :
    ∃ head m₁ m₂, forRange (linkPass ps) 0 (ps.length - 1) m = .ok m₁ ∧
      (liftM (read ps (ps.length - 1)) >>= fun p ↦
        liftM (m₁.modify p (fun v ↦ { v with next := 0 })) : Except Halt _) = .ok m₂ ∧
      (liftM (read ps 0) : Except Halt ℕ) = .ok head ∧ Built m₀ val ps m₂ ∧
      Chain Node.next m₂ head ps := by
  have hpos := List.length_pos_of_ne_nil hps
  have hloop : ∃ m₁, forRange (linkPass ps) 0 (ps.length - 1) m = .ok m₁ ∧
      Linking m₀ val ps (ps.length - 1) m₁ :=
    forRange_ok (Linking m₀ val ps) (Nat.zero_le _)
      ⟨h, fun j hj ↦ absurd hj (Nat.not_lt_zero j)⟩ (fun _ _ hi _ hs ↦ hs.pass (by omega))
  obtain ⟨m₁, hrun, hlinking⟩ := hloop
  have hlast : ps.length - 1 < ps.length := by omega
  have hmem := List.getElem_mem hlast
  obtain ⟨next, hcell⟩ := hlinking.built.cells _ hmem
  obtain ⟨m₂, hmodify, hcell'⟩ := Memory.modify_spec hcell (fun v ↦ { v with next := 0 })
  refine ⟨ps[0], m₁, m₂, hrun, ?_, liftStop_ok (read_lt hpos),
    hlinking.built.relink hmem hcell', ?_⟩
  · rw [liftStop_ok (read_lt hlast), ok_bind, liftStop_ok hmodify]
  · apply chain_of_links val hps
    · intro j p q hp hq
      obtain ⟨hj, hpj⟩ := List.getElem?_eq_some_iff.mp hp
      obtain ⟨hj', -⟩ := List.getElem?_eq_some_iff.mp hq
      have hne : p ≠ ps[ps.length - 1] := by
        rintro rfl
        have hindex := (h.nodup.getElem_inj_iff).mp hpj
        omega
      rw [hcell', update_of_ne hne]
      exact hlinking.links j (by omega) p q hp hq
    · intro p hp
      rw [List.getElem?_eq_getElem hlast, Option.some_inj] at hp
      rw [hcell', ← hp, update_self]
    · exact List.getElem?_eq_getElem hpos

def total (vs : List Int64) : ℤ := (vs.map Int64.toInt).sum

def Small (vs : List Int64) : Prop := ∀ v ∈ vs, 0 ≤ v.toInt ∧ v.toInt ≤ 255

variable {vs : List Int64}

theorem total_bounds (h : Small vs) : 0 ≤ total vs ∧ total vs ≤ 255 * vs.length := by
  induction vs with
  | nil => exact ⟨Int.le_refl 0, Int.le_refl 0⟩
  | cons v vs ih =>
    have hv := h v List.mem_cons_self
    have hvs := ih (fun w hw ↦ h w (List.mem_cons_of_mem v hw))
    have hcons : total (v :: vs) = v.toInt + total vs := List.sum_cons
    rw [hcons, List.length_cons]
    omega

theorem total_take (hi : i < vs.length) :
    total (vs.take (i + 1)) = total (vs.take i) + vs[i].toInt := by
  rw [total, ← List.take_append_getElem hi, List.map_append, List.sum_append, List.map_singleton,
    List.sum_singleton, total]

theorem small_bytes (n : ℕ) : Small ((List.range n).map lowByte) := by
  intro v hv
  obtain ⟨i, -, rfl⟩ := List.mem_map.mp hv
  rw [toInt_lowByte]
  omega

theorem small_take (h : Small vs) (i : ℕ) : Small (vs.take i) :=
  fun v hv ↦ h v (List.mem_of_mem_take hv)

theorem fits_long {x : ℤ} (h : 0 ≤ x) (hlt : x < 2 ^ 63) : Fits 64 x := by
  rw [Fits]
  omega

theorem sumArray_eq (start : Int64) (h : Small vs) (hstart : 0 ≤ start.toInt)
    (hroom : start.toInt + 255 * vs.length < 2 ^ 63) :
    ∃ sum, sumArray vs vs.length start = .ok sum ∧ sum.toInt = start.toInt + total vs := by
  have hloop : ∃ sum, sumArray vs vs.length start = .ok sum ∧
      sum.toInt = start.toInt + total (vs.take vs.length) := by
    refine forRange_ok (fun i (sum : Int64) ↦ sum.toInt = start.toInt + total (vs.take i))
      (Nat.zero_le _) (by simp [total]) ?_
    intro i _ hi sum hsum
    have hbounds := total_bounds (small_take h (i + 1))
    have hlen := List.length_take_le (i + 1) vs
    rw [total_take hi] at hbounds
    obtain ⟨next, hnext, hval⟩ := int64_of_fits (x := sum.toInt + vs[i].toInt)
      (fits_long (by omega) (by omega))
    refine ⟨next, ?_, ?_⟩
    · rw [liftStop_ok (read_lt hi), ok_bind, liftFault_ok hnext]
    · rw [hval, total_take hi, hsum, Int.add_assoc]
  rwa [List.take_length] at hloop

/-- The walk with `k` nodes to go, towards the sum `goal`. -/
structure Walked (m : Memory Node) (val : ℕ → Int64) (goal : ℤ) (k : ℕ) (s : Walking) : Prop where
  rest : ∃ rest, rest.length = k ∧ Chain Node.next m s.p rest ∧ Small (rest.map val) ∧
    (∀ p ∈ rest, ∃ next, m.cell p = some ⟨val p, next⟩) ∧
    s.sum.toInt + total (rest.map val) = goal
  sum : 0 ≤ s.sum.toInt

theorem Walked.pass {goal : ℤ} {k : ℕ} {s : Walking} (h : Walked m val goal (k + 1) s)
    (hgoal : goal < 2 ^ 63) :
    (s.p != 0) = true ∧ ∃ s', s.pass m = .ok s' ∧ Walked m val goal k s' := by
  obtain ⟨⟨rest, hlen, hchain, hsmall, hcells, hsum⟩, hpos⟩ := h
  obtain ⟨p, rest, rfl⟩ := List.exists_cons_of_length_eq_add_one hlen
  obtain ⟨hp, v, hcell, hrest⟩ := hchain.uncons
  obtain ⟨next, hcell'⟩ := hcells p List.mem_cons_self
  obtain rfl : v = ⟨val p, next⟩ := Option.some.inj (hcell.symm.trans hcell')
  have hv := hsmall (val p) List.mem_cons_self
  have htail : Small (rest.map val) := fun w hw ↦ hsmall w (List.mem_cons_of_mem _ hw)
  have hbounds := total_bounds htail
  have hcons : total ((p :: rest).map val) = (val p).toInt + total (rest.map val) := List.sum_cons
  obtain ⟨sum, hrun, hval⟩ := int64_of_fits (x := s.sum.toInt + (val p).toInt)
    (fits_long (by omega) (by omega))
  have hload : s.p = p := hp
  refine ⟨by simpa [hload] using Memory.ne_null hcell, ⟨sum, next⟩, ?_, ⟨rest, by simpa using hlen,
    hrest, htail, fun q hq ↦ hcells q (List.mem_cons_of_mem p hq), ?_⟩, ?_⟩
  · rw [Walking.pass, hload, liftStop_ok (Memory.load_eq hcell), ok_bind, liftFault_ok hrun,
      ok_bind, ok_bind]
    rfl
  · dsimp only
    omega
  · dsimp only
    omega

theorem sumList_eq (fuel : ℕ) (start : Int64) {head : ℕ} (h : Built m₀ val ps m)
    (hchain : Chain Node.next m head ps)
    (hsmall : Small (ps.map val)) (hstart : 0 ≤ start.toInt)
    (hroom : start.toInt + 255 * ps.length < 2 ^ 63) (hfuel : ps.length ≤ fuel) :
    ∃ sum, sumList fuel m head start = .ok sum ∧ sum.toInt = start.toInt + total (ps.map val) := by
  have hbounds := total_bounds hsmall
  rw [List.length_map] at hbounds
  have hwalk : Walked m val (start.toInt + total (ps.map val)) ps.length ⟨start, head⟩ :=
    ⟨⟨ps, rfl, hchain, hsmall, h.cells, rfl⟩, hstart⟩
  have hend : ∀ s, Walked m val (start.toInt + total (ps.map val)) 0 s → (s.p != 0) = false := by
    intro s hs
    obtain ⟨⟨rest, hlen, hchain, -⟩, -⟩ := hs
    simpa using hchain.null_iff.mpr (List.length_eq_zero_iff.mp hlen)
  obtain ⟨s, hrun, ⟨rest, hlen, -, -, -, hsum⟩, -⟩ := whileFuel_ok (.fault (.memory .timeout))
    (Walked m val (start.toInt + total (ps.map val))) hend
    (fun k s hs ↦ hs.pass (by omega)) hfuel hwalk
  obtain rfl := List.length_eq_zero_iff.mp hlen
  refine ⟨s.sum, by rw [sumList, hrun]; rfl, ?_⟩
  rw [← hsum]
  exact (Int.add_zero _).symm

theorem free_all (h : Built m₀ val ps m) : forRange (freePass ps) 0 ps.length m = .ok m₀ := by
  have hloop : ∃ m', forRange (freePass ps) 0 ps.length m = .ok m' ∧
      (∀ p ∈ ps.drop ps.length, (m'.cell p).isSome) ∧
      ∀ a, a ∉ ps.drop ps.length → m'.cell a = m₀.cell a := by
    refine forRange_ok (fun i (m' : Memory Node) ↦ (∀ p ∈ ps.drop i, (m'.cell p).isSome) ∧
      ∀ a, a ∉ ps.drop i → m'.cell a = m₀.cell a) (Nat.zero_le _) ⟨fun p hp ↦ ?_, h.frame⟩ ?_
    · obtain ⟨next, hcell⟩ := h.cells p hp
      rw [hcell]
      rfl
    · rintro i _ hi m' ⟨hcells, hframe⟩
      have hdrop := List.drop_eq_getElem_cons hi
      have hnodup := h.nodup.sublist (List.drop_sublist i ps)
      rw [hdrop] at hcells hframe hnodup
      obtain ⟨hout, -⟩ := List.nodup_cons.mp hnodup
      obtain ⟨v, hcell⟩ := Option.isSome_iff_exists.mp (hcells ps[i] List.mem_cons_self)
      obtain ⟨m'', hrelease, hcell'⟩ := Memory.release_spec hcell
      refine ⟨m'', ?_, fun p hp ↦ ?_, fun a ha ↦ ?_⟩
      · rw [freePass, liftStop_ok (read_lt hi), ok_bind, liftStop_ok hrelease]
      · rw [hcell', update_of_ne (ne_of_mem_of_not_mem hp hout)]
        exact hcells p (List.mem_cons_of_mem _ hp)
      · rcases eq_or_ne a ps[i] with rfl | hne
        · rw [hcell', update_self, h.fresh _ (List.getElem_mem hi)]
        · rw [hcell', update_of_ne hne]
          exact hframe a (fun hmem ↦ (List.mem_cons.mp hmem).elim hne ha)
  obtain ⟨m', hrun, -, hframe⟩ := hloop
  rw [hrun, Memory.ext (funext fun a ↦ hframe a (by simp))]

theorem fill_array (arr : List Int64) (hlen : arr.length = n) :
    forRange fillPass 0 n arr = .ok ((List.range n).map lowByte) := by
  have hloop : ∃ arr', forRange fillPass 0 n arr = .ok arr' ∧ arr'.length = n ∧
      ∀ j < n, arr'[j]? = some (lowByte j) := by
    refine forRange_ok (fun i (l : List Int64) ↦ l.length = n ∧ ∀ j < i, l[j]? = some (lowByte j))
      (Nat.zero_le n) ⟨hlen, fun j hj ↦ absurd hj (Nat.not_lt_zero j)⟩ ?_
    rintro i _ hi l ⟨hl, hcells⟩
    refine ⟨l.set i (lowByte i), liftStop_ok (assign_eq (by omega) _), ?_, fun j hj ↦ ?_⟩
    · rw [List.length_set, hl]
    · rcases Nat.lt_succ_iff_lt_or_eq.mp hj with hlt | rfl
      · rw [List.getElem?_set_ne (by omega), hcells j hlt]
      · rw [List.getElem?_set_self (by omega)]
  obtain ⟨arr', hrun, hlen', hcells⟩ := hloop
  rw [hrun]
  congr 1
  apply List.ext_getElem?
  intro j
  rw [List.getElem?_map]
  rcases Nat.lt_or_ge j n with hj | hj
  · rw [hcells j hj, List.getElem?_range hj, Option.map_some]
  · rw [List.getElem?_eq_none (by omega), List.getElem?_eq_none (by simpa using hj),
      Option.map_none]

/-- The experiment stops with status 1 when a node gets no memory. Otherwise no
access faults and no sum overflows, the walk in shuffled order gives the sum of
the array, and the heap is as before. -/
theorem bench_sums_agree (n : ℕ) (hpos : 1 ≤ n) (hn : n < 2 ^ 31) (fuel : ℕ) (hfuel : n ≤ fuel)
    (answers : ℕ → ℕ) (junk : ℕ → Node) (rng : UInt32) (arr : List Int64) (nodes : List ℕ)
    (m : Memory Node) (harr : arr.length = n) (hnodes : nodes.length = n) :
    (¬ Allocates m answers n ∧ benchArrayVsList fuel n answers junk rng arr nodes m =
      .error (.exit 1)) ∨
    Allocates m answers n ∧ ∃ sum warm, benchArrayVsList fuel n answers junk rng arr nodes m =
      .ok ⟨sum, sum, warm, m⟩ ∧ sum.toInt = total ((List.range n).map lowByte) ∧
        warm.toInt = 2 * sum.toInt := by
  have hstart : Filled m answers n 0 ⟨nodes, m⟩ :=
    ⟨hnodes, fun j hj ↦ absurd hj (Nat.not_lt_zero j),
      ⟨fun j hj ↦ absurd hj (Nat.not_lt_zero j), fun j hj ↦ absurd hj (Nat.not_lt_zero j)⟩,
      fun j hj ↦ absurd hj (Nat.not_lt_zero j), fun _ _ ↦ rfl⟩
  rw [benchArrayVsList, fill_array arr harr, ok_bind]
  rcases forRange_or_error (Building.pass answers junk) (Filled m answers n)
    (fun e ↦ e = .exit 1 ∧ ¬ Allocates m answers n) (Nat.zero_le n) hstart
    (fun i _ hi s hs ↦ hs.pass hi) with ⟨built, hbuild, hfilled⟩ | ⟨e, hbuild, rfl, hnot⟩
  · obtain ⟨val, hbuilt, hvals⟩ := hfilled.built
    have hsmall := small_bytes n
    have hlen := hfilled.length
    obtain ⟨shuffled, hshuffle, hperm⟩ :=
      shuffle_perm built.nodes rng (by rw [hlen]; exact hn)
    have hlength := hperm.length_eq
    have hbuilt' := hbuilt.perm hperm
    have hne : shuffled.nodes ≠ [] := List.ne_nil_of_length_pos (by omega)
    obtain ⟨head, m₁, m₂, hlink, hend, hhead, hlinked, hchain⟩ := link_chain hbuilt' hne
    have hvals' : (shuffled.nodes.map val).Perm ((List.range n).map lowByte) :=
      hvals ▸ hperm.map val
    have htotal : total (shuffled.nodes.map val) = total ((List.range n).map lowByte) :=
      (hvals'.map Int64.toInt).sum_eq
    have hsmall' : Small (shuffled.nodes.map val) := fun v hv ↦ hsmall v (hvals'.mem_iff.mp hv)
    have hbounds := total_bounds hsmall
    have hbytes : ((List.range n).map lowByte).length = n := by simp
    have hzero : (0 : Int64).toInt = 0 := rfl
    obtain ⟨sum, hsum, hvsum⟩ :=
      sumArray_eq 0 hsmall (by decide) (by rw [hbytes, hzero]; omega)
    rw [hzero, Int.zero_add] at hvsum
    obtain ⟨warm, hwarm, hvwarm⟩ := sumList_eq fuel sum hlinked hchain hsmall'
      (by omega) (by omega) (by omega)
    obtain ⟨again, hagain, hvagain⟩ := sumList_eq fuel 0 hlinked hchain hsmall'
      (by decide) (by rw [hzero]; omega) (by omega)
    rw [hzero, Int.zero_add, htotal, ← hvsum, Int64.toInt_inj] at hvagain
    have hfree := free_all hlinked
    rw [hbytes] at hsum
    rw [hlength, hlen] at hlink hend hfree
    rw [hlen] at hshuffle
    refine .inr ⟨hfilled.allocates, sum, warm, ?_, hvsum, ?_⟩
    · rw [hbuild, ok_bind, hshuffle, ok_bind]
      dsimp only
      rw [hlink, ok_bind, ← bind_assoc, hend, ok_bind, hhead, ok_bind, hsum, ok_bind, hwarm,
        ok_bind, ok_bind, hagain, ok_bind, hfree, hvagain]
      rfl
    · rw [hvwarm, htotal, hvsum]
      omega
  · refine .inl ⟨hnot, ?_⟩
    rw [hbuild]
    rfl

theorem bench_sums_agree_two :
    (¬ Allocates (Memory.sample [] (by decide)) (100 + ·) 2 ∧
      benchArrayVsList 2 2 (100 + ·) (fun _ ↦ ⟨0, 0⟩) rngSeed [0, 0] [0, 0]
        (Memory.sample [] (by decide)) = .error (.exit 1)) ∨
    Allocates (Memory.sample [] (by decide)) (100 + ·) 2 ∧
      ∃ sum warm, benchArrayVsList 2 2 (100 + ·) (fun _ ↦ ⟨0, 0⟩) rngSeed [0, 0] [0, 0]
        (Memory.sample [] (by decide)) = .ok ⟨sum, sum, warm, Memory.sample [] (by decide)⟩ ∧
          sum.toInt = total ((List.range 2).map lowByte) ∧ warm.toInt = 2 * sum.toInt :=
  bench_sums_agree 2 (by decide) (by decide) 2 (by decide) _ _ _ _ _ _ rfl rfl

end LowLevel.ProperMachine.Bench
