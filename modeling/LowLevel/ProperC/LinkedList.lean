import LowLevel.Basis.PointerChain
import LowLevel.Basis.Loop

namespace LowLevel.ProperC.LinkedList

open Function Basis.AddressSpace Basis.PointerChain Basis.Loop

structure Node where
  val : Int32
  next : ℕ
  deriving DecidableEq

/-- `malloc(sizeof(Node))`: `answer` when it is a fresh address, else NULL. A
fresh cell holds `junk`. -/
def malloc (m : Memory Node) (answer : ℕ) (junk : Node) : ℕ × Memory Node :=
  if h : m.Fresh answer then (answer, m.allocate answer junk h) else (0, m)

def listPushFront (m : Memory Node) (answer : ℕ) (junk : Node) (head : ℕ) (val : Int32) :
    Except Stop (ℕ × Memory Node) := do
  let (newNode, m) := malloc m answer junk
  let m ← m.modify newNode (fun n ↦ { n with val := val })
  let m ← m.modify newNode (fun n ↦ { n with next := head })
  return (newNode, m)

structure Reversal where
  prev : ℕ
  head : ℕ
  mem : Memory Node

def Reversal.pass (s : Reversal) : Except Stop Reversal := do
  let next := (← s.mem.load s.head).next
  let m ← s.mem.modify s.head (fun n ↦ { n with next := s.prev })
  return ⟨s.head, next, m⟩

def listReverse (fuel : ℕ) (m : Memory Node) (head : ℕ) : Except Stop (ℕ × Memory Node) :=
  (whileFuel .timeout (fun s : Reversal ↦ s.head != 0) Reversal.pass fuel ⟨0, head, m⟩).map
    (fun s ↦ (s.prev, s.mem))

/-- `fast->next && fast->next->next` -/
def twoAhead (m : Memory Node) (fast : ℕ) : Except Stop Bool := do
  let next := (← m.load fast).next
  if next = 0 then
    return false
  return (← m.load next).next != 0

structure Race where
  slow : ℕ
  fast : ℕ

/-- The loop of `list_has_cycle`, which it leaves with `true` from inside and
with `false` at the end. -/
def Race.pass (m : Memory Node) (s : Race) : Except Stop (Bool ⊕ Race) := do
  if ← twoAhead m s.fast then
    let slow := (← m.load s.slow).next
    let fast := (← m.load (← m.load s.fast).next).next
    if slow = fast then
      return .inl true
    return .inr ⟨slow, fast⟩
  return .inl false

def listHasCycle (fuel : ℕ) (m : Memory Node) (head : ℕ) : Except Stop Bool :=
  if head = 0 then .ok false
  else loopFuel .timeout (Race.pass m) fuel ⟨head, head⟩

/-- The loop of `list_middle`, which it leaves with the state. -/
def Race.stride (m : Memory Node) (s : Race) : Except Stop (Race ⊕ Race) := do
  if ← twoAhead m s.fast then
    let slow := (← m.load s.slow).next
    let fast := (← m.load (← m.load s.fast).next).next
    return .inr ⟨slow, fast⟩
  return .inl s

def Race.middle (m : Memory Node) (s : Race) : Except Stop Int32 := do
  let mut slow := s.slow
  if (← m.load s.fast).next ≠ 0 then
    slow := (← m.load slow).next
  return (← m.load slow).val

def listMiddle (fuel : ℕ) (m : Memory Node) (head : ℕ) : Except Stop Int32 :=
  if head = 0 then .ok 0
  else (loopFuel .timeout (Race.stride m) fuel ⟨head, head⟩).bind (Race.middle m)

structure Counting where
  count : ℕ
  temp : ℕ

def Counting.pass (m : Memory Node) (s : Counting) : Except Stop Counting := do
  return ⟨sizeAdd s.count 1, (← m.load s.temp).next⟩

def listLength (fuel : ℕ) (m : Memory Node) (head : ℕ) : Except Stop ℕ :=
  (whileFuel .timeout (fun s : Counting ↦ s.temp != 0) (Counting.pass m) fuel ⟨0, head⟩).map
    Counting.count

/-- The addresses freed so far are kept for the statements about `listFree` only. -/
structure Freeing where
  freed : List ℕ
  head : ℕ
  mem : Memory Node

def Freeing.pass (s : Freeing) : Except Stop Freeing := do
  let temp := s.head
  let head := (← s.mem.load s.head).next
  let m ← s.mem.release temp
  return ⟨s.freed ++ [temp], head, m⟩

def listFree (fuel : ℕ) (m : Memory Node) (head : ℕ) : Except Stop (List ℕ × Memory Node) :=
  (whileFuel .timeout (fun s : Freeing ↦ s.head != 0) Freeing.pass fuel ⟨[], head, m⟩).map
    (fun s ↦ (s.freed, s.mem))

variable {m m₀ : Memory Node} {head answer : ℕ} {ps : List ℕ}

theorem malloc_fresh (h : m.Fresh answer) (junk : Node) :
    malloc m answer junk = (answer, m.allocate answer junk h) := by
  rw [malloc, dif_pos h]

/-- The cells of the list are `ps`, and the rest of the memory is `m₀`. -/
structure Owned (m₀ : Memory Node) (head : ℕ) (ps : List ℕ) (m : Memory Node) : Prop where
  nodup : ps.Nodup
  chain : Chain Node.next m head ps
  fresh : ∀ p ∈ ps, m₀.cell p = none
  frame : ∀ a, a ∉ ps → m.cell a = m₀.cell a

theorem listPushFront_fresh (hfresh : m.Fresh answer) (junk : Node) (head : ℕ) (val : Int32) :
    ∃ m', listPushFront m answer junk head val = .ok (answer, m') ∧
      m'.cell = update m.cell answer (some ⟨val, head⟩) := by
  have hjunk : (m.allocate answer junk hfresh).cell answer = some junk := update_self ..
  obtain ⟨m₁, hval, hcell⟩ := Memory.modify_spec hjunk (fun n ↦ { n with val := val })
  have hstored : m₁.cell answer = some { junk with val := val } := by rw [hcell, update_self]
  obtain ⟨m', hnext, hcell'⟩ := Memory.modify_spec hstored (fun n ↦ { n with next := head })
  refine ⟨m', ?_, ?_⟩
  · rw [listPushFront, malloc_fresh hfresh junk]
    dsimp only
    rw [hval, ok_bind, hnext, ok_bind]
    rfl
  · rw [hcell', hcell, Memory.allocate_cell, update_idem, update_idem]

theorem listPushFront_owned (h : Owned m₀ head ps m) (hfresh : m.Fresh answer) (junk : Node)
    (val : Int32) :
    ∃ m', listPushFront m answer junk head val = .ok (answer, m') ∧
      Owned m₀ answer (answer :: ps) m' := by
  obtain ⟨m', hrun, hcell⟩ := listPushFront_fresh hfresh junk head val
  have hnone : m.cell answer = none := hfresh.2.2
  have hnew : answer ∉ ps := by
    intro hmem
    have hsome := h.chain.isSome answer hmem
    rw [hnone] at hsome
    cases hsome
  refine ⟨m', hrun, List.nodup_cons.mpr ⟨hnew, h.nodup⟩, ?_, ?_, ?_⟩
  · exact Chain.cons (v := ⟨val, head⟩) (by rw [hcell, update_self]) (h.chain.update hcell hnew)
  · intro p hp
    rcases List.mem_cons.mp hp with rfl | hp
    · rw [← h.frame p hnew, hnone]
    · exact h.fresh p hp
  · intro a ha
    rw [List.mem_cons, not_or] at ha
    rw [hcell, update_of_ne ha.1, h.frame a ha.2]

theorem Reversal.pass_spec {s : Reversal} {v : Node} (cell : s.mem.cell s.head = some v) :
    ∃ m', s.pass = .ok ⟨s.head, v.next, m'⟩ ∧
      m'.cell = update s.mem.cell s.head (some { v with next := s.prev }) := by
  obtain ⟨m', hmodify, hcell⟩ := Memory.modify_spec cell (fun n ↦ { n with next := s.prev })
  refine ⟨m', ?_, hcell⟩
  rw [Reversal.pass, Memory.load_eq cell, ok_bind, hmodify]
  rfl

/-- `listReverse` with `n` passes to go: `done` is turned round, `rest` is not. -/
structure Reversing (m₀ : Memory Node) (ps : List ℕ) (n : ℕ) (s : Reversal) : Prop where
  chains : ∃ done rest, rest.length = n ∧ done.reverse ++ rest = ps ∧
    Chain Node.next s.mem s.prev done ∧ Chain Node.next s.mem s.head rest
  frame : ∀ a, a ∉ ps → s.mem.cell a = m₀.cell a

theorem Reversing.pass {n : ℕ} {s : Reversal} (hps : ps.Nodup) (h : Reversing m₀ ps (n + 1) s) :
    (s.head != 0) = true ∧ ∃ s', s.pass = .ok s' ∧ Reversing m₀ ps n s' := by
  obtain ⟨⟨done, rest, hlen, hsplit, hprev, hhead⟩, hframe⟩ := h
  obtain ⟨p, rest, rfl⟩ := List.exists_cons_of_length_eq_add_one hlen
  obtain ⟨hp, v, cell, hrest⟩ := hhead.uncons
  rw [← hp] at cell hsplit
  obtain ⟨m', hpass, hcell⟩ := Reversal.pass_spec cell
  subst hsplit
  have hnodup := List.nodup_append.mp hps
  have hnew : s.head ∉ done := fun hmem ↦
    hnodup.2.2 _ (List.mem_reverse.mpr hmem) _ List.mem_cons_self rfl
  have hout : s.head ∉ rest := (List.nodup_cons.mp hnodup.2.1).1
  refine ⟨by simpa using Memory.ne_null cell, ⟨s.head, v.next, m'⟩, hpass, ?_, ?_⟩
  · refine ⟨s.head :: done, rest, by simpa using hlen, by simp, ?_, hrest.update hcell hout⟩
    exact Chain.cons (v := { v with next := s.prev }) (by rw [hcell, update_self])
      (hprev.update hcell hnew)
  · intro a ha
    have hne : a ≠ s.head := by
      intro heq
      subst heq
      simp at ha
    rw [hcell, update_of_ne hne, hframe a ha]

theorem listReverse_owned (h : Owned m₀ head ps m) (fuel : ℕ) (hfuel : ps.length ≤ fuel) :
    ∃ head' m', listReverse fuel m head = .ok (head', m') ∧ Owned m₀ head' ps.reverse m' := by
  have hstart : Reversing m₀ ps ps.length ⟨0, head, m⟩ :=
    ⟨⟨[], ps, rfl, rfl, .nil, h.chain⟩, h.frame⟩
  have hend : ∀ s, Reversing m₀ ps 0 s → (s.head != 0) = false := by
    intro s hall
    obtain ⟨⟨done, rest, hlen, hsplit, hprev, hhead⟩, hframe⟩ := hall
    simpa using hhead.null_iff.mpr (List.length_eq_zero_iff.mp hlen)
  obtain ⟨s, hrun, ⟨done, rest, hlen, hsplit, hprev, hhead⟩, hframe⟩ :=
    whileFuel_ok .timeout (Reversing m₀ ps) hend
      (fun n s hs ↦ hs.pass h.nodup) hfuel hstart
  refine ⟨s.prev, s.mem, by rw [listReverse, hrun]; rfl, ?_⟩
  obtain rfl := List.length_eq_zero_iff.mp hlen
  rw [List.append_nil] at hsplit
  subst hsplit
  rw [List.reverse_reverse]
  exact ⟨(List.reverse_perm done).nodup_iff.mp h.nodup, hprev,
    fun p hp ↦ h.fresh p (List.mem_reverse.mpr hp),
    fun a ha ↦ hframe a (fun hmem ↦ ha (List.mem_reverse.mp hmem))⟩

structure Releasing (m₀ : Memory Node) (ps : List ℕ) (n : ℕ) (s : Freeing) : Prop where
  chain : ∃ rest, rest.length = n ∧ s.freed ++ rest = ps ∧ Chain Node.next s.mem s.head rest ∧
    ∀ a, a ∉ rest → s.mem.cell a = m₀.cell a

theorem Releasing.pass {n : ℕ} {s : Freeing} (hps : ps.Nodup) (hfresh : ∀ p ∈ ps, m₀.cell p = none)
    (h : Releasing m₀ ps (n + 1) s) :
    (s.head != 0) = true ∧ ∃ s', s.pass = .ok s' ∧ Releasing m₀ ps n s' := by
  obtain ⟨rest, hlen, hsplit, hhead, hframe⟩ := h
  obtain ⟨p, rest, rfl⟩ := List.exists_cons_of_length_eq_add_one hlen
  obtain ⟨hp, v, cell, hrest⟩ := hhead.uncons
  rw [← hp] at cell hsplit hframe
  obtain ⟨m', hrelease, hcell⟩ := Memory.release_spec cell
  subst hsplit
  have hnodup := List.nodup_append.mp hps
  have hout : s.head ∉ rest := (List.nodup_cons.mp hnodup.2.1).1
  refine ⟨by simpa using Memory.ne_null cell, ⟨s.freed ++ [s.head], v.next, m'⟩, ?_, rest, ?_⟩
  · rw [Freeing.pass, Memory.load_eq cell, ok_bind, hrelease]
    rfl
  · refine ⟨by simpa using hlen, by simp, hrest.update hcell hout, ?_⟩
    intro a ha
    rcases eq_or_ne a s.head with heq | hne
    · rw [hcell, heq, update_self, hfresh s.head (by simp)]
    · rw [hcell, update_of_ne hne, hframe a (by simp [hne, ha])]

theorem listFree_owned (h : Owned m₀ head ps m) (fuel : ℕ) (hfuel : ps.length ≤ fuel) :
    listFree fuel m head = .ok (ps, m₀) := by
  have hstart : Releasing m₀ ps ps.length ⟨[], head, m⟩ := ⟨ps, rfl, rfl, h.chain, h.frame⟩
  have hend : ∀ s, Releasing m₀ ps 0 s → (s.head != 0) = false := by
    intro s hall
    obtain ⟨rest, hlen, hsplit, hhead, hframe⟩ := hall
    simpa using hhead.null_iff.mpr (List.length_eq_zero_iff.mp hlen)
  obtain ⟨s, hrun, rest, hlen, hsplit, hhead, hframe⟩ :=
    whileFuel_ok .timeout (Releasing m₀ ps) hend
      (fun n s hs ↦ hs.pass h.nodup h.fresh) hfuel hstart
  obtain rfl := List.length_eq_zero_iff.mp hlen
  have hmem : s.mem = m₀ := Memory.ext (funext fun a ↦ hframe a List.not_mem_nil)
  rw [List.append_nil] at hsplit
  rw [listFree, hrun, ← hsplit, ← hmem]
  rfl

end LowLevel.ProperC.LinkedList
