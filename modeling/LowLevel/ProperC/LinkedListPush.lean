import LowLevel.ProperC.LinkedListMiddle

namespace LowLevel.ProperC.LinkedListPush

open Function Basis.AddressSpace Basis.PointerChain Basis.PointerShape Basis.Loop
open LinkedList LinkedListMiddle

/-- A call of `list_push_front`, with what its `malloc` answers: `none` is NULL. -/
structure Call where
  answer : Option ℕ
  junk : Node
  val : Int32

def Call.push (c : Call) (head : ℕ) (m : Memory Node) : Except Stop (ℕ × Memory Node) :=
  listPushFront m (c.answer.getD 0) c.junk head c.val

def pushAll (head : ℕ) (m : Memory Node) : List Call → Except Stop (ℕ × Memory Node)
  | [] => .ok (head, m)
  | c :: calls => (c.push head m).bind (fun s ↦ pushAll s.1 s.2 calls)

/-- The nodes and the values of the calls whose allocation succeeded. -/
def allocated (calls : List Call) : List (ℕ × Int32) :=
  calls.filterMap (fun c ↦ c.answer.map (fun a ↦ (a, c.val)))

/-- What `malloc` is documented to do: it never answers with memory in use. -/
structure Answers (m : Memory Node) (calls : List Call) : Prop where
  nodup : ((allocated calls).map Prod.fst).Nodup
  fresh : ∀ p ∈ (allocated calls).map Prod.fst, m.Fresh p

/-- The list `ps` of `m` after `calls`, behind the nodes that they allocated. -/
structure Pushed (m : Memory Node) (ps : List ℕ) (calls : List Call) (head' : ℕ)
    (m' : Memory Node) : Prop where
  chain : Chain Node.next m' head' (((allocated calls).map Prod.fst).reverse ++ ps)
  values : ∀ x ∈ allocated calls, (m'.cell x.1).map Node.val = some x.2
  kept : ∀ p, p ∉ (allocated calls).map Prod.fst → m'.cell p = m.cell p

/-- What the header promises of a run, at each of its calls. -/
def Intact (m : Memory Node) (head : ℕ) (ps : List ℕ) (calls : List Call) : Prop :=
  ∀ k, ∃ head' m', pushAll head m (calls.take k) = .ok (head', m') ∧
    Pushed m ps (calls.take k) head' m' ∧
    Returns (fun fuel ↦ listLength fuel m' head') (ps.length + (allocated (calls.take k)).length) ∧
    ∀ c, calls[k]? = some c → c.answer = none → c.push head' m' = .ok (head', m')

variable {m m' : Memory Node} {head head' : ℕ} {ps : List ℕ} {calls done : List Call} {c : Call}

theorem malloc_null (m : Memory Node) (junk : Node) : malloc m 0 junk = (0, m) := by
  have hnot : ¬ m.Fresh 0 := fun h ↦ h.1 rfl
  rw [malloc, dif_neg hnot]

/-- The code stores through the pointer before it has looked at it. -/
theorem Call.push_none (h : c.answer = none) (head : ℕ) (m : Memory Node) :
    c.push head m = .error (.store 0) := by
  have hstore : ∀ f, m.modify 0 f = .error (.store 0) := by
    intro f
    rw [Memory.modify, dif_neg (by rw [m.null]; exact Bool.false_ne_true)]
  rw [Call.push, h, Option.getD_none, listPushFront, malloc_null]
  dsimp only
  rw [hstore]
  rfl

theorem allocated_append (done calls : List Call) :
    allocated (done ++ calls) = allocated done ++ allocated calls :=
  List.filterMap_append

theorem allocated_singleton {a : ℕ} (h : c.answer = some a) : allocated [c] = [(a, c.val)] := by
  simp [allocated, h]

theorem Answers.sublist (h : Answers m calls) (hsub : done.Sublist calls) : Answers m done := by
  have hmap := (hsub.filterMap (fun c ↦ c.answer.map (fun a ↦ (a, c.val)))).map Prod.fst
  exact ⟨h.nodup.sublist hmap, fun p hp ↦ h.fresh p (hmap.subset hp)⟩

theorem Pushed.start (h : Chain Node.next m head ps) : Pushed m ps [] head m :=
  ⟨h, by simp [allocated], fun _ _ ↦ rfl⟩

theorem Pushed.length (h : Pushed m ps calls head' m') :
    Returns (fun fuel ↦ listLength fuel m' head') (ps.length + (allocated calls).length) := by
  have hlen := listLength_chain h.chain
  rw [List.length_append, List.length_reverse, List.length_map, Nat.add_comm] at hlen
  exact hlen

theorem Pushed.push (h : Pushed m ps done head m') (halloc : Answers m (done ++ [c])) {a : ℕ}
    (ha : c.answer = some a) :
    ∃ m'', c.push head m' = .ok (a, m'') ∧ Pushed m ps (done ++ [c]) a m'' := by
  obtain ⟨hnodup, hfresh⟩ := halloc
  rw [allocated_append, allocated_singleton ha, List.map_append] at hnodup hfresh
  have hnew : a ∉ (allocated done).map Prod.fst :=
    fun hmem ↦ (List.nodup_append.mp hnodup).2.2 a hmem a (by simp) rfl
  obtain ⟨hne, hlt, hnone⟩ := hfresh a (by simp)
  have hnone' : m'.cell a = none := by rw [h.kept a hnew, hnone]
  have hout : a ∉ ((allocated done).map Prod.fst).reverse ++ ps := by
    intro hmem
    have hsome := h.chain.isSome a hmem
    rw [hnone'] at hsome
    cases hsome
  obtain ⟨m'', hrun, hcell⟩ := listPushFront_fresh ⟨hne, hlt, hnone'⟩ c.junk head c.val
  refine ⟨m'', by rw [Call.push, ha]; exact hrun, ?_, ?_, ?_⟩
  · rw [allocated_append, allocated_singleton ha, List.map_append, List.reverse_append]
    exact Chain.cons (v := ⟨c.val, head⟩) (by rw [hcell, update_self]) (h.chain.update hcell hout)
  · intro x hx
    rw [allocated_append, allocated_singleton ha, List.mem_append] at hx
    cases hx with
    | inl hold =>
      have hne' : x.1 ≠ a := ne_of_mem_of_not_mem (List.mem_map_of_mem hold) hnew
      rw [hcell, update_of_ne hne', h.values x hold]
    | inr hlast =>
      obtain rfl := List.mem_singleton.mp hlast
      rw [hcell, update_self]
      rfl
  · intro p hp
    rw [allocated_append, allocated_singleton ha, List.map_append, List.mem_append, not_or] at hp
    have hne' : p ≠ a := fun heq ↦ hp.2 (by simp [heq])
    rw [hcell, update_of_ne hne', h.kept p hp.1]

theorem Pushed.pushAll (h : Pushed m ps done head m') (halloc : Answers m (done ++ calls))
    (hall : ∀ c ∈ calls, c.answer ≠ none) :
    ∃ head' m'', pushAll head m' calls = .ok (head', m'') ∧
      Pushed m ps (done ++ calls) head' m'' := by
  induction calls generalizing done head m' with
  | nil => exact ⟨head, m', rfl, by rwa [List.append_nil]⟩
  | cons c calls ih =>
    obtain ⟨a, ha⟩ := Option.ne_none_iff_exists'.mp (hall c List.mem_cons_self)
    have hsplit : done ++ c :: calls = (done ++ [c]) ++ calls := by simp
    rw [hsplit] at halloc ⊢
    obtain ⟨m₁, hpush, hpushed⟩ := h.push (halloc.sublist (List.sublist_append_left _ _)) ha
    obtain ⟨head', m'', hrun, hfinal⟩ :=
      ih hpushed halloc (fun c hc ↦ hall c (List.mem_cons_of_mem _ hc))
    refine ⟨head', m'', ?_, hfinal⟩
    rw [LinkedListPush.pushAll, hpush]
    exact hrun

/-- A run of `list_push_front` keeps the promise of the header if and only if
`malloc` returns NULL to none of its calls. -/
theorem push_front_intact_iff (m : Memory Node) (head : ℕ) (ps : List ℕ) (calls : List Call)
    (h : Chain Node.next m head ps) (halloc : Answers m calls) :
    Intact m head ps calls ↔ ∀ c ∈ calls, c.answer ≠ none := by
  constructor
  · intro hintact c hc hnone
    obtain ⟨k, hk⟩ := List.mem_iff_getElem?.mp hc
    obtain ⟨head', m', -, -, -, hfail⟩ := hintact k
    have hpush := hfail c hk hnone
    rw [Call.push_none hnone] at hpush
    cases hpush
  · intro hall k
    have hsub := List.take_sublist k calls
    have halloc' : Answers m ([] ++ calls.take k) := halloc.sublist hsub
    obtain ⟨head', m', hrun, hpushed⟩ :=
      (Pushed.start h).pushAll halloc' (fun c hc ↦ hall c (hsub.subset hc))
    rw [List.nil_append] at hpushed
    refine ⟨head', m', hrun, hpushed, hpushed.length, fun c hk hnone ↦ ?_⟩
    exact absurd hnone (hall c (List.mem_of_getElem? hk))

theorem push_front_intact_two :
    Intact (Memory.ofList 100 [⟨7, 0⟩] (by decide) (by simp)) 100 [100]
      [⟨some 200, ⟨0, 0⟩, 1⟩, ⟨some 300, ⟨0, 0⟩, 2⟩] := by
  refine (push_front_intact_iff _ 100 [100] _ (.cons (v := ⟨7, 0⟩) rfl .nil)
    ⟨by simp [allocated], ?_⟩).mpr (by simp)
  intro p hp
  have hcases : p = 200 ∨ p = 300 := by simpa [allocated] using hp
  cases hcases with
  | inl heq => exact heq ▸ ⟨by omega, by omega, rfl⟩
  | inr heq => exact heq ▸ ⟨by omega, by omega, rfl⟩

/-- Pushing 5 on the empty list without memory writes to address 0. -/
theorem push_front_null_deref :
    ∃ m : Memory Node, Chain Node.next m 0 [] ∧ Answers m [⟨none, ⟨0, 0⟩, 5⟩] ∧
      pushAll 0 m [⟨none, ⟨0, 0⟩, 5⟩] = .error (.store 0) ∧
      ¬ Intact m 0 [] [⟨none, ⟨0, 0⟩, 5⟩] := by
  have hnone : allocated [⟨none, ⟨0, 0⟩, 5⟩] = [] := rfl
  refine ⟨⟨fun _ ↦ none, rfl, fun _ _ ↦ rfl⟩, .nil, ⟨by simp [hnone], by simp [hnone]⟩, ?_, ?_⟩
  · rw [pushAll, Call.push_none rfl]
    rfl
  · intro hintact
    obtain ⟨head', m', -, -, -, hfail⟩ := hintact 0
    have hpush := hfail ⟨none, ⟨0, 0⟩, 5⟩ rfl rfl
    rw [Call.push_none rfl] at hpush
    cases hpush

end LowLevel.ProperC.LinkedListPush
