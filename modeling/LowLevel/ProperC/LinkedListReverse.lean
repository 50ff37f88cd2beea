import LowLevel.ProperC.LinkedListCycle

namespace LowLevel.ProperC.LinkedListReverse

open Function Basis.AddressSpace Basis.PointerChain Basis.PointerShape Basis.Loop
open LinkedList LinkedListCycle

variable {m m' m'' : Memory Node} {head a b prev : ℕ} {ps qs : List ℕ} {shape : Shape}

/-- Only `next` fields of the given cells differ. -/
structure Relinked (ps : List ℕ) (m m' : Memory Node) : Prop where
  val : ∀ p, (m'.cell p).map Node.val = (m.cell p).map Node.val
  frame : ∀ p, p ∉ ps → m'.cell p = m.cell p

theorem Relinked.trans (h : Relinked ps m m') (h' : Relinked ps m' m'') : Relinked ps m m'' :=
  ⟨fun p ↦ (h'.val p).trans (h.val p), fun p hp ↦ (h'.frame p hp).trans (h.frame p hp)⟩

theorem Relinked.mono (h : Relinked ps m m') (hsub : ps ⊆ qs) : Relinked qs m m' :=
  ⟨h.val, fun p hp ↦ h.frame p (fun hmem ↦ hp (hsub hmem))⟩

def reverseLoop (fuel : ℕ) (s : Reversal) : Except Stop Reversal :=
  whileFuel .timeout (fun s : Reversal ↦ s.head != 0) Reversal.pass fuel s

theorem reverseLoop_null (fuel : ℕ) (m : Memory Node) (prev : ℕ) :
    reverseLoop fuel ⟨prev, 0, m⟩ = .ok ⟨prev, 0, m⟩ := by
  cases fuel <;> rfl

/-- Walking along a path turns its links round and hangs it before `prev`. -/
theorem reverseLoop_segment (h : Segment Node.next m a ps b) (hnodup : ps.Nodup) (prev : ℕ) :
    ∃ m', (∀ fuel, reverseLoop (ps.length + fuel) ⟨prev, a, m⟩ =
        reverseLoop fuel ⟨ps.getLast?.getD prev, b, m'⟩) ∧
      Segment Node.next m' (ps.getLast?.getD prev) ps.reverse prev ∧ Relinked ps m m' := by
  induction ps generalizing m a prev with
  | nil =>
    cases h
    exact ⟨m, fun fuel ↦ by rw [List.length_nil, Nat.zero_add]; rfl, .nil prev,
      fun _ ↦ rfl, fun _ _ ↦ rfl⟩
  | cons p ps ih =>
    cases h with
    | @cons _ v _ _ cell rest =>
      obtain ⟨hp, hps⟩ := List.nodup_cons.mp hnodup
      obtain ⟨m₁, hpass, hcell⟩ := Reversal.pass_spec (s := ⟨prev, p, m⟩) cell
      have hkeep : ∀ q ∈ ps, m₁.cell q = m.cell q := by
        intro q hq
        rw [hcell, update_of_ne (ne_of_mem_of_not_mem hq hp)]
      obtain ⟨m', hrun, hseg, hlink⟩ := ih (rest.congr hkeep) hps p
      have hlast : (p :: ps).getLast?.getD prev = ps.getLast?.getD p := by
        rw [List.getLast?_cons, Option.getD_some]
      have hfirst : m'.cell p = some { v with next := prev } := by
        rw [hlink.frame p hp, hcell, update_self]
      refine ⟨m', fun fuel ↦ ?_, ?_, ?_, ?_⟩
      · have hne : ((⟨prev, p, m⟩ : Reversal).head != 0) = true := by
          simpa using Memory.ne_null cell
        rw [hlast, ← hrun fuel, List.length_cons, Nat.add_right_comm, reverseLoop, whileFuel,
          if_pos hne, hpass]
        rfl
      · rw [hlast, List.reverse_cons]
        exact segment_append hseg (.cons hfirst (.nil prev))
      · intro q
        rw [hlink.val q, hcell]
        rcases eq_or_ne q p with rfl | hne
        · rw [update_self, cell]
          rfl
        · rw [update_of_ne hne]
      · intro q hq
        rw [List.mem_cons, not_or] at hq
        rw [hlink.frame q hq.2, hcell, update_of_ne hq.1]

/-- The shape after the reversal: a chain is turned round, and of a lasso the
cycle, the tail being walked twice. -/
def reversed : Shape → Shape
  | .chain ps => .chain ps.reverse
  | .lasso tail entry cycle => .lasso tail entry cycle.reverse

def newHead (head : ℕ) : Shape → ℕ
  | .chain ps => ps.getLast?.getD 0
  | .lasso _ _ _ => head

theorem reversed_reversed (shape : Shape) : reversed (reversed shape) = shape := by
  cases shape <;> simp [reversed]

theorem reversed_nodes_perm (shape : Shape) : (reversed shape).nodes.Perm shape.nodes := by
  cases shape with
  | chain ps => exact List.reverse_perm ps
  | lasso tail entry cycle => exact ((List.reverse_perm cycle).cons entry).append_left tail

theorem returns_of_loop {k : ℕ}
    (h : ∀ fuel, reverseLoop (k + fuel) ⟨0, head, m⟩ = .ok ⟨a, 0, m'⟩) :
    Returns (fun fuel ↦ listReverse fuel m head) (a, m') := by
  refine ⟨k, fun fuel hfuel ↦ ?_⟩
  obtain ⟨rest, rfl⟩ := Nat.exists_eq_add_of_le hfuel
  have hrun := h rest
  rw [reverseLoop] at hrun
  change listReverse (k + rest) m head = _
  rw [listReverse, hrun]
  rfl

theorem listReverse_shaped (h : Shaped Node.next m head shape) :
    ∃ m', Returns (fun fuel ↦ listReverse fuel m head) (newHead head shape, m') ∧
      Shaped Node.next m' (newHead head shape) (reversed shape) ∧
      Relinked shape.nodes m m' := by
  cases shape with
  | chain ps =>
    obtain ⟨m', hrun, hseg, hlink⟩ := reverseLoop_segment h (chain_nodup h) 0
    refine ⟨m', returns_of_loop (k := ps.length) (fun fuel ↦ ?_), hseg, hlink⟩
    rw [hrun, reverseLoop_null]
    rfl
  | lasso tail entry cycle =>
    obtain ⟨htail, hcycle, hnodup⟩ := h
    obtain ⟨hnt, hnc, hdisj⟩ := List.nodup_append.mp hnodup
    -- the tail is turned round, then the cycle, up to its entry again
    obtain ⟨m₁, hrun₁, hseg₁, hlink₁⟩ := reverseLoop_segment htail hnt 0
    generalize tail.getLast?.getD 0 = tailEnd at hrun₁ hseg₁
    have hcycle₁ : Segment Node.next m₁ entry (entry :: cycle) entry := by
      refine hcycle.congr (fun q hq ↦ hlink₁.frame q ?_)
      intro hmem
      exact hdisj q hmem q hq rfl
    obtain ⟨m₂, hrun₂, hseg₂, hlink₂⟩ := reverseLoop_segment hcycle₁ hnc tailEnd
    generalize (entry :: cycle).getLast?.getD tailEnd = cycleEnd at hrun₂ hseg₂
    rw [List.reverse_cons] at hseg₂
    obtain ⟨q, hback, hentry⟩ := segment_split hseg₂
    obtain rfl : q = entry := segment_start hentry
    have htail₂ : Segment Node.next m₂ tailEnd tail.reverse 0 := by
      refine hseg₁.congr (fun p hp ↦ hlink₂.frame p ?_)
      intro hmem
      exact hdisj p (List.mem_reverse.mp hp) p hmem rfl
    have hnodup₃ : (q :: tail.reverse).Nodup := by
      refine List.nodup_cons.mpr ⟨fun hmem ↦ ?_, (List.reverse_perm tail).nodup_iff.mpr hnt⟩
      exact hdisj q (List.mem_reverse.mp hmem) q List.mem_cons_self rfl
    -- and the tail is walked back to the old head
    obtain ⟨m₃, hrun₃, hseg₃, hlink₃⟩ :=
      reverseLoop_segment (segment_append hentry htail₂) hnodup₃ cycleEnd
    have hback₃ : Segment Node.next m₃ cycleEnd cycle.reverse q := by
      refine hback.congr (fun p hp ↦ hlink₃.frame p ?_)
      intro hmem
      rw [List.mem_reverse] at hp
      rcases List.mem_cons.mp hmem with rfl | hmem
      · exact (List.nodup_cons.mp hnc).1 hp
      · exact hdisj p (List.mem_reverse.mp hmem) p (List.mem_cons_of_mem _ hp) rfl
    have hhead : ([q] ++ tail.reverse).getLast?.getD cycleEnd = head := by
      rw [segment_start htail, List.singleton_append, List.getLast?_cons, Option.getD_some,
        List.getLast?_reverse]
    rw [hhead, List.reverse_append, List.reverse_reverse, List.reverse_singleton] at hseg₃
    obtain ⟨r, htail₃, hentry₃⟩ := segment_split hseg₃
    obtain rfl : r = q := segment_start hentry₃
    refine ⟨m₃, returns_of_loop
      (k := tail.length + ((r :: cycle).length + ([r] ++ tail.reverse).length)) (fun fuel ↦ ?_),
      ⟨htail₃, segment_append hentry₃ hback₃, ?_⟩, ?_⟩
    · rw [Nat.add_assoc, hrun₁, Nat.add_assoc, hrun₂, hrun₃, hhead, reverseLoop_null]
      rfl
    · exact (reversed_nodes_perm (.lasso tail r cycle)).nodup_iff.mpr hnodup
    · refine (hlink₁.mono ?_).trans ((hlink₂.mono ?_).trans (hlink₃.mono ?_))
      · exact List.subset_append_left _ _
      · exact List.subset_append_right _ _
      · intro p hp
        simp only [List.mem_append, List.mem_singleton, List.mem_reverse] at hp
        simp only [Shape.nodes, List.mem_append, List.mem_cons]
        rcases hp with rfl | hp
        · exact .inr (.inl rfl)
        · exact .inl hp

theorem newHead_reversed (h : Shaped Node.next m head shape) :
    newHead (newHead head shape) (reversed shape) = head := by
  cases shape with
  | lasso tail entry cycle => rfl
  | chain ps =>
    change ps.reverse.getLast?.getD 0 = head
    rw [List.getLast?_reverse]
    exact (segment_start h).symm

theorem shaped_ext (h : Shaped Node.next m head shape) (h' : Shaped Node.next m' head shape)
    (hlink : Relinked shape.nodes m m') : m' = m := by
  have hinj : ∀ v w : Node, v.next = w.next → v.val = w.val → v = w := by
    intro v w hnext hval
    cases v
    cases w
    simp_all
  refine Memory.ext (funext fun p ↦ ?_)
  rcases Decidable.em (p ∈ shape.nodes) with hp | hp
  · exact segment_cells hinj h.path h'.path hlink.val p hp
  · exact hlink.frame p hp

/-- On any heap without dangling pointers `list_reverse` ends. It changes
`next` fields of the list only, turns a chain round and the cycle of a lasso,
and undoes itself, so that `list_has_cycle` answers as before. -/
theorem list_reverse_involution (m : Memory Node) (head : ℕ) (h : Grounded Node.next m head) :
    ∃ head' m', Returns (fun fuel ↦ listReverse fuel m head) (head', m') ∧
      (∀ p, (m'.cell p).map Node.val = (m.cell p).map Node.val) ∧
      (∀ p, (∀ k, follow m head k ≠ p) → m'.cell p = m.cell p) ∧
      (∀ shape, Shaped Node.next m head shape →
        head' = newHead head shape ∧ Shaped Node.next m' head' (reversed shape)) ∧
      Returns (fun fuel ↦ listReverse fuel m' head') (head, m) ∧
      ∃ b, Returns (fun fuel ↦ listHasCycle fuel m head) b ∧
        Returns (fun fuel ↦ listHasCycle fuel m' head') b := by
  obtain ⟨shape, hshape⟩ := grounded_iff_shaped.mp h
  obtain ⟨m', hrun, hshape', hlink⟩ := listReverse_shaped hshape
  refine ⟨newHead head shape, m', hrun, hlink.val, ?_, ?_, ?_, ?_⟩
  · intro p hp
    apply hlink.frame
    intro hmem
    obtain ⟨k, hk⟩ := hshape.reaches p hmem
    exact hp k hk
  · intro other hother
    obtain ⟨m₁, hrun₁, hshape₁, -⟩ := listReverse_shaped hother
    obtain ⟨hhead, rfl⟩ := Prod.mk.inj (hrun.unique hrun₁)
    rw [hhead]
    exact ⟨rfl, hshape₁⟩
  · obtain ⟨m₂, hrun₂, hshape₂, hlink₂⟩ := listReverse_shaped hshape'
    rw [newHead_reversed hshape, reversed_reversed] at hshape₂
    rw [newHead_reversed hshape] at hrun₂
    have hsame : m₂ = m := by
      apply shaped_ext hshape hshape₂
      exact hlink.trans (hlink₂.mono (reversed_nodes_perm shape).subset)
    rwa [hsame] at hrun₂
  · obtain ⟨b, hb, hiff⟩ := list_has_cycle_iff m head h
    obtain ⟨b', hb', hiff'⟩ := list_has_cycle_iff m' _ hshape'.grounded
    have hlasso : (∃ tail entry cycle, shape = .lasso tail entry cycle) ↔
        ∃ tail entry cycle, reversed shape = .lasso tail entry cycle := by
      cases shape <;> simp [reversed]
    have hsame : b' = b := Bool.eq_iff_iff.mpr
      (hiff'.trans (hshape'.never_null_iff.trans
        (hlasso.symm.trans (hshape.never_null_iff.symm.trans hiff.symm))))
    exact ⟨b, hb, hsame ▸ hb'⟩

theorem list_reverse_tailed :
    ∃ m', Returns (fun fuel ↦ listReverse fuel tailedLoop 100) (100, m') ∧
      Shaped Node.next m' 100 (.lasso [100] 101 [103, 102]) ∧
      Returns (fun fuel ↦ listReverse fuel m' 100) (100, tailedLoop) := by
  obtain ⟨head', m', hrun, -, -, hshape, hback, -⟩ :=
    list_reverse_involution tailedLoop 100 tailedLoop_shaped.grounded
  obtain ⟨rfl, hturned⟩ := hshape _ tailedLoop_shaped
  exact ⟨m', hrun, hturned, hback⟩

end LowLevel.ProperC.LinkedListReverse
