import LowLevel.ProperC.LinkedListCycle
import LowLevel.ProperC.LinkedListMiddle

namespace LowLevel.ProperC.LinkedListWalks

open Function Basis.AddressSpace Basis.PointerChain Basis.PointerShape Basis.Loop LinkedList
open LinkedListCycle LinkedListMiddle

variable {m m' : Memory Node} {head a b : ℕ} {ps freed : List ℕ}

/-- The answer of the race on a heap without dangling pointers. -/
theorem listHasCycle_returns {b : Bool} (h : Grounded Node.next m head)
    (hb : b = true ↔ ∀ k, follow m head k ≠ 0) :
    Returns (fun fuel ↦ listHasCycle fuel m head) b := by
  rcases eq_or_ne head 0 with rfl | hhead
  · obtain rfl : b = false := by
      cases b with
      | false => rfl
      | true => exact absurd rfl (hb.mp rfl 0)
    exact ⟨0, fun fuel _ ↦ if_pos rfl⟩
  · obtain ⟨last, hpos, hmeet⟩ := exists_iterate_double (Set.finite_lt_nat (2 ^ 64)) h.finite
    refine ⟨last, fun fuel hfuel ↦ ?_⟩
    obtain ⟨b', hrun, hb'⟩ := loopFuel_ok Stop.timeout (Racing m head last) _
      (fun n s hs ↦ hs.pass h hmeet) (show last - 1 < fuel by omega)
      ⟨0, by omega, rfl, hhead⟩
    obtain rfl : b' = b := Bool.eq_iff_iff.mpr (hb'.trans hb.symm)
    exact (if_neg hhead).trans hrun

section endless

variable (hground : Grounded Node.next m head) (hgo : ∀ k, follow m head k ≠ 0)

include hground hgo

theorem listLength_endless (fuel : ℕ) : listLength fuel m head = .error .timeout := by
  have hloop : whileFuel .timeout (fun s : Counting ↦ s.temp != 0) (Counting.pass m) fuel
      ⟨0, head⟩ = .error .timeout := by
    refine whileFuel_timeout Stop.timeout (fun s : Counting ↦ ∃ k, s.temp = follow m head k) ?_ fuel
      ⟨0, rfl⟩
    rintro s ⟨k, hk⟩
    obtain ⟨v, hload, hnext⟩ := load_follow hground (hgo k)
    refine ⟨by simpa [hk] using hgo k, ⟨sizeAdd s.count 1, v.next⟩, ?_, k + 1, hnext⟩
    rw [Counting.pass, hk, hload]
    rfl
  rw [listLength, hloop]
  rfl

theorem listMiddle_endless (fuel : ℕ) : listMiddle fuel m head = .error .timeout := by
  have hhead : head ≠ 0 := hgo 0
  have hloop : loopFuel .timeout (Race.stride m) fuel ⟨head, head⟩ = .error .timeout := by
    refine loopFuel_timeout Stop.timeout
      (fun s : Race ↦ ∃ i, s = ⟨follow m head i, follow m head (2 * i)⟩) ?_ fuel ⟨0, rfl⟩
    rintro s ⟨i, rfl⟩
    obtain ⟨u, v, w, hu, hunext, hv, hw, hwnext⟩ := load_race hground (hgo (2 * i + 2))
    refine ⟨⟨u.next, w.next⟩, ?_, i + 1, by rw [hunext, hwnext]; rfl⟩
    have htrue : (follow m head (2 * i + 2) != 0) = true := by simpa using hgo _
    rw [Race.stride, twoAhead_follow hground (hgo (2 * i)), ok_bind, htrue, if_pos rfl, hu, ok_bind,
      hv, ok_bind, hw]
    rfl
  rw [listMiddle, if_neg hhead, hloop]
  rfl

end endless

/-- `m'` is `m` without the cells `ps`. -/
structure Erased (m : Memory Node) (ps : List ℕ) (m' : Memory Node) : Prop where
  gone : ∀ p ∈ ps, m'.cell p = none
  kept : ∀ p, p ∉ ps → m'.cell p = m.cell p

def freeLoop (fuel : ℕ) (s : Freeing) : Except Stop Freeing :=
  whileFuel .timeout (fun s : Freeing ↦ s.head != 0) Freeing.pass fuel s

theorem Freeing.pass_spec {s : Freeing} {v : Node} (cell : s.mem.cell s.head = some v) :
    ∃ m', s.pass = .ok ⟨s.freed ++ [s.head], v.next, m'⟩ ∧
      m'.cell = update s.mem.cell s.head none := by
  obtain ⟨m', hrelease, hcell⟩ := Memory.release_spec cell
  refine ⟨m', ?_, hcell⟩
  rw [Freeing.pass, Memory.load_eq cell, ok_bind, hrelease]
  rfl

/-- Along a segment every node is freed once, in order. -/
theorem freeLoop_segment (h : Segment Node.next m a ps b) (hnodup : ps.Nodup) (freed : List ℕ) :
    ∃ m', Erased m ps m' ∧ ∀ fuel, freeLoop (fuel + ps.length) ⟨freed, a, m⟩ =
      freeLoop fuel ⟨freed ++ ps, b, m'⟩ := by
  induction ps generalizing m a freed with
  | nil =>
    cases h
    exact ⟨m, ⟨by simp, fun _ _ ↦ rfl⟩, fun fuel ↦ by simp⟩
  | cons p ps ih =>
    cases h with
    | @cons _ v _ _ cell rest =>
      obtain ⟨hp, hps⟩ := List.nodup_cons.mp hnodup
      obtain ⟨m₁, hpass, hcell⟩ := Freeing.pass_spec (s := ⟨freed, p, m⟩) cell
      have hsame : ∀ q ∈ ps, m₁.cell q = m.cell q := by
        intro q hq
        rw [hcell, update_of_ne (ne_of_mem_of_not_mem hq hp)]
      obtain ⟨m', herased, hrun⟩ := ih (rest.congr hsame) hps (freed ++ [p])
      refine ⟨m', ⟨?_, ?_⟩, ?_⟩
      · intro q hq
        rcases List.mem_cons.mp hq with rfl | hq
        · rw [herased.kept q hp, hcell, update_self]
        · exact herased.gone q hq
      · intro q hq
        rw [List.mem_cons, not_or] at hq
        rw [herased.kept q hq.2, hcell, update_of_ne hq.1]
      · intro fuel
        have hne : (p != 0) = true := by simpa using Memory.ne_null cell
        rw [List.length_cons, ← Nat.add_assoc, freeLoop, whileFuel, if_pos hne, hpass]
        have hstep := hrun fuel
        rw [List.append_assoc, List.singleton_append] at hstep
        exact hstep

/-- On a list that ends, every node is freed once and nothing else. -/
theorem listFree_chain (h : Chain Node.next m head ps) :
    ∃ m', Returns (fun fuel ↦ listFree fuel m head) (ps, m') ∧ Erased m ps m' := by
  obtain ⟨m', herased, hrun⟩ := freeLoop_segment h (chain_nodup h) []
  refine ⟨m', ⟨ps.length, fun fuel hfuel ↦ ?_⟩, herased⟩
  obtain ⟨k, rfl⟩ := Nat.exists_eq_add_of_le' hfuel
  have hend : freeLoop k ⟨ps, 0, m'⟩ = .ok ⟨ps, 0, m'⟩ := by cases k <;> rfl
  change (freeLoop (k + ps.length) ⟨[], head, m⟩).map _ = _
  rw [hrun k, List.nil_append, hend]
  rfl

/-- The loop of `list_free` frees the nodes `ps` in order, each of them once and
nothing else, and is then at `entry`, which is one of them. -/
def FreesThenReturns (m : Memory Node) (head : ℕ) (ps : List ℕ) (entry : ℕ) : Prop :=
  entry ∈ ps ∧ ps.Nodup ∧ ∃ m', Erased m ps m' ∧ ∀ fuel,
    freeLoop (fuel + ps.length) ⟨[], head, m⟩ = freeLoop fuel ⟨ps, entry, m'⟩

theorem freesThenReturns_lasso {tail cycle : List ℕ} {entry : ℕ}
    (h : Shaped Node.next m head (.lasso tail entry cycle)) :
    FreesThenReturns m head (tail ++ entry :: cycle) entry :=
  ⟨by simp, h.nodup, freeLoop_segment h.path h.nodup []⟩

/-- The next step reads what was freed. -/
theorem FreesThenReturns.listFree {entry : ℕ} (h : FreesThenReturns m head ps entry)
    (hentry : (m.cell entry).isSome) (fuel : ℕ) (hfuel : ps.length < fuel) :
    listFree fuel m head = .error (.load entry) := by
  obtain ⟨hmem, -, m', herased, hrun⟩ := h
  obtain ⟨k, rfl⟩ := Nat.exists_eq_add_of_le' (Nat.succ_le_of_lt hfuel)
  have hgone : m'.cell entry = none := herased.gone entry hmem
  have hne : (entry != 0) = true := by
    obtain ⟨v, hv⟩ := Option.isSome_iff_exists.mp hentry
    simpa using Memory.ne_null hv
  have hstop : freeLoop (k + 1) ⟨ps, entry, m'⟩ = .error (.load entry) := by
    rw [freeLoop, whileFuel, if_pos hne, Freeing.pass, Memory.load, hgone]
    rfl
  have hsum : k + ps.length.succ = k + 1 + ps.length := by omega
  change (freeLoop (k + ps.length.succ) ⟨[], head, m⟩).map _ = _
  rw [hsum, hrun (k + 1)]
  exact congrArg (Except.map _) hstop

/-- On a heap without dangling pointers `list_has_cycle` tells what the other
walks do: after `false` they end, `list_free` having freed each node of the
list once and nothing else; after `true` `list_length` and `list_middle` never
return, and `list_free` frees each node once and nothing else, and then reads
the entry of the cycle, which it has freed. -/
theorem walks_after_has_cycle (m : Memory Node) (head : ℕ) (h : Grounded Node.next m head) :
    (Returns (fun fuel ↦ listHasCycle fuel m head) false ∧ ∃ ps, Chain Node.next m head ps ∧
      Returns (fun fuel ↦ listLength fuel m head) ps.length ∧
      ∃ m', Returns (fun fuel ↦ listFree fuel m head) (ps, m') ∧ Erased m ps m') ∨
    (Returns (fun fuel ↦ listHasCycle fuel m head) true ∧
      (∀ fuel, listLength fuel m head = .error .timeout) ∧
      (∀ fuel, listMiddle fuel m head = .error .timeout) ∧
      ∃ tail entry cycle, Shaped Node.next m head (.lasso tail entry cycle) ∧
        FreesThenReturns m head (tail ++ entry :: cycle) entry ∧
        ∀ fuel, (tail ++ entry :: cycle).length < fuel →
          listFree fuel m head = .error (.load entry)) := by
  obtain ⟨shape, hshape⟩ := grounded_iff_shaped.mp h
  cases shape with
  | chain ps =>
    have hno : ¬ ∀ k, follow m head k ≠ 0 := fun hall ↦ hall ps.length (segment_end hshape)
    have hfalse := listHasCycle_returns h (iff_of_false Bool.false_ne_true hno)
    exact .inl ⟨hfalse, ps, hshape, listLength_chain hshape, listFree_chain hshape⟩
  | lasso tail entry cycle =>
    have hgo : ∀ k, follow m head k ≠ 0 := hshape.never_null_iff.mpr ⟨tail, entry, cycle, rfl⟩
    have htrue := listHasCycle_returns h (iff_of_true rfl hgo)
    have hfrees := freesThenReturns_lasso hshape
    have hentry : (m.cell entry).isSome := hshape.path.isSome entry (by simp [Shape.nodes])
    exact .inr ⟨htrue, listLength_endless h hgo, listMiddle_endless h hgo, tail, entry, cycle,
      hshape, hfrees, hfrees.listFree hentry⟩

theorem walks_after_has_cycle_tailed :
    (¬ ∃ n, Returns (fun fuel ↦ listLength fuel tailedLoop 100) n) ∧
      ∃ ps entry, FreesThenReturns tailedLoop 100 ps entry := by
  rcases walks_after_has_cycle tailedLoop 100 tailedLoop_shaped.grounded with
    ⟨-, ps, hps, -⟩ | ⟨-, hlen, -, tail, entry, cycle, -, hfrees, -⟩
  · have hgo := tailedLoop_shaped.never_null_iff.mpr ⟨_, _, _, rfl⟩
    exact absurd (segment_end hps) (hgo ps.length)
  · refine ⟨?_, _, entry, hfrees⟩
    rintro ⟨n, k, hk⟩
    cases (hlen k).symm.trans (hk k (Nat.le_refl k))

end LowLevel.ProperC.LinkedListWalks
