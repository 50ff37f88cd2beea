import LowLevel.ProperC.LinkedListCycle

namespace LowLevel.ProperC.LinkedListMiddle

open Basis.AddressSpace Basis.PointerChain Basis.PointerShape Basis.Loop
open LinkedList LinkedListCycle

variable {m : Memory Node} {head : ℕ} {ps : List ℕ}

theorem chain_grounded (h : Chain Node.next m head ps) : Grounded Node.next m head :=
  grounded_iff_shaped.mpr ⟨.chain ps, h⟩

theorem follow_ne_null_iff (h : Chain Node.next m head ps) (k : ℕ) :
    follow m head k ≠ 0 ↔ k < ps.length := by
  rw [follow, chain_iterate h]
  rcases Nat.lt_or_ge k ps.length with hlt | hge
  · obtain ⟨v, hv⟩ := Option.isSome_iff_exists.mp (h.isSome _ (List.getElem_mem hlt))
    rw [List.getElem?_eq_getElem hlt]
    exact iff_of_true (Memory.ne_null hv) hlt
  · rw [List.getElem?_eq_none hge]
    exact iff_of_false (not_not.mpr rfl) (Nat.not_lt.mpr hge)

/-- `list_length` has counted the nodes before `temp`, and `n` are left. -/
structure Walked (m : Memory Node) (head : ℕ) (ps : List ℕ) (n : ℕ) (s : Counting) : Prop where
  place : s.count + n = ps.length
  temp : s.temp = follow m head s.count

theorem Walked.pass {n : ℕ} {s : Counting} (hchain : Chain Node.next m head ps)
    (h : Walked m head ps (n + 1) s) :
    (s.temp != 0) = true ∧ ∃ s', s.pass m = .ok s' ∧ Walked m head ps n s' := by
  have hplace := h.place
  have hlen := segment_length hchain (chain_nodup hchain)
  have hne : follow m head s.count ≠ 0 := (follow_ne_null_iff hchain _).mpr (by omega)
  obtain ⟨v, hload, hnext⟩ := load_follow (chain_grounded hchain) hne
  rw [← h.temp] at hload hne
  refine ⟨by simpa using hne, ⟨s.count + 1, v.next⟩, ?_, ⟨by dsimp only; omega, hnext⟩⟩
  rw [Counting.pass, hload, ok_bind, sizeAdd_of_lt (by omega)]
  rfl

theorem listLength_chain (h : Chain Node.next m head ps) :
    Returns (fun fuel ↦ listLength fuel m head) ps.length := by
  refine ⟨ps.length, fun fuel hfuel ↦ ?_⟩
  have hend : ∀ s, Walked m head ps 0 s → (s.temp != 0) = false := by
    intro s hs
    have hplace := hs.place
    have hnull : follow m head s.count = 0 := by
      by_contra hne
      have hlt := (follow_ne_null_iff h _).mp hne
      omega
    rw [hs.temp, hnull]
    rfl
  obtain ⟨s, hrun, hs⟩ := whileFuel_ok .timeout (Walked m head ps) hend
    (fun n s hs ↦ hs.pass h) hfuel (s := ⟨0, head⟩) ⟨Nat.zero_add _, rfl⟩
  have hplace := hs.place
  rw [Nat.add_zero] at hplace
  change listLength fuel m head = .ok ps.length
  rw [listLength, hrun, ← hplace]
  rfl

/-- The tortoise is `i` links from the head and the hare twice as many; at most
`n` strides are left. -/
structure Halving (m : Memory Node) (head : ℕ) (ps : List ℕ) (n : ℕ) (s : Race) : Prop where
  place : ∃ i, s = ⟨follow m head i, follow m head (2 * i)⟩ ∧ 2 * i < ps.length ∧
    ps.length ≤ i + n + 1

/-- Where the loop stops: the hare is on the last node or on the one before it. -/
def Stopped (m : Memory Node) (head : ℕ) (ps : List ℕ) (s : Race) : Prop :=
  ∃ i, s = ⟨follow m head i, follow m head (2 * i)⟩ ∧ 2 * i < ps.length ∧ ps.length ≤ 2 * i + 2

theorem Halving.stride {n : ℕ} {s : Race} (hchain : Chain Node.next m head ps)
    (h : Halving m head ps n s) :
    (∃ s', s.stride m = .ok (.inl s') ∧ Stopped m head ps s') ∨
      ∃ n' s', n = n' + 1 ∧ s.stride m = .ok (.inr s') ∧ Halving m head ps n' s' := by
  obtain ⟨i, rfl, hlt, hleft⟩ := h
  have hground := chain_grounded hchain
  have hahead := twoAhead_follow hground ((follow_ne_null_iff hchain _).mpr hlt)
  rcases Nat.lt_or_ge (2 * i + 2) ps.length with hgo | hend
  · have hne : follow m head (2 * i + 2) ≠ 0 := (follow_ne_null_iff hchain _).mpr hgo
    obtain ⟨u, v, w, hu, hunext, hv, hw, hwnext⟩ := load_race hground hne
    have htrue : (follow m head (2 * i + 2) != 0) = true := by simpa using hne
    obtain ⟨n, rfl⟩ := Nat.exists_eq_succ_of_ne_zero (show n ≠ 0 by omega)
    refine .inr ⟨n, ⟨follow m head (i + 1), follow m head (2 * (i + 1))⟩, rfl, ?_,
      ⟨i + 1, rfl, by omega, by omega⟩⟩
    rw [Race.stride, hahead, ok_bind, htrue, if_pos rfl, hu, ok_bind, hv, ok_bind, hw, ok_bind,
      hunext, hwnext]
    rfl
  · have hfalse : (follow m head (2 * i + 2) != 0) = false := by
      simpa using mt (follow_ne_null_iff hchain _).mp (Nat.not_lt.mpr hend)
    refine .inl ⟨_, ?_, i, rfl, hlt, hend⟩
    rw [Race.stride, hahead, ok_bind, hfalse]
    rfl

/-- The last step moves the tortoise on when the length is even. -/
theorem Stopped.middle {s : Race} (hchain : Chain Node.next m head ps)
    (h : Stopped m head ps s) :
    ∃ p v, ps[ps.length / 2]? = some p ∧ m.cell p = some v ∧ s.middle m = .ok v.val := by
  obtain ⟨i, rfl, hlt, hend⟩ := h
  have hhalf : ps.length / 2 < ps.length := by omega
  have hfollow : follow m head (ps.length / 2) = ps[ps.length / 2] := by
    rw [follow, chain_iterate hchain, List.getElem?_eq_getElem hhalf]
    rfl
  have hground := chain_grounded hchain
  obtain ⟨v, hv⟩ := Option.isSome_iff_exists.mp (hchain.isSome _ (List.getElem_mem hhalf))
  have hloadv : m.load (follow m head (ps.length / 2)) = .ok v := by
    rw [hfollow]
    exact Memory.load_eq hv
  refine ⟨_, v, List.getElem?_eq_getElem hhalf, hv, ?_⟩
  obtain ⟨w, hw, hwnext⟩ := load_follow hground ((follow_ne_null_iff hchain _).mpr hlt)
  rw [Race.middle]
  dsimp only
  rw [hw, ok_bind, hwnext]
  rcases Nat.lt_or_ge (2 * i + 1) ps.length with heven | hodd
  · have hi : ps.length / 2 = i + 1 := by omega
    obtain ⟨u, hu, hunext⟩ := load_follow hground
      ((follow_ne_null_iff hchain i).mpr (by omega))
    rw [if_pos ((follow_ne_null_iff hchain _).mpr heven), hu, ok_bind, hunext, ← hi,
      hloadv]
    rfl
  · have hi : ps.length / 2 = i := by omega
    rw [if_neg (mt (follow_ne_null_iff hchain _).mp (Nat.not_lt.mpr hodd)), ← hi, hloadv]
    rfl

/-- On a list of `n` nodes `list_length` answers `n` and `list_middle` the value
of node `n / 2`. Both end, load from nodes only and write nothing. -/
theorem list_middle_second (m : Memory Node) (head : ℕ) (ps : List ℕ)
    (h : Chain Node.next m head ps) (hne : ps ≠ []) :
    Returns (fun fuel ↦ listLength fuel m head) ps.length ∧
      ∃ p v, ps[ps.length / 2]? = some p ∧ m.cell p = some v ∧
        Returns (fun fuel ↦ listMiddle fuel m head) v.val := by
  refine ⟨listLength_chain h, ?_⟩
  have hpos : 0 < ps.length := List.length_pos_of_ne_nil hne
  have hhead : head ≠ 0 := mt h.null_iff.mp hne
  have hstart : Halving m head ps (ps.length - 1) ⟨head, head⟩ := ⟨0, rfl, hpos, by omega⟩
  let Middle : Int32 → Prop := fun x ↦
    ∃ p v, ps[ps.length / 2]? = some p ∧ m.cell p = some v ∧ v.val = x
  have hunique : ∀ x x', Middle x → Middle x' → x = x' := by
    intro x x' hx hx'
    obtain ⟨p, v, hp, hv, rfl⟩ := hx
    obtain ⟨p', v', hp', hv', rfl⟩ := hx'
    rw [hp] at hp'
    cases hp'
    rw [hv] at hv'
    cases hv'
    rfl
  have hrun : ∀ fuel, ps.length ≤ fuel → ∃ x, listMiddle fuel m head = .ok x ∧ Middle x := by
    intro fuel hfuel
    have hlt : ps.length - 1 < fuel := by omega
    obtain ⟨s, hloop, hs⟩ :=
      loopFuel_ok .timeout (Halving m head ps) _ (fun n s hs ↦ hs.stride h) hlt hstart
    obtain ⟨p, v, hp, hv, hmiddle⟩ := hs.middle h
    refine ⟨v.val, ?_, p, v, hp, hv, rfl⟩
    rw [listMiddle, if_neg hhead, hloop]
    exact hmiddle
  obtain ⟨x, hreturns, p, v, hp, hv, rfl⟩ := exists_returns hrun hunique
  exact ⟨p, v, hp, hv, hreturns⟩

theorem list_middle_two :
    ∃ m : Memory Node, Returns (fun fuel ↦ listLength fuel m 100) 2 ∧
      ∃ p v, [100, 101][2 / 2]? = some p ∧ m.cell p = some v ∧
        Returns (fun fuel ↦ listMiddle fuel m 100) v.val :=
  ⟨Memory.ofList 100 [⟨7, 101⟩, ⟨8, 0⟩] (by omega) (by simp),
    list_middle_second _ 100 [100, 101] (.cons (v := ⟨7, 101⟩) rfl (.cons (v := ⟨8, 0⟩) rfl .nil))
      (by simp)⟩

end LowLevel.ProperC.LinkedListMiddle
