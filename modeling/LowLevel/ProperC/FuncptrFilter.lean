import LowLevel.ProperC.Funcptr

namespace LowLevel.ProperC.FuncptrFilter

open Function Basis.AddressSpace Basis.Loop Funcptr

variable {m : Memory Int32} {src dst i : ℕ} {l : List Int32} {pred : Int32 → Bool} {s : Filtering}

/-- `int_filter` after `i` passes: behind the elements kept so far the memory
is untouched. -/
structure Compacted (m : Memory Int32) (dst : ℕ) (l : List Int32) (pred : Int32 → Bool) (i : ℕ)
    (s : Filtering) : Prop where
  count : s.count = ((l.take i).filter pred).length
  holds : s.mem.Holds dst ((l.take i).filter pred)
  frame : Memory.Outside dst (dst + s.count) m s.mem

theorem Compacted.count_le (h : Compacted m dst l pred i s) : s.count ≤ i := by
  rw [h.count]
  exact Nat.le_trans (List.length_filter_le _ _) (List.length_take_le _ _)

/-- The room that `int_filter` needs, and where it may be. -/
structure Target (m : Memory Int32) (src dst : ℕ) (l : List Int32) (pred : Int32 → Bool) :
    Prop where
  room : ∀ j < (l.filter pred).length, (m.cell (dst + j)).isSome
  place : dst = src ∨ dst + (l.filter pred).length ≤ src ∨ src + l.length ≤ dst

/-- The write index never passes the read index. -/
theorem Compacted.unread (h : Compacted m dst l pred i s) (ht : Target m src dst l pred)
    (hi : i < l.length) : s.mem.cell (src + i) = m.cell (src + i) := by
  have hle := h.count_le
  have hcount : s.count ≤ (l.filter pred).length := by
    rw [h.count]
    exact ((List.take_sublist i l).filter pred).length_le
  apply h.frame
  rcases ht.place with heq | hbefore | hafter
  · exact .inr (by omega)
  · exact .inr (by omega)
  · exact .inl (by omega)

theorem Compacted.pass (hsrc : m.Holds src l) (ht : Target m src dst l pred) (hi : i < l.length)
    (h : Compacted m dst l pred i s) :
    ∃ s', s.pass src dst pred i = .ok s' ∧ Compacted m dst l pred (i + 1) s' := by
  have hcell : s.mem.cell (src + i) = some l[i] :=
    (h.unread ht hi).trans (hsrc i l[i] (List.getElem?_eq_getElem hi))
  have hload := Memory.load_eq hcell
  have htake : (l.take (i + 1)).filter pred = (l.take i).filter pred ++ [l[i]].filter pred := by
    rw [← List.take_append_getElem hi, List.filter_append]
  rw [Filtering.pass, hload, ok_bind]
  cases hpred : pred l[i] with
  | false =>
    have hsame : (l.take (i + 1)).filter pred = (l.take i).filter pred := by
      rw [htake, List.filter_singleton, hpred]
      exact List.append_nil _
    exact ⟨s, rfl, ⟨hsame ▸ h.count, hsame ▸ h.holds, h.frame⟩⟩
  | true =>
    have hmore : (l.take (i + 1)).filter pred = (l.take i).filter pred ++ [l[i]] := by
      rw [htake, List.filter_singleton, hpred]
      rfl
    have hlen := congrArg List.length hmore
    rw [List.length_append, List.length_singleton, ← h.count] at hlen
    have hroom : s.count < (l.filter pred).length := by
      have hle := ((List.take_sublist (i + 1) l).filter pred).length_le
      omega
    have ha : (s.mem.cell (dst + s.count)).isSome := by
      rw [h.frame _ (.inr (Nat.le_refl _))]
      exact ht.room _ hroom
    have hsize : sizeAdd s.count 1 = s.count + 1 := by
      have hle := h.count_le
      have hlt := hsrc.length_lt
      exact sizeAdd_of_lt (by omega)
    rw [if_pos rfl, ok_bind, Memory.store_eq ha, ok_bind, hsize]
    refine ⟨_, rfl, hlen.symm, ?_, ?_⟩
    · rw [hmore]
      apply Memory.Holds.concat
      · apply h.holds.congr
        intro j hj
        rw [Memory.write_cell, update_of_ne]
        have hcount := h.count
        omega
      · rw [← h.count, Memory.write_cell, update_self]
    · refine Memory.Outside.trans (fun a ha ↦ h.frame a ?_)
        (Memory.outside_write ha _ (Nat.le_add_right _ _) (by dsimp only; omega))
      dsimp only at ha
      omega

/-- `int_filter` keeps the elements that satisfy the predicate, in order, and
writes nothing behind them, in place as well as into another buffer. -/
theorem int_filter_compacts (m : Memory Int32) (src dst : ℕ) (l : List Int32)
    (pred : Int32 → Bool) (h : m.Holds src l) (ht : Target m src dst l pred) :
    (l.filter pred).length ≤ l.length ∧
      ∃ m', intFilter m src l.length dst pred = .ok ((l.filter pred).length, m') ∧
        m'.Holds dst (l.filter pred) ∧
        Memory.Outside dst (dst + (l.filter pred).length) m m' := by
  refine ⟨List.length_filter_le _ _, ?_⟩
  have hstart : Compacted m dst l pred 0 ⟨0, m⟩ := ⟨rfl, fun i v hv ↦ by simp at hv, fun _ _ ↦ rfl⟩
  obtain ⟨s, hrun, hs⟩ := forRange_ok (Compacted m dst l pred) (Nat.zero_le l.length) hstart
    (fun i _ hi s hs ↦ hs.pass h ht hi)
  obtain ⟨hcount, hholds, hframe⟩ := hs
  rw [List.take_length] at hcount hholds
  rw [hcount] at hframe
  refine ⟨s.mem, ?_, hholds, hframe⟩
  rw [intFilter, hrun, ← hcount]
  rfl

theorem int_filter_in_place :
    ∃ m', intFilter (Memory.sample [3, -1, 4] (by decide)) 100 3 100 (fun x ↦ 0 < x) =
        .ok (2, m') ∧ m'.Holds 100 [3, 4] := by
  have hholds := Memory.holds_sample (l := ([3, -1, 4] : List Int32)) (by decide)
  obtain ⟨-, m', hrun, hm', -⟩ := int_filter_compacts _ 100 100 [3, -1, 4] (fun x ↦ 0 < x) hholds
    ⟨fun j hj ↦ hholds.isSome (Nat.lt_of_lt_of_le hj (List.length_filter_le _ _)), .inl rfl⟩
  exact ⟨m', hrun, hm'⟩

end LowLevel.ProperC.FuncptrFilter
