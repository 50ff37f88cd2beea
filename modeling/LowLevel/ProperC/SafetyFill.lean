import LowLevel.ProperC.Safety

namespace LowLevel.ProperC.SafetyFill

open Basis.AddressSpace Basis.Loop Safety Function

/-- One pass of the copy loops: a source byte while there is one, then NUL. -/
def fillByte (dst src len off i : ℕ) (m : Memory UInt8) : Except Stop (Memory UInt8) :=
  if i - off < len then (m.load (src + (i - off))).bind (fun c ↦ m.store (dst + i) c)
  else m.store (dst + i) 0

variable {m m' : Memory UInt8} {dst src len off hi i : ℕ}

/-- What the copy loops leave. The source may overlap the destination as far
as the frame is concerned. -/
structure Filled (m : Memory UInt8) (dst src len off hi i : ℕ) (m' : Memory UInt8) : Prop where
  domain : m.SameDomain m'
  frame : Memory.Outside (dst + off) (dst + hi) m m'
  bytes : (∀ j < len, src + j < dst + off ∨ dst + hi ≤ src + j) → ∀ j, off ≤ j → j < i →
    m'.cell (dst + j) = if j - off < len then m.cell (src + (j - off)) else some 0

theorem Filled.store (h : Filled m dst src len off hi i m')
    (hlo : off ≤ i) (hhi : i < hi) (ha : (m'.cell (dst + i)).isSome) (c : UInt8)
    (hc : (∀ j < len, src + j < dst + off ∨ dst + hi ≤ src + j) →
      some c = if i - off < len then m.cell (src + (i - off)) else some 0) :
    Filled m dst src len off hi (i + 1) (m'.write (dst + i) (some c) ha) where
  domain := h.domain.trans (Memory.sameDomain_write ha c)
  frame := h.frame.trans (Memory.outside_write ha _ (by omega) (by omega))
  bytes := by
    intro hap j hj hlt
    rcases eq_or_ne j i with heq | hne
    · subst heq
      simpa using hc hap
    · have hne' : dst + j ≠ dst + i := by omega
      rw [Memory.write_cell, update_of_ne hne']
      exact h.bytes hap j hj (by omega)

theorem filled_start : Filled m dst src len off hi off m :=
  ⟨fun _ ↦ rfl, fun _ _ ↦ rfl, fun _ _ hj hlt ↦ absurd hlt (Nat.not_lt.mpr hj)⟩

theorem Filled.reads (h : Filled m dst src len off hi i m')
    (hsrc : ∀ j < len, (m.cell (src + j)).isSome) :
    ∃ c, fillByte dst src len off i m' = m'.store (dst + i) c ∧
      ((∀ j < len, src + j < dst + off ∨ dst + hi ≤ src + j) →
        some c = if i - off < len then m.cell (src + (i - off)) else some 0) := by
  rcases Nat.lt_or_ge (i - off) len with hlen | hlen
  · have hs : (m'.cell (src + (i - off))).isSome := (h.domain _).trans (hsrc _ hlen)
    obtain ⟨c, hc⟩ := Option.isSome_iff_exists.mp hs
    refine ⟨c, ?_, ?_⟩
    · rw [fillByte, if_pos hlen, Memory.load_eq hc]
      rfl
    · intro hap
      rw [if_pos hlen, ← hc]
      exact h.frame _ (hap _ hlen)
  · have hge : ¬ i - off < len := Nat.not_lt.mpr hlen
    exact ⟨0, by rw [fillByte, if_neg hge], fun _ ↦ by rw [if_neg hge]⟩

theorem Filled.pass (h : Filled m dst src len off hi i m')
    (hsrc : ∀ j < len, (m.cell (src + j)).isSome) (hlo : off ≤ i) (hhi : i < hi)
    (ha : (m'.cell (dst + i)).isSome) :
    ∃ m'', fillByte dst src len off i m' = .ok m'' ∧ Filled m dst src len off hi (i + 1) m'' := by
  obtain ⟨c, hbyte, hc⟩ := h.reads hsrc
  exact ⟨_, hbyte.trans (Memory.store_eq ha c), h.store hlo hhi ha c hc⟩

theorem fill_spec (off hi : ℕ) (hsrc : ∀ j < len, (m.cell (src + j)).isSome)
    (hdst : ∀ i, off ≤ i → i < hi → (m.cell (dst + i)).isSome) :
    ∃ m', forRange (fillByte dst src len off) off hi m = .ok m' ∧
      Filled m dst src len off hi hi m' := by
  rcases Nat.lt_or_ge hi off with hlt | hle
  · refine ⟨m, forRange_empty (Nat.le_of_lt hlt), fun _ ↦ rfl, fun _ _ ↦ rfl, ?_⟩
    intro _ j hj hjhi
    omega
  · refine forRange_ok (Filled m dst src len off hi) hle filled_start ?_
    intro i hlo hhi m' h
    exact h.pass hsrc hlo hhi ((h.domain _).trans (hdst i hlo hhi))

structure Finished (m : Memory UInt8) (dst dstsize src len off : ℕ) (m' : Memory UInt8) : Prop where
  domain : m.SameDomain m'
  frame : Memory.Outside dst (dst + dstsize) m m'
  kept : ∀ j < off, j < dstsize - 1 → m'.cell (dst + j) = m.cell (dst + j)
  bytes : (∀ j < len, src + j < dst ∨ dst + dstsize ≤ src + j) → ∀ j, off ≤ j → j < dstsize - 1 →
    m'.cell (dst + j) = if j - off < len then m.cell (src + (j - off)) else some 0
  nul : m'.cell (dst + (dstsize - 1)) = some 0

theorem Filled.finish {dstsize : ℕ} {m' : Memory UInt8}
    (h : Filled m dst src len off (dstsize - 1) (dstsize - 1) m') (hsize : 1 ≤ dstsize)
    (ha : (m'.cell (dst + (dstsize - 1))).isSome) :
    Finished m dst dstsize src len off (m'.write (dst + (dstsize - 1)) (some 0) ha) where
  domain := h.domain.trans (Memory.sameDomain_write ha 0)
  frame := by
    refine Memory.Outside.trans (fun a ha ↦ h.frame a ?_)
      (Memory.outside_write ha _ (by omega) (by omega))
    omega
  kept := by
    intro j hj hlt
    have hne : dst + j ≠ dst + (dstsize - 1) := by omega
    rw [Memory.write_cell, update_of_ne hne]
    exact h.frame _ (by omega)
  bytes := by
    intro hap j hj hlt
    have hne : dst + j ≠ dst + (dstsize - 1) := by omega
    rw [Memory.write_cell, update_of_ne hne]
    refine h.bytes (fun i hi ↦ ?_) j hj hlt
    have hi' := hap i hi
    omega
  nul := by simp

variable {s t : List UInt8} {dstsize : ℕ}

theorem sizeSub_one (hsize : 1 ≤ dstsize) (hlt : dstsize < 2 ^ 64) :
    sizeSub dstsize 1 = dstsize - 1 := sizeSub_of_le hsize hlt

theorem dstsize_lt (hsize : 1 ≤ dstsize) (hbuf : ∀ i < dstsize, (m.cell (dst + i)).isSome) :
    dst + (dstsize - 1) < 2 ^ 64 ∧ 0 < dst := by
  obtain ⟨c, hc⟩ := Option.isSome_iff_exists.mp (hbuf (dstsize - 1) (by omega))
  obtain ⟨d, hd⟩ := Option.isSome_iff_exists.mp (hbuf 0 hsize)
  have hne := Memory.ne_null hd
  exact ⟨Memory.lt_top hc, by omega⟩

/-- The copy loop with the final NUL, as both string functions end. -/
def fillFinish (m : Memory UInt8) (dst dstsize src len off : ℕ) : Except Stop (Memory UInt8) :=
  (forRange (fillByte dst src len off) off (sizeSub dstsize 1) m).bind
    (fun m ↦ m.store (dst + sizeSub dstsize 1) 0)

theorem fillFinish_spec (off : ℕ) (hsrc : ∀ j < len, (m.cell (src + j)).isSome)
    (hsize : 1 ≤ dstsize) (hbuf : ∀ i < dstsize, (m.cell (dst + i)).isSome) :
    ∃ m', fillFinish m dst dstsize src len off = .ok m' ∧
      Finished m dst dstsize src len off m' := by
  obtain ⟨htop, hpos⟩ := dstsize_lt hsize hbuf
  obtain ⟨m₁, hrun, hfill⟩ := fill_spec off (dstsize - 1) hsrc
    (fun i _ hlt ↦ hbuf i (by omega))
  have ha : (m₁.cell (dst + (dstsize - 1))).isSome :=
    (hfill.domain _).trans (hbuf _ (by omega))
  refine ⟨_, ?_, hfill.finish hsize ha⟩
  rw [fillFinish, sizeSub_one hsize (by omega), hrun]
  exact Memory.store_eq ha 0

/-- Without a buffer the last index is `2 ^ 64 - 1`, and no address that far up
is allocated: a store of the loop fails, or the final one does. -/
theorem fillFinish_zero (off : ℕ) (hsrc : ∀ j < len, (m.cell (src + j)).isSome) (hpos : 0 < dst)
    (hoff : off < 2 ^ 64) :
    ∃ a, dst ≤ a ∧ fillFinish m dst 0 src len off = .error (.store a) := by
  have hlast : sizeSub 0 1 = 2 ^ 64 - 1 := by
    unfold sizeSub
    omega
  have hloop := forRange_or_error (fillByte dst src len off)
    (Filled m dst src len off (sizeSub 0 1)) (fun e ↦ ∃ a, dst ≤ a ∧ e = .store a)
    (by omega : off ≤ sizeSub 0 1) filled_start (by
    intro i hlo hhi m' h
    cases ha : m'.cell (dst + i) with
    | some c => exact .inl (h.pass hsrc hlo hhi (by rw [ha]; rfl))
    | none =>
      obtain ⟨c, hbyte, -⟩ := h.reads hsrc
      exact .inr ⟨_, hbyte.trans (Memory.store_none ha c), _, Nat.le_add_right dst i, rfl⟩)
  rw [fillFinish]
  rcases hloop with ⟨m', hrun, -⟩ | ⟨e, hrun, a, hle, rfl⟩
  · rw [hrun]
    exact ⟨_, Nat.le_add_right _ _, Memory.store_none (m'.top _ (by omega)) 0⟩
  · rw [hrun]
    exact ⟨a, hle, rfl⟩

theorem safeStrcpy_zero (hs : CStr m src s) : safeStrcpy m dst 0 src = .ok (s.length, m) := by
  rw [safeStrcpy, strlen_eq hs]
  rfl

theorem finish_eq {β : Type} (loop : Except Stop (Memory UInt8)) (a : ℕ) (r : β) :
    (do
      let m ← loop
      let m ← m.store a 0
      return (r, m)) = (loop.bind (fun m ↦ m.store a 0)).map (fun m ↦ (r, m)) := by
  cases loop with
  | error e => rfl
  | ok m =>
    change (m.store a 0).bind _ = (m.store a 0).map _
    cases m.store a 0 <;> rfl

theorem safeStrcpy_eq (hs : CStr m src s) (hsize : 1 ≤ dstsize) :
    safeStrcpy m dst dstsize src =
      (fillFinish m dst dstsize src s.length 0).map (fun m' ↦ (s.length, m')) := by
  have hne : dstsize ≠ 0 := by omega
  rw [safeStrcpy, strlen_eq hs, fillFinish, ← finish_eq]
  change (if dstsize = 0 then _ else _) = _
  rw [if_neg hne]
  congr 1

theorem safeStrcat_eq (hs : CStr m src s) (ht : CStr m dst t) :
    safeStrcat m dst dstsize src =
      (fillFinish m dst dstsize src s.length t.length).map (fun m' ↦
        (if sizeAdd s.length t.length < dstsize then sizeAdd s.length t.length else dstsize,
          m')) := by
  have htop := sizeSub_lt dstsize 1
  have hloop : forRange (fillByte dst src s.length t.length) t.length (sizeSub dstsize 1) m =
      forRange (fun i m ↦
        if sizeSub i t.length < s.length then do
          let c ← m.load (src + sizeSub i t.length)
          m.store (dst + i) c
        else m.store (dst + i) 0) t.length (sizeSub dstsize 1) m := by
    refine forRange_congr (fun i hlo hhi m ↦ ?_)
    rw [fillByte, sizeSub_of_le hlo (by omega)]
    rfl
  rw [safeStrcat, strlen_eq hs, strlen_eq ht, fillFinish, ← finish_eq, hloop, ok_bind, ok_bind]

theorem safeStrcpy_spec (hs : CStr m src s) (hsize : 1 ≤ dstsize)
    (hbuf : ∀ i < dstsize, (m.cell (dst + i)).isSome) :
    ∃ m', safeStrcpy m dst dstsize src = .ok (s.length, m') ∧
      Finished m dst dstsize src s.length 0 m' := by
  obtain ⟨m', hrun, hfin⟩ := fillFinish_spec 0 hs.isSome hsize hbuf
  exact ⟨m', by rw [safeStrcpy_eq hs hsize, hrun]; rfl, hfin⟩

theorem safeStrcat_spec (hs : CStr m src s) (ht : CStr m dst t) (hsize : 1 ≤ dstsize)
    (hbuf : ∀ i < dstsize, (m.cell (dst + i)).isSome) :
    ∃ m', safeStrcat m dst dstsize src =
        .ok (if sizeAdd s.length t.length < dstsize then sizeAdd s.length t.length else dstsize,
          m') ∧
      Finished m dst dstsize src s.length t.length m' := by
  obtain ⟨m', hrun, hfin⟩ := fillFinish_spec t.length hs.isSome hsize hbuf
  exact ⟨m', by rw [safeStrcat_eq hs ht, hrun]; rfl, hfin⟩

theorem copyNSafe_spec {n : ℕ} (hn : n ≤ dstsize) (hsrc : ∀ j < n, (m.cell (src + j)).isSome)
    (hbuf : ∀ i < dstsize, (m.cell (dst + i)).isSome) :
    ∃ m', copyNSafe m dst dstsize src n = .ok (true, m') ∧ Filled m dst src n 0 n n m' := by
  obtain ⟨m', hrun, hfill⟩ := fill_spec 0 n hsrc
    (fun i _ hlt ↦ hbuf i (by omega))
  refine ⟨m', ?_, hfill⟩
  have hbody : ∀ i, 0 ≤ i → i < n → ∀ m : Memory UInt8,
      ((m.load (src + i)).bind fun c ↦ m.store (dst + i) c) = fillByte dst src n 0 i m := by
    intro i _ hi m
    rw [fillByte, if_pos (by omega)]
    rfl
  rw [← forRange_congr hbody] at hrun
  have hle : ¬ n > dstsize := by omega
  rw [copyNSafe, if_neg hle]
  simp only [bind, hrun]
  rfl

def twoStrings : Memory UInt8 where
  cell a := [(100, 97), (101, 0), (200, 98), (201, 0)].lookup a
  null := rfl
  top := by
    intro a ha
    simp only [List.lookup_eq_none_iff]
    intro e he
    simp only [List.mem_cons, List.not_mem_nil, or_false] at he
    rcases he with rfl | rfl | rfl | rfl <;> simp <;> omega

theorem twoStrings_a : CStr twoStrings 100 [97] where
  noNul := by decide
  holds := by
    intro i v hv
    match i with
    | 0 => exact hv
    | 1 => exact hv

theorem twoStrings_b : CStr twoStrings 200 [98] where
  noNul := by decide
  holds := by
    intro i v hv
    match i with
    | 0 => exact hv
    | 1 => exact hv

theorem twoStrings_buffer : ∀ i < 2, (twoStrings.cell (100 + i)).isSome := by
  intro i hi
  match i with
  | 0 => rfl
  | 1 => rfl

end LowLevel.ProperC.SafetyFill
