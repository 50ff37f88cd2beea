import LowLevel.ProperC.SafetyFill

namespace LowLevel.ProperC.SafetyBounds

open Basis.AddressSpace Basis.Loop Safety SafetyFill

variable {m m' : Memory UInt8} {dst src dstsize : ℕ} {s t : List UInt8}

inductive Call
  | strcpy (src : ℕ)
  | strcat (src : ℕ)
  | copyN (src n : ℕ)

namespace Call

def exec (m : Memory UInt8) (dst dstsize : ℕ) : Call → Except Stop ((ℕ ⊕ Bool) × Memory UInt8)
  | strcpy src => (safeStrcpy m dst dstsize src).map (Prod.map .inl id)
  | strcat src => (safeStrcat m dst dstsize src).map (Prod.map .inl id)
  | copyN src n => (copyNSafe m dst dstsize src n).map (Prod.map .inr id)

/-- The arguments are as the header asks: strings are NUL-terminated, and the
bytes to copy can be read. -/
def Args (m : Memory UInt8) (dst dstsize : ℕ) : Call → Prop
  | strcpy src => ∃ s, CStr m src s
  | strcat src => (∃ s, CStr m src s) ∧ ∃ t, CStr m dst t
  | copyN src n => n ≤ dstsize → ∀ j < n, (m.cell (src + j)).isSome

def Room (dstsize : ℕ) : Call → Prop
  | strcpy _ => True
  | strcat _ => 1 ≤ dstsize
  | copyN _ _ => True

end Call

/-- The call returns, having changed bytes of the buffer only. -/
def Confined (m : Memory UInt8) (dst dstsize : ℕ)
    (out : Except Stop ((ℕ ⊕ Bool) × Memory UInt8)) : Prop :=
  ∃ r m', out = .ok (r, m') ∧ Memory.Outside dst (dst + dstsize) m m' ∧
    (dstsize = 0 ∨ r = .inr false → m' = m)

theorem outside_empty (h : Memory.Outside dst (dst + 0) m m') : m' = m := by
  refine Memory.ext (funext fun a ↦ h a ?_)
  omega

theorem confined_of_ok {r : ℕ ⊕ Bool} (hr : r ≠ .inr false)
    (h : Memory.Outside dst (dst + dstsize) m m') : Confined m dst dstsize (.ok (r, m')) := by
  refine ⟨r, m', rfl, h, ?_⟩
  intro hcase
  rcases hcase with rfl | hfalse
  · exact outside_empty h
  · exact absurd hfalse hr

theorem strcpy_confined (hs : CStr m src s) (hbuf : ∀ i < dstsize, (m.cell (dst + i)).isSome) :
    Confined m dst dstsize ((Call.strcpy src).exec m dst dstsize) := by
  rcases Nat.eq_zero_or_pos dstsize with rfl | hsize
  · rw [Call.exec, safeStrcpy_zero hs]
    exact confined_of_ok Sum.inl_ne_inr (fun _ _ ↦ rfl)
  · obtain ⟨m', hrun, hfin⟩ := safeStrcpy_spec hs hsize hbuf
    rw [Call.exec, hrun]
    exact confined_of_ok Sum.inl_ne_inr hfin.frame

theorem strcat_confined (hs : CStr m src s) (ht : CStr m dst t) (hsize : 1 ≤ dstsize)
    (hbuf : ∀ i < dstsize, (m.cell (dst + i)).isSome) :
    Confined m dst dstsize ((Call.strcat src).exec m dst dstsize) := by
  obtain ⟨m', hrun, hfin⟩ := safeStrcat_spec hs ht hsize hbuf
  rw [Call.exec, hrun]
  exact confined_of_ok Sum.inl_ne_inr hfin.frame

theorem copyN_confined {n : ℕ} (hsrc : n ≤ dstsize → ∀ j < n, (m.cell (src + j)).isSome)
    (hbuf : ∀ i < dstsize, (m.cell (dst + i)).isSome) :
    Confined m dst dstsize ((Call.copyN src n).exec m dst dstsize) := by
  rcases Nat.lt_or_ge dstsize n with hlt | hle
  · rw [Call.exec, copyNSafe, if_pos hlt]
    exact ⟨.inr false, m, rfl, fun _ _ ↦ rfl, fun _ ↦ rfl⟩
  · obtain ⟨m', hrun, hfill⟩ := copyNSafe_spec hle (hsrc hle) hbuf
    rw [Call.exec, hrun]
    refine confined_of_ok (by simp) (fun a ha ↦ hfill.frame a ?_)
    omega

theorem strcat_overrun (hs : CStr m src s) (ht : CStr m dst t) :
    ∃ a, dst ≤ a ∧ (Call.strcat src).exec m dst 0 = .error (.store a) := by
  have hoff := ht.lt_top
  obtain ⟨a, hle, hrun⟩ := fillFinish_zero t.length hs.isSome ht.pos (by omega)
  refine ⟨a, hle, ?_⟩
  rw [Call.exec, safeStrcat_eq hs ht, hrun]
  rfl

/-- The three functions change bytes of the destination buffer only, except
`safeStrcat` without capacity, which stores outside it. -/
theorem safe_calls_confined_iff (m : Memory UInt8) (dst dstsize : ℕ) (call : Call)
    (hbuf : ∀ i < dstsize, (m.cell (dst + i)).isSome) (hargs : call.Args m dst dstsize) :
    (Confined m dst dstsize (call.exec m dst dstsize) ↔ call.Room dstsize) ∧
      (¬ call.Room dstsize → ∃ a, (a < dst ∨ dst + dstsize ≤ a) ∧
        call.exec m dst dstsize = .error (.store a)) := by
  cases call with
  | strcpy src =>
    obtain ⟨s, hs⟩ := hargs
    exact ⟨iff_of_true (strcpy_confined hs hbuf) trivial, fun h ↦ absurd trivial h⟩
  | copyN src n =>
    exact ⟨iff_of_true (copyN_confined hargs hbuf) trivial, fun h ↦ absurd trivial h⟩
  | strcat src =>
    obtain ⟨⟨s, hs⟩, ⟨t, ht⟩⟩ := hargs
    rcases Nat.eq_zero_or_pos dstsize with rfl | hsize
    · obtain ⟨a, hle, hrun⟩ := strcat_overrun hs ht
      have hno : ¬ (Call.strcat src).Room 0 := Nat.not_succ_le_zero 0
      refine ⟨iff_of_false ?_ hno, fun _ ↦ ⟨a, .inr hle, hrun⟩⟩
      intro hall
      obtain ⟨r, m', hok, -⟩ := hall
      rw [hrun] at hok
      cases hok
    · exact ⟨iff_of_true (strcat_confined hs ht hsize hbuf) hsize, fun h ↦ absurd hsize h⟩

theorem twoStrings_loop {last : ℕ} (h : 2 < last) :
    forRange (fillByte 100 200 1 1) 1 last twoStrings = .error (.store 102) := by
  have hfirst : fillByte 100 200 1 1 1 twoStrings =
    .ok (twoStrings.write 101 (some 98) rfl) := rfl
  have hsecond : fillByte 100 200 1 1 2 (twoStrings.write 101 (some 98) rfl) =
    .error (.store 102) := rfl
  rw [forRange_step (by omega), hfirst]
  change forRange _ 2 _ _ = _
  rw [forRange_step h, hsecond]
  rfl

/-- Appending "b" with capacity 0 overwrites the terminator of "a" and stops
at the first address that is not allocated. -/
theorem strcat_zero_overruns :
    (Call.strcat 200).Args twoStrings 100 0 ∧
      (Call.strcat 200).exec twoStrings 100 0 = .error (.store 102) ∧
      ¬ Confined twoStrings 100 0 ((Call.strcat 200).exec twoStrings 100 0) := by
  have hrun : (Call.strcat 200).exec twoStrings 100 0 = .error (.store 102) := by
    have hlast : 2 < sizeSub 0 1 := by
      unfold sizeSub
      omega
    rw [Call.exec, safeStrcat_eq twoStrings_b twoStrings_a, fillFinish, List.length_singleton,
      List.length_singleton, twoStrings_loop hlast]
    rfl
  refine ⟨⟨⟨_, twoStrings_b⟩, ⟨_, twoStrings_a⟩⟩, hrun, ?_⟩
  intro hall
  obtain ⟨r, m', hok, -⟩ := hall
  rw [hrun] at hok
  cases hok

theorem strcat_two_confined :
    Confined twoStrings 100 2 ((Call.strcat 200).exec twoStrings 100 2) :=
  (safe_calls_confined_iff twoStrings 100 2 (.strcat 200)
    twoStrings_buffer ⟨⟨_, twoStrings_b⟩, ⟨_, twoStrings_a⟩⟩).1.mpr
    (by simp [Call.Room])

end LowLevel.ProperC.SafetyBounds
