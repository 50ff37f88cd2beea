import Mathlib.Data.Int.Order.Basic
import Mathlib.Data.List.Basic
import Mathlib.Order.Defs.LinearOrder
import Mathlib.Order.Lattice

namespace LowLevel.Interview.BinarySearch

inductive PyError
  | indexError
  deriving DecidableEq

section Source

variable {α : Type*}

/-- `l[i]`, which counts from the end when `i` is negative. -/
def pyGet (l : List α) (i : ℤ) : Except PyError α :=
  let i := if i < 0 then i + l.length else i
  if i < 0 then .error .indexError
  else
    match l[i.toNat]? with
    | none => .error .indexError
    | some x => .ok x

variable [BEq α] [LT α] [DecidableLT α]

/-- The loop, with the indices it reads. -/
def searchLoop (l : List α) (target : α) (lo hi : ℤ) : Except PyError (ℤ × List ℤ) :=
  if h : lo ≤ hi then
    let mid := (lo + hi) / 2
    (pyGet l mid).bind (fun x ↦
      if x == target then .ok (mid, [mid])
      else (pyGet l mid).bind (fun y ↦
        if y < target then
          (searchLoop l target (mid + 1) hi).map (Prod.map id ([mid, mid] ++ ·))
        else
          (searchLoop l target lo (mid - 1)).map (Prod.map id ([mid, mid] ++ ·))))
  else .ok (-1, [])
termination_by (hi + 1 - lo).toNat

def binarySearch (l : List α) (target : α) : Except PyError (ℤ × List ℤ) :=
  if l.isEmpty then .ok (-1, [])
  else searchLoop l target 0 (l.length - 1)

end Source

section Rule

variable {α : Type*} {l : List α} {target x : α} {lo hi result : ℤ} {reads : List ℤ} {k : ℕ}

theorem pyGet_natCast (h : l[k]? = some x) : pyGet l k = .ok x := by
  have hneg : ¬ (k : ℤ) < 0 := by omega
  simp only [pyGet, if_neg hneg, Int.toNat_natCast, h]

/-- A pass over the window from `lo` to `hi` reads `x` in its middle `k`. -/
structure Middle (l : List α) (lo hi : ℤ) (k : ℕ) (x : α) : Prop where
  mid : (lo + hi) / 2 = k
  lower : lo ≤ k
  upper : k ≤ hi
  read : l[k]? = some x

theorem exists_middle (hle : lo ≤ hi) (hlo : 0 ≤ lo) (hhi : hi < l.length) :
    ∃ k x, Middle l lo hi k x := by
  obtain ⟨k, hk⟩ := Int.eq_ofNat_of_zero_le (show 0 ≤ (lo + hi) / 2 by omega)
  have hlen : k < l.length := by omega
  exact ⟨k, l[k], hk, by omega, by omega, List.getElem?_eq_getElem hlen⟩

variable [BEq α]

/-- What a search of the window from `lo` to `hi` may answer. -/
structure Answer (l : List α) (target : α) (lo hi result : ℤ) (reads : List ℤ) : Prop where
  reads : ∀ i ∈ reads, lo ≤ i ∧ i ≤ hi
  hit : result = -1 ∨ ∃ (i : ℕ) (x : α), result = i ∧ l[i]? = some x ∧ (x == target) = true

theorem Answer.pass {lo' hi' : ℤ} (hm : Middle l lo hi k x) (hlo : lo ≤ lo') (hhi : hi' ≤ hi)
    (h : Answer l target lo' hi' result reads) :
    Answer l target lo hi result ([(k : ℤ), (k : ℤ)] ++ reads) where
  reads := by
    intro i hmem
    rcases List.mem_append.mp hmem with hhead | htail
    · obtain rfl : i = k := by simpa using hhead
      exact ⟨hm.lower, hm.upper⟩
    · obtain ⟨hlo', hhi'⟩ := h.reads i htail
      omega
  hit := h.hit

variable [LT α] [DecidableLT α]

theorem searchLoop_middle (hm : Middle l lo hi k x) : searchLoop l target lo hi =
    if x == target then .ok ((k : ℤ), [(k : ℤ)])
    else if x < target then
      (searchLoop l target (k + 1) hi).map (Prod.map id ([(k : ℤ), (k : ℤ)] ++ ·))
    else (searchLoop l target lo (k - 1)).map (Prod.map id ([(k : ℤ), (k : ℤ)] ++ ·)) := by
  rw [searchLoop, dif_pos (hm.lower.trans hm.upper), hm.mid]
  simp only [pyGet_natCast hm.read]
  rfl

/-- The empty window, a hit and the passes to either side maintain `P` of the
answer and the reads. -/
structure Maintained (l : List α) (target : α) (P : ℤ → ℤ → ℤ → List ℤ → Prop) : Prop where
  empty : ∀ lo hi, ¬ lo ≤ hi → P lo hi (-1) []
  hit : ∀ lo hi k x, Middle l lo hi k x → (x == target) = true → P lo hi k [(k : ℤ)]
  above : ∀ lo hi k x result reads, Middle l lo hi k x → (x == target) = false → x < target →
    P (k + 1) hi result reads → P lo hi result ([(k : ℤ), (k : ℤ)] ++ reads)
  below : ∀ lo hi k x result reads, Middle l lo hi k x → (x == target) = false → ¬ x < target →
    P lo (k - 1) result reads → P lo hi result ([(k : ℤ), (k : ℤ)] ++ reads)

theorem Maintained.searchLoop {P : ℤ → ℤ → ℤ → List ℤ → Prop} (h : Maintained l target P) (n : ℕ)
    (hn : (hi + 1 - lo).toNat ≤ n) (hlo : 0 ≤ lo) (hhi : hi < l.length) :
    ∃ result reads, searchLoop l target lo hi = .ok (result, reads) ∧ P lo hi result reads := by
  have hempty : ∀ lo hi : ℤ, ¬ lo ≤ hi → ∃ result reads,
      BinarySearch.searchLoop l target lo hi = .ok (result, reads) ∧ P lo hi result reads := by
    intro lo hi hgt
    rw [BinarySearch.searchLoop, dif_neg hgt]
    exact ⟨-1, [], rfl, h.empty lo hi hgt⟩
  induction n generalizing lo hi with
  | zero => exact hempty lo hi (by omega)
  | succ n ih =>
    rcases Decidable.em (lo ≤ hi) with hle | hgt
    · obtain ⟨k, x, hm⟩ := exists_middle hle hlo hhi
      have hlower := hm.lower
      have hupper := hm.upper
      rw [searchLoop_middle hm]
      rcases Bool.eq_false_or_eq_true (x == target) with heq | hne
      · rw [if_pos heq]
        exact ⟨k, _, rfl, h.hit lo hi k x hm heq⟩
      · rw [if_neg (by simp [hne])]
        rcases Decidable.em (x < target) with hlt | hlt
        · obtain ⟨result, reads, hrun, hp⟩ :=
            ih (show (hi + 1 - ((k : ℤ) + 1)).toNat ≤ n by omega) (by omega) hhi
          rw [if_pos hlt, hrun]
          exact ⟨result, _, rfl, h.above lo hi k x result reads hm hne hlt hp⟩
        · obtain ⟨result, reads, hrun, hp⟩ :=
            ih (show ((k : ℤ) - 1 + 1 - lo).toNat ≤ n by omega) hlo (by omega)
          rw [if_neg hlt, hrun]
          exact ⟨result, _, rfl, h.below lo hi k x result reads hm hne hlt hp⟩
    · exact hempty lo hi hgt

theorem binarySearch_eq (l : List α) (target : α) :
    binarySearch l target = searchLoop l target 0 (l.length - 1) := by
  cases l with
  | nil => rw [searchLoop, binarySearch]; rfl
  | cons x l => rfl

theorem Maintained.binarySearch {P : ℤ → ℤ → ℤ → List ℤ → Prop} (h : Maintained l target P) :
    ∃ result reads, binarySearch l target = .ok (result, reads) ∧
      P 0 (l.length - 1) result reads := by
  rw [binarySearch_eq]
  exact h.searchLoop _ (Nat.le_refl _) (Int.le_refl 0) (by omega)

omit [DecidableLT α] in
theorem maintained_answer (l : List α) (target : α) : Maintained l target (Answer l target) where
  empty lo hi _ := ⟨by simp, .inl rfl⟩
  hit lo hi k x hm heq := by
    refine ⟨fun i hmem ↦ ?_, .inr ⟨k, x, rfl, hm.read, heq⟩⟩
    rw [List.mem_singleton.mp hmem]
    exact ⟨hm.lower, hm.upper⟩
  above lo hi k x result reads hm _ _ h := by
    have hlower := hm.lower
    exact h.pass hm (by omega) (Int.le_refl hi)
  below lo hi k x result reads hm _ _ h := by
    have hupper := hm.upper
    exact h.pass hm (Int.le_refl lo) (by omega)

end Rule

section Ordered

variable {α : Type*} [LinearOrder α] {l : List α} {target x y : α} {lo hi result : ℤ} {i j k : ℕ}

theorem sorted_le (h : l.Pairwise (· ≤ ·)) (hi : l[i]? = some x) (hj : l[j]? = some y)
    (hij : i ≤ j) : x ≤ y := by
  obtain ⟨hilen, rfl⟩ := List.getElem?_eq_some_iff.mp hi
  obtain ⟨hjlen, rfl⟩ := List.getElem?_eq_some_iff.mp hj
  rcases Nat.lt_or_eq_of_le hij with hlt | rfl
  · exact List.pairwise_iff_getElem.mp h i j hilen hjlen hlt
  · exact le_refl _

/-- On a miss the target is nowhere in the window. -/
def Absent (l : List α) (target : α) (lo hi result : ℤ) : Prop :=
  result = -1 → ∀ i : ℕ, lo ≤ i → i ≤ hi → l[i]? ≠ some target

theorem Absent.above (hsorted : l.Pairwise (· ≤ ·)) (hm : Middle l lo hi k x) (hlt : x < target)
    (h : Absent l target (k + 1) hi result) : Absent l target lo hi result := by
  intro hmiss i hlo hhi hfound
  rcases Nat.lt_or_ge k i with hki | hik
  · exact h hmiss i (by omega) hhi hfound
  · -- up to the middle all elements are too small
    exact absurd hlt (not_lt.mpr (sorted_le hsorted hfound hm.read hik))

theorem Absent.below (hsorted : l.Pairwise (· ≤ ·)) (hm : Middle l lo hi k x) (hne : x ≠ target)
    (hlt : ¬ x < target) (h : Absent l target lo (k - 1) result) :
    Absent l target lo hi result := by
  intro hmiss i hlo hhi hfound
  rcases Nat.lt_or_ge i k with hik | hki
  · exact h hmiss i hlo (by omega) hfound
  · -- from the middle on all elements are too large
    have hle : x ≤ target := sorted_le hsorted hm.read hfound hki
    exact hlt (lt_of_le_of_ne hle hne)

theorem maintained_absent (hsorted : l.Pairwise (· ≤ ·)) (target : α) :
    Maintained l target (fun lo hi result _ ↦ Absent l target lo hi result) where
  empty lo hi hgt _ i hlo hhi := by omega
  hit lo hi k x _ _ hmiss := by omega
  above lo hi k x result reads hm _ hlt h := h.above hsorted hm hlt
  below lo hi k x result reads hm hne hlt h :=
    h.below hsorted hm (beq_eq_false_iff_ne.mp hne) hlt

end Ordered

variable {α β : Type*} [BEq α] [LT α] [DecidableLT α] [LinearOrder β]

/-- `binary_search` ends on every list without an `IndexError`, reads in range
and answers -1 or a position of the target. On a sorted list it answers -1
only when the target is absent. -/
theorem binary_search_exact :
    (∀ (l : List α) (target : α), ∃ result reads, binarySearch l target = .ok (result, reads) ∧
      (∀ i ∈ reads, 0 ≤ i ∧ i < l.length) ∧
      (result = -1 ∨
        ∃ (i : ℕ) (x : α), result = i ∧ l[i]? = some x ∧ (x == target) = true) ∧
      ((∀ x ∈ l, (x == target) = false) → result = -1)) ∧
    ∀ (l : List β) (target : β), l.Pairwise (· ≤ ·) →
      ∃ result reads, binarySearch l target = .ok (result, reads) ∧
        (target ∈ l → ∃ i : ℕ, result = i ∧ l[i]? = some target) ∧ (target ∉ l → result = -1) := by
  refine ⟨fun l target ↦ ?_, fun l target hsorted ↦ ?_⟩
  · obtain ⟨result, reads, hrun, hanswer⟩ := (maintained_answer l target).binarySearch
    refine ⟨result, reads, hrun, fun i hi ↦ ?_, hanswer.hit, fun habsent ↦ ?_⟩
    · obtain ⟨hlo, hhi⟩ := hanswer.reads i hi
      omega
    · rcases hanswer.hit with hmiss | ⟨i, x, -, hread, heq⟩
      · exact hmiss
      · rw [habsent x (List.mem_of_getElem? hread)] at heq
        cases heq
  · obtain ⟨result, reads, hrun, hanswer⟩ := (maintained_answer l target).binarySearch
    obtain ⟨result', reads', hrun', habsent⟩ := (maintained_absent hsorted target).binarySearch
    cases hrun.symm.trans hrun'
    have hhit : result = -1 ∨ ∃ i : ℕ, result = i ∧ l[i]? = some target := by
      rcases hanswer.hit with hmiss | ⟨i, x, hresult, hread, heq⟩
      · exact .inl hmiss
      · exact .inr ⟨i, hresult, eq_of_beq heq ▸ hread⟩
    refine ⟨result, reads, hrun, fun hmem ↦ hhit.resolve_left (fun hmiss ↦ ?_),
      fun hmem ↦ hhit.resolve_right ?_⟩
    · obtain ⟨i, hi⟩ := List.mem_iff_getElem?.mp hmem
      obtain ⟨hlen, -⟩ := List.getElem?_eq_some_iff.mp hi
      exact habsent hmiss i (by omega) (by omega) hi
    · rintro ⟨i, -, hread⟩
      exact hmem (List.mem_of_getElem? hread)

end LowLevel.Interview.BinarySearch
