import LowLevel.Basis.Loop
import Mathlib.Data.List.Basic

namespace LowLevel.Basis.ExchangeSort

open Loop

variable {α : Type*} {gt gt' : α → α → Bool} {l l₀ : List α} {i j : ℕ}

/-- The elements at `i` and `j`, exchanged when the first is the greater one. -/
def exchange (gt : α → α → Bool) (i j : ℕ) (l : List α) : List α :=
  match l[i]?, l[j]? with
  | some a, some b => if gt a b then (l.set i b).set j a else l
  | _, _ => l

def sweep (gt : α → α → Bool) (n i : ℕ) (l : List α) : List α :=
  foldRange (exchange gt i) (i + 1) n l

def exchangeSort (gt : α → α → Bool) (l : List α) : List α :=
  foldRange (sweep gt l.length) 0 (l.length - 1) l

theorem exchange_eq (hi : i < l.length) (hj : j < l.length) :
    exchange gt i j l = if gt l[i] l[j] then (l.set i l[j]).set j l[i] else l := by
  simp [exchange, hi, hj]

theorem exchange_perm (gt : α → α → Bool) (i j : ℕ) (l : List α) : (exchange gt i j l).Perm l := by
  unfold exchange
  split
  · rename_i a b ha hb
    obtain ⟨hi, rfl⟩ := List.getElem?_eq_some_iff.mp ha
    obtain ⟨hj, rfl⟩ := List.getElem?_eq_some_iff.mp hb
    split
    · exact List.set_set_perm hi hj
    · exact List.Perm.refl l
  · exact List.Perm.refl l

theorem sweep_perm (gt : α → α → Bool) (n i : ℕ) (l : List α) : (sweep gt n i l).Perm l := by
  rcases Nat.lt_or_ge n (i + 1) with hlt | hle
  · rw [sweep, foldRange_empty (Nat.le_of_lt hlt)]
  · refine foldRange_invariant (fun _ (l' : List α) ↦ l'.Perm l) hle (List.Perm.refl l) ?_
    intro j _ _ l' hl'
    exact (exchange_perm gt i j l').trans hl'

theorem exchangeSort_perm (gt : α → α → Bool) (l : List α) : (exchangeSort gt l).Perm l := by
  refine foldRange_invariant (fun _ (l' : List α) ↦ l'.Perm l) (Nat.zero_le _) (List.Perm.refl l) ?_
  intro i _ _ l' hl'
  exact (sweep_perm gt l.length i l').trans hl'

section Sorted

/-- `gt` is the strict part of a total preorder. -/
structure Ranking (gt : α → α → Bool) : Prop where
  asymm : ∀ a b, gt a b = true → gt b a = false
  trans : ∀ a b c, gt a b = false → gt b c = false → gt a c = false

/-- The first `i` positions hold their final elements. -/
def Settled (gt : α → α → Bool) (i : ℕ) (l : List α) : Prop :=
  ∀ x y a b, x < i → x < y → l[x]? = some a → l[y]? = some b → gt a b = false

/-- The element at `i` is least among those before `j`. -/
def Least (gt : α → α → Bool) (i j : ℕ) (l : List α) : Prop :=
  ∀ y a b, i < y → y < j → l[i]? = some a → l[y]? = some b → gt a b = false

theorem exchange_getElem? (hi : i < l.length) (hj : j < l.length) (hgt : gt l[i] l[j] = true)
    (y : ℕ) :
    (exchange gt i j l)[y]? = if y = i then l[j]? else if y = j then l[i]? else l[y]? := by
  rw [exchange_eq hi hj, if_pos hgt]
  grind

theorem exchange_settled (h : Settled gt i l) (hj : j < l.length) (hij : i < j) :
    Settled gt i (exchange gt i j l) := by
  have hi : i < l.length := by omega
  cases hgt : gt l[i] l[j] with
  | false =>
    have hkeep : exchange gt i j l = l := by rw [exchange_eq hi hj, hgt]; rfl
    rw [hkeep]
    exact h
  | true =>
    intro x y a b hx hxy ha hb
    rw [exchange_getElem? hi hj hgt] at ha hb
    rw [if_neg (by omega), if_neg (by omega)] at ha
    -- what stood at `y` before stood behind `x` as well
    split at hb
    · exact h x j a b hx (by omega) ha hb
    · split at hb
      · exact h x i a b hx hx ha hb
      · exact h x y a b hx hxy ha hb

theorem exchange_least (hr : Ranking gt) (h : Least gt i j l) (hj : j < l.length) (hij : i < j) :
    Least gt i (j + 1) (exchange gt i j l) := by
  have hi : i < l.length := by omega
  have hati : l[i]? = some l[i] := List.getElem?_eq_getElem hi
  have hatj : l[j]? = some l[j] := List.getElem?_eq_getElem hj
  cases hgt : gt l[i] l[j] with
  | false =>
    have hkeep : exchange gt i j l = l := by rw [exchange_eq hi hj, hgt]; rfl
    rw [hkeep]
    intro y a b hy hyj ha hb
    rcases Nat.lt_or_eq_of_le (Nat.le_of_lt_succ hyj) with hlt | rfl
    · exact h y a b hy hlt ha hb
    · rw [hati] at ha
      rw [hatj] at hb
      cases ha
      cases hb
      exact hgt
  | true =>
    intro y a b hy hyj ha hb
    rw [exchange_getElem? hi hj hgt, if_pos rfl, hatj] at ha
    rw [exchange_getElem? hi hj hgt, if_neg (by omega)] at hb
    cases ha
    have hback : gt l[j] l[i] = false := hr.asymm _ _ hgt
    split at hb
    · rw [hati] at hb
      cases hb
      exact hback
    · exact hr.trans _ _ _ hback (h y _ b hy (by omega) hati hb)

theorem sweep_settled (hr : Ranking gt) (h : Settled gt i l) (hi : i < l.length) :
    Settled gt (i + 1) (sweep gt l.length i l) := by
  have hinv : (sweep gt l.length i l).length = l.length ∧ Settled gt i (sweep gt l.length i l) ∧
      Least gt i l.length (sweep gt l.length i l) := by
    refine foldRange_invariant
      (fun j l' ↦ l'.length = l.length ∧ Settled gt i l' ∧ Least gt i j l') hi ⟨rfl, h, ?_⟩ ?_
    · intro y a b hy hyi
      omega
    · intro j hij hj l' hl'
      obtain ⟨hlen, hset, hleast⟩ := hl'
      have hj' : j < l'.length := by omega
      exact ⟨(exchange_perm gt i j l').length_eq.trans hlen, exchange_settled hset hj' hij,
        exchange_least hr hleast hj' hij⟩
  obtain ⟨hlen, hset, hleast⟩ := hinv
  intro x y a b hx hxy ha hb
  rcases Nat.lt_or_eq_of_le (Nat.le_of_lt_succ hx) with hlt | rfl
  · exact hset x y a b hlt hxy ha hb
  · obtain ⟨hy, -⟩ := List.getElem?_eq_some_iff.mp hb
    exact hleast y a b hxy (by omega) ha hb

theorem exchangeSort_settled (hr : Ranking gt) (l : List α) :
    Settled gt (l.length - 1) (exchangeSort gt l) := by
  have hinv : (exchangeSort gt l).length = l.length ∧
      Settled gt (l.length - 1) (exchangeSort gt l) := by
    refine foldRange_invariant (fun i l' ↦ l'.length = l.length ∧ Settled gt i l')
      (Nat.zero_le _) ⟨rfl, ?_⟩ ?_
    · intro x y a b hx
      omega
    · intro i _ hi l' hl'
      obtain ⟨hlen, hset⟩ := hl'
      refine ⟨(sweep_perm gt l.length i l').length_eq.trans hlen, ?_⟩
      rw [← hlen]
      exact sweep_settled hr hset (by omega)
  exact hinv.2

theorem exchangeSort_sorted (hr : Ranking gt) (l : List α) :
    (exchangeSort gt l).Pairwise (fun a b ↦ gt a b = false) := by
  rw [List.pairwise_iff_getElem]
  intro x y hx hy hxy
  have hlen := (exchangeSort_perm gt l).length_eq
  exact exchangeSort_settled hr l x y _ _ (by omega) hxy (List.getElem?_eq_getElem hx)
    (List.getElem?_eq_getElem hy)

end Sorted

section Congr

theorem exchange_congr (h : ∀ a ∈ l, ∀ b ∈ l, a ≠ b → gt' a b = gt a b) :
    exchange gt' i j l = exchange gt i j l := by
  unfold exchange
  split
  · rename_i a b ha hb
    by_cases hab : a = b
    · -- an exchange of equal elements changes nothing
      subst hab
      have hset : (l.set i a).set j a = l := by
        obtain ⟨hi, hia⟩ := List.getElem?_eq_some_iff.mp ha
        obtain ⟨hj, hja⟩ := List.getElem?_eq_some_iff.mp hb
        apply List.ext_getElem?
        intro y
        grind
      rw [hset, ite_self, ite_self]
    · rw [h a (List.mem_of_getElem? ha) b (List.mem_of_getElem? hb) hab]
  · rfl

/-- Only the comparisons of different elements of the list matter. -/
theorem exchangeSort_congr (h : ∀ a ∈ l, ∀ b ∈ l, a ≠ b → gt' a b = gt a b) :
    exchangeSort gt' l = exchangeSort gt l := by
  have hmem : ∀ l' : List α, l'.Perm l → ∀ a ∈ l', ∀ b ∈ l', a ≠ b → gt' a b = gt a b :=
    fun l' hl' a ha b hb ↦ h a (hl'.mem_iff.mp ha) b (hl'.mem_iff.mp hb)
  apply foldRange_congr (fun _ (l' : List α) ↦ l'.Perm l) (List.Perm.refl l)
  intro i _ _ l' hl'
  refine ⟨?_, (sweep_perm gt l.length i l').trans hl'⟩
  apply foldRange_congr (fun _ (l' : List α) ↦ l'.Perm l) hl'
  intro j _ _ l'' hl''
  exact ⟨exchange_congr (hmem l'' hl''), (exchange_perm gt i j l'').trans hl''⟩

theorem exchangeSort_pair (gt : α → α → Bool) (a b : α) :
    exchangeSort gt [a, b] = if gt a b then [b, a] else [a, b] := rfl

end Congr

end LowLevel.Basis.ExchangeSort
