import LowLevel.Basis.OrderedDict
import LowLevel.Basis.SortBy
import Mathlib.Algebra.GroupWithZero.Nat
import Mathlib.Data.List.Dedup
import Mathlib.Data.Prod.Lex

namespace LowLevel.Basis.Ranking

open OrderedDict SortBy

section Slice

variable {α β : Type*} {l : List α} {m n : ℤ}

/-- `l[:n]`, in which a negative `n` counts from the end. -/
def sliceTo (n : ℤ) (l : List α) : List α :=
  l.take (if 0 ≤ n then n.toNat else (l.length + n).toNat)

theorem sliceTo_map (n : ℤ) (f : α → β) (l : List α) :
    sliceTo n (l.map f) = (sliceTo n l).map f := by
  rw [sliceTo, sliceTo, List.length_map, List.map_take]

theorem sliceTo_eq_take_iff : sliceTo n l = l.take n.toNat ↔ 0 ≤ n ∨ l.length + n ≤ 0 := by
  rw [sliceTo, List.take_eq_take_iff]
  rcases le_or_gt 0 n with hn | hn
  · simp [hn]
  · rw [if_neg (by omega)]
    omega

theorem take_prefix_iff {i j : ℕ} (hi : i ≤ l.length) : l.take i <+: l.take j ↔ i ≤ j := by
  rcases hi.lt_or_eq with hlt | rfl
  · exact List.prefix_take_le_iff hlt
  · rw [List.take_length]
    constructor
    · intro h
      have hle := h.length_le
      rw [List.length_take] at hle
      omega
    · intro h
      have htake : l.take j = l := List.take_of_length_le h
      exact htake.symm ▸ List.prefix_rfl

theorem sliceTo_prefix_iff (h : n ≤ m) :
    sliceTo n l <+: sliceTo m l ↔ 0 ≤ n ∨ m < 0 ∨ l.length + n ≤ m := by
  rw [sliceTo, sliceTo, List.take_eq_take_min, take_prefix_iff (Nat.min_le_right _ _)]
  split_ifs <;> omega

end Slice

section Counted

variable {K : Type*} [DecidableEq K] {xs ys : List K} {l : List (K × ℕ)}

/-- `l` has one entry for each different element of `xs`, with its count. -/
structure Counted (xs : List K) (l : List (K × ℕ)) : Prop where
  nodup : (l.map Prod.fst).Nodup
  mem_iff : ∀ e, e ∈ l ↔ e.1 ∈ xs ∧ e.2 = xs.count e.1

theorem Counted.of_perm (h : Counted xs l) (hperm : xs.Perm ys) : Counted ys l where
  nodup := h.nodup
  mem_iff e := by rw [h.mem_iff, hperm.mem_iff, hperm.count_eq]

theorem Counted.mem_countP (h : Counted xs l) (e : K × ℕ) :
    e ∈ l ↔ e.1 ∈ xs ∧ e.2 = xs.countP (fun x ↦ x = e.1) := h.mem_iff e

theorem Counted.lookup (h : Counted xs l) (x : K) :
    l.lookup x = if x ∈ xs then some (xs.count x) else none := by
  apply Option.ext
  intro n
  have hget := (Dict.get?_eq_some ⟨l, h.nodup⟩ x n).trans (h.mem_iff (x, n))
  apply hget.trans
  split_ifs with hmem
  · simp [hmem, eq_comm]
  · simp [hmem]

theorem Counted.lookup_count (h : Counted xs l) (x : K) : (l.lookup x).getD 0 = xs.count x := by
  rw [h.lookup]
  split_ifs with hmem
  · rfl
  · exact (List.count_eq_zero_of_not_mem hmem).symm

/-- Counting a concatenation adds the counts up. -/
theorem Counted.lookup_append {l₁ l₂ : List (K × ℕ)} (h : Counted (xs ++ ys) l)
    (h₁ : Counted xs l₁) (h₂ : Counted ys l₂) (x : K) :
    l.lookup x = Option.merge (· + ·) (l₁.lookup x) (l₂.lookup x) := by
  rw [h.lookup, h₁.lookup, h₂.lookup, List.count_append]
  by_cases hx : x ∈ xs <;> by_cases hy : x ∈ ys <;>
    simp [hx, hy, Option.merge, List.count_eq_zero_of_not_mem]

theorem Counted.length (h : Counted xs l) : l.length = xs.dedup.length := by
  have hperm : (l.map Prod.fst).Perm xs.dedup := by
    rw [List.perm_ext_iff_of_nodup h.nodup xs.nodup_dedup]
    intro x
    rw [List.mem_dedup, List.mem_map]
    constructor
    · intro hex
      obtain ⟨e, he, rfl⟩ := hex
      exact ((h.mem_iff e).mp he).1
    · intro hx
      exact ⟨(x, xs.count x), (h.mem_iff _).mpr ⟨hx, rfl⟩, rfl⟩
  rw [← hperm.length_eq, List.length_map]

/-- Every key as often as its entry says. -/
def copies (l : List (K × ℕ)) : List K := l.flatMap (fun e ↦ List.replicate e.2 e.1)

theorem count_copies (h : (l.map Prod.fst).Nodup) (x : K) :
    (copies l).count x = (l.lookup x).getD 0 := by
  induction l with
  | nil => rfl
  | cons e l ih =>
    obtain ⟨hnew, hl⟩ := List.nodup_cons.mp h
    have hcons : (copies (e :: l)).count x = (List.replicate e.2 e.1).count x +
        (copies l).count x := by rw [copies, List.flatMap_cons, List.count_append, copies]
    rw [hcons, ih hl, List.count_replicate]
    rcases eq_or_ne e.1 x with rfl | hne
    · have hnone : l.lookup e.1 = none := by
        rw [List.lookup_eq_none_iff]
        intro e' he'
        exact bne_iff_ne.mpr (ne_of_mem_of_not_mem (List.mem_map_of_mem he') hnew).symm
      rw [hnone, if_pos (beq_self_eq_true _), List.lookup_cons_self]
      rfl
    · have hx : (x == e.1) = false := beq_false_of_ne hne.symm
      rw [if_neg (by simpa using hne), Nat.zero_add, List.lookup_cons, hx]

theorem Counted.copies (h : Counted xs l) : (copies l).Perm xs := by
  rw [List.perm_iff_count]
  intro x
  rw [count_copies h.nodup, h.lookup_count]

theorem Counted.sum (h : Counted xs l) : (l.map Prod.snd).sum = xs.length := by
  rw [← h.copies.length_eq, Ranking.copies, List.length_flatMap]
  simp only [List.length_replicate]

end Counted

variable {K : Type*} [LinearOrder K] {xs ys : List K} {r r' : List (K × ℕ)}

def occurrences (d : Dict K ℕ) (x : K) : ℕ := (d.get? x).getD 0

def bump (d : Dict K ℕ) (x : K) : Dict K ℕ := d.set x (occurrences d x + 1)

/-- How often each element occurs. -/
def tally (xs : List K) : Dict K ℕ := xs.foldl bump Dict.empty

theorem occurrences_bump (d : Dict K ℕ) (x y : K) :
    occurrences (bump d x) y = occurrences d y + [x].count y := by
  rw [occurrences, bump, Dict.get?_set]
  rcases eq_or_ne y x with rfl | hne
  · simp [occurrences]
  · simp [occurrences, hne, hne.symm]

theorem occurrences_fold (xs : List K) (d : Dict K ℕ) (y : K) :
    occurrences (xs.foldl bump d) y = occurrences d y + xs.count y := by
  induction xs generalizing d with
  | nil => rfl
  | cons x xs ih =>
    rw [List.foldl_cons, ih, occurrences_bump, Nat.add_assoc, ← List.count_append,
      List.singleton_append]

theorem occurrences_tally (xs : List K) (y : K) : occurrences (tally xs) y = xs.count y := by
  rw [tally, occurrences_fold]
  exact Nat.zero_add _

theorem mem_keys_fold (xs : List K) (d : Dict K ℕ) (y : K) :
    y ∈ (xs.foldl bump d).keys ↔ y ∈ d.keys ∨ y ∈ xs := by
  induction xs generalizing d with
  | nil => simp
  | cons x xs ih =>
    rw [List.foldl_cons, ih, bump, Dict.mem_keys_set, List.mem_cons, or_assoc, or_left_comm]

theorem mem_keys_tally (xs : List K) (y : K) : y ∈ (tally xs).keys ↔ y ∈ xs := by
  rw [tally, mem_keys_fold]
  exact or_iff_right List.not_mem_nil

/-- The decision of equality in the statement need not be that of the order. -/
theorem tally_counted [inst : DecidableEq K] (xs : List K) : Counted xs (tally xs).entries := by
  obtain rfl : inst = LinearOrder.toDecidableEq := Subsingleton.elim _ _
  refine ⟨(tally xs).nodup, fun e ↦ ?_⟩
  obtain ⟨x, n⟩ := e
  rw [← Dict.get?_eq_some, ← mem_keys_tally, Dict.mem_keys_iff, ← occurrences_tally, occurrences]
  cases (tally xs).get? x with
  | none => simp
  | some k => simp [eq_comm]

/-- More often first, and of equally many the smaller. -/
def Before (a b : K × ℕ) : Prop := b.2 < a.2 ∨ a.2 = b.2 ∧ a.1 < b.1

def rankKey (e : K × ℕ) : ℤ ×ₗ K := toLex (-(e.2 : ℤ), e.1)

theorem before_iff {a b : K × ℕ} : Before a b ↔ rankKey a < rankKey b := by
  rw [rankKey, rankKey, Prod.Lex.toLex_lt_toLex, Before]
  change _ ↔ -(a.2 : ℤ) < -(b.2 : ℤ) ∨ -(a.2 : ℤ) = -(b.2 : ℤ) ∧ a.1 < b.1
  rw [Int.neg_lt_neg_iff, Int.neg_inj, Int.ofNat_lt, Int.ofNat_inj]

/-- `r` lists the different elements of `xs`, each with its count. -/
structure Ranks (xs : List K) (r : List (K × ℕ)) : Prop where
  counts : ∀ e ∈ r, e.2 = xs.count e.1
  complete : ∀ x, x ∈ r.map Prod.fst ↔ x ∈ xs
  ordered : r.Pairwise Before

theorem Ranks.mem_iff (h : Ranks xs r) (e : K × ℕ) : e ∈ r ↔ e.1 ∈ xs ∧ e.2 = xs.count e.1 := by
  constructor
  · intro he
    exact ⟨(h.complete e.1).mp (List.mem_map_of_mem he), h.counts e he⟩
  · intro hboth
    obtain ⟨e', he', hfst⟩ := List.mem_map.mp ((h.complete e.1).mpr hboth.1)
    have heq : e' = e := by
      apply Prod.ext hfst
      rw [h.counts e' he', hboth.2, hfst]
    exact heq ▸ he'

theorem Ranks.of_perm (h : Ranks xs r) (hperm : xs.Perm ys) : Ranks ys r where
  counts e he := by rw [h.counts e he, hperm.count_eq]
  complete x := by rw [h.complete, hperm.mem_iff]
  ordered := h.ordered

theorem Ranks.nodup (h : Ranks xs r) : r.Nodup := by
  apply h.ordered.imp
  intro a b hab heq
  rw [before_iff, heq] at hab
  exact lt_irrefl _ hab

theorem Ranks.unique (h : Ranks xs r) (h' : Ranks xs r') : r = r' := by
  have hperm : r.Perm r' := by
    rw [List.perm_ext_iff_of_nodup h.nodup h'.nodup]
    intro e
    rw [h.mem_iff, h'.mem_iff]
  apply hperm.eq_of_pairwise _ h.ordered h'.ordered
  intro a b _ _ hab hba
  exact absurd (before_iff.mp hba) (before_iff.mp hab).asymm

theorem Ranks.counted [inst : DecidableEq K] (h : Ranks xs r) : Counted xs r := by
  obtain rfl : inst = LinearOrder.toDecidableEq := Subsingleton.elim _ _
  refine ⟨?_, h.mem_iff⟩
  apply List.Nodup.map_on _ h.nodup
  intro a ha b hb hab
  apply Prod.ext hab
  rw [h.counts a ha, h.counts b hb, hab]

/-- Sorting the entries of a count ranks them. -/
theorem Counted.ranks [inst : DecidableEq K] (h : Counted xs r) : Ranks xs (sortBy rankKey r) := by
  obtain rfl : inst = LinearOrder.toDecidableEq := Subsingleton.elim _ _
  have hperm := sortBy_perm rankKey r
  refine ⟨?_, ?_, ?_⟩
  · intro e he
    exact ((h.mem_iff e).mp (hperm.mem_iff.mp he)).2
  · intro x
    rw [(hperm.map Prod.fst).mem_iff, List.mem_map]
    constructor
    · intro hex
      obtain ⟨e, he, rfl⟩ := hex
      exact ((h.mem_iff e).mp he).1
    · intro hx
      exact ⟨(x, xs.count x), (h.mem_iff _).mpr ⟨hx, rfl⟩, rfl⟩
  · have hne := (hperm.nodup_iff.mpr (List.Nodup.of_map Prod.fst h.nodup))
    apply ((sortBy_pairwise rankKey r).and hne).imp
    intro a b hab
    rw [before_iff]
    apply hab.1.lt_of_ne
    intro heq
    apply hab.2
    have hkey := toLex.injective heq
    rw [Prod.mk.injEq, Int.neg_inj, Int.ofNat_inj] at hkey
    exact Prod.ext hkey.2 hkey.1

/-- Sorting the different elements by falling count ranks them, too. -/
theorem ranks_sortBy {l : List K} (hl : l.Nodup) (hmem : ∀ x, x ∈ l ↔ x ∈ xs) :
    Ranks xs ((sortBy (fun x ↦ rankKey (x, xs.count x)) l).map (fun x ↦ (x, xs.count x))) := by
  rw [sortBy_map rankKey (fun x ↦ (x, xs.count x))]
  apply Counted.ranks
  refine ⟨?_, ?_⟩
  · rw [List.map_map]
    exact hl.map (fun _ _ heq ↦ heq)
  · intro e
    rw [List.mem_map]
    constructor
    · intro hex
      obtain ⟨x, hx, rfl⟩ := hex
      exact ⟨(hmem x).mp hx, rfl⟩
    · intro hboth
      exact ⟨e.1, (hmem e.1).mpr hboth.1, Prod.ext rfl hboth.2.symm⟩

end LowLevel.Basis.Ranking
