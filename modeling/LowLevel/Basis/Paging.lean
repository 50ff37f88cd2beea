import LowLevel.Basis.Recency
import Mathlib.Data.Finset.Card

namespace LowLevel.Basis.Paging

open Recency

variable {K : Type*} [DecidableEq K] {k h : ℕ} {w us : List K} {p : K} {S T : Finset K}

/-- The keys held, the least recently used first, after a use of `p`. -/
def serve (k : ℕ) (w : List K) (p : K) : List K :=
  if p ∈ w then w.filter (· ≠ p) ++ [p]
  else if w.length = k then w.tail ++ [p] else w ++ [p]

def evicts (k : ℕ) (w : List K) (p : K) : ℕ := if p ∉ w ∧ w.length = k then 1 else 0

def evictions (k : ℕ) : List K → List K → ℕ
  | _, [] => 0
  | w, p :: us => evicts k w p + evictions k (serve k w p) us

/-- What any policy with `h` places may hold after each of the uses. -/
inductive Schedule (h : ℕ) : Finset K → List K → List (Finset K) → Prop
  | nil (S : Finset K) : Schedule h S [] []
  | cons {S T : Finset K} {p : K} {us : List K} {Ss : List (Finset K)} :
      p ∈ T → T.card ≤ h → Schedule h T us Ss → Schedule h S (p :: us) (T :: Ss)

def loads : Finset K → List (Finset K) → ℕ
  | _, [] => 0
  | S, T :: Ss => (T \ S).card + loads T Ss

def drops : Finset K → List (Finset K) → ℕ
  | _, [] => 0
  | S, T :: Ss => (S \ T).card + drops T Ss

theorem drops_le (S : Finset K) (Ss : List (Finset K)) : drops S Ss ≤ S.card + loads S Ss := by
  induction Ss generalizing S with
  | nil => exact Nat.zero_le _
  | cons T Ss ih =>
    have hrest := ih T
    have hout := Finset.card_sdiff_add_card_inter S T
    have hin := Finset.card_sdiff_add_card_inter T S
    rw [Finset.inter_comm] at hin
    rw [drops, loads]
    omega

def outside (S : Finset K) (w : List K) : ℕ := w.countP (· ∉ S)

/-- The potential: the keys that the policy does not hold count `k` at the end
of the list, and one less for every place further to the front. -/
def weight (k : ℕ) (S : Finset K) : List K → ℕ
  | [] => 0
  | x :: w => (if x ∈ S then 0 else k - w.length) + weight k S w

theorem weight_concat (hp : p ∈ S) (hlen : w.length ≤ k) :
    weight k S (w ++ [p]) + outside S w = weight k S w := by
  induction w with
  | nil => simp [weight, outside, hp]
  | cons x w ih =>
    have hrest := ih (by simp only [List.length_cons] at hlen; omega)
    rw [outside] at hrest
    rw [List.cons_append, weight, weight, outside, List.countP_cons, List.length_append,
      List.length_singleton]
    simp only [List.length_cons] at hlen
    by_cases hx : x ∈ S
    · simp only [hx, if_true, not_true_eq_false, decide_false, Bool.false_eq_true, if_false]
      omega
    · simp only [hx, if_false, not_false_eq_true, decide_true, if_true]
      omega

theorem weight_hit (hp : p ∈ S) (hw : w.Nodup) (hmem : p ∈ w) (hlen : w.length ≤ k) :
    weight k S (w.filter (· ≠ p) ++ [p]) ≤ weight k S w := by
  induction w with
  | nil => exact absurd hmem List.not_mem_nil
  | cons x w ih =>
    obtain ⟨hx, hnodup⟩ := List.nodup_cons.mp hw
    simp only [List.length_cons] at hlen
    by_cases heq : x = p
    · subst heq
      have hconcat := weight_concat (k := k) (S := S) (w := w) hp (by omega)
      rw [List.filter_cons_of_neg (by simp), filter_ne_of_notMem hx, weight]
      omega
    · have hmem' : p ∈ w := (List.mem_cons.mp hmem).resolve_left (Ne.symm heq)
      have hrest := ih hnodup hmem' (by omega)
      have hcount := length_touch hnodup hmem'
      rw [List.filter_cons_of_pos (by simpa using heq), List.cons_append, weight, weight, hcount]
      omega

/-- Dropping keys costs the policy `k` for each. -/
theorem weight_drop (hw : w.Nodup) : weight k T w ≤ weight k S w + k * (S \ T).card := by
  have hcount : weight k T w ≤ weight k S w + k * w.countP (fun x ↦ x ∈ S ∧ x ∉ T) := by
    clear hw
    induction w with
    | nil => exact Nat.zero_le _
    | cons x w ih =>
      rw [weight, weight, List.countP_cons]
      by_cases hdrop : x ∈ S ∧ x ∉ T
      · rw [if_pos hdrop.1, if_neg hdrop.2, if_pos (decide_eq_true hdrop), Nat.mul_add, Nat.mul_one]
        omega
      · rw [if_neg (fun h ↦ hdrop (of_decide_eq_true h)), Nat.add_zero]
        by_cases hx' : x ∈ T
        · rw [if_pos hx']
          omega
        · rw [if_neg hx', if_neg (fun hx ↦ hdrop ⟨hx, hx'⟩)]
          omega
  have hcard : w.countP (fun x ↦ x ∈ S ∧ x ∉ T) ≤ (S \ T).card := by
    rw [List.countP_eq_length_filter, ← List.toFinset_card_of_nodup (hw.filter _)]
    apply Finset.card_le_card
    intro x hx
    rw [List.mem_toFinset, List.mem_filter] at hx
    simpa using hx.2
  exact hcount.trans (Nat.add_le_add_left (Nat.mul_le_mul_left k hcard) _)

/-- A policy that holds `p` has at most `h - 1` of the other keys. -/
theorem le_outside (hw : w.Nodup) (hnot : p ∉ w) (hp : p ∈ S) (hS : S.card ≤ h) :
    w.length + 1 ≤ outside S w + h := by
  have hinside : w.countP (· ∈ S) ≤ (S.erase p).card := by
    rw [List.countP_eq_length_filter, ← List.toFinset_card_of_nodup (hw.filter _)]
    apply Finset.card_le_card
    intro x hx
    rw [List.mem_toFinset, List.mem_filter] at hx
    exact Finset.mem_erase.mpr ⟨ne_of_mem_of_not_mem hx.1 hnot, of_decide_eq_true hx.2⟩
  have hsplit := List.length_eq_countP_add_countP (fun x ↦ decide (x ∈ S)) (l := w)
  have hcard := Finset.card_erase_add_one hp
  have hout : outside S w = w.countP (fun x ↦ ¬ decide (x ∈ S) = true) := by simp [outside]
  omega

theorem serve_nodup (hw : w.Nodup) (p : K) : (serve k w p).Nodup := by
  have hconcat : ∀ w' : List K, w'.Nodup → p ∉ w' → (w' ++ [p]).Nodup := fun w' hw' hp ↦
    List.nodup_append.mpr ⟨hw', List.nodup_singleton p, fun a ha b hb heq ↦
      hp (List.mem_singleton.mp hb ▸ heq ▸ ha)⟩
  rw [serve]
  split_ifs with hmem hfull
  · exact hconcat _ (hw.filter _) (by simp)
  · exact hconcat _ hw.tail (fun hp ↦ hmem (List.mem_of_mem_tail hp))
  · exact hconcat _ hw hmem

theorem serve_length (hw : w.Nodup) (hlen : w.length ≤ k) (hk : 0 < k) (p : K) :
    (serve k w p).length ≤ k := by
  rw [serve]
  split_ifs with hmem hfull
  · rwa [length_touch hw hmem]
  · rw [List.length_append, List.length_tail, List.length_singleton]
    omega
  · rw [List.length_append, List.length_singleton]
    omega

theorem weight_serve (hk : 0 < k) (hw : w.Nodup) (hlen : w.length ≤ k) (hp : p ∈ S)
    (hS : S.card ≤ h) :
    (k + 1 - h) * evicts k w p + weight k S (serve k w p) ≤ weight k S w := by
  rw [serve, evicts]
  split_ifs with hboth hmem hfull hmem hfull
  · exact absurd hmem hboth.1
  · -- an eviction takes one off the rank of each key outside
    obtain ⟨x, w, rfl⟩ := List.exists_cons_of_length_pos (hfull.symm ▸ hk)
    have hout := le_outside hw hboth.1 hp hS
    have hconcat := weight_concat (k := k) (w := w) hp (by simp at hlen; omega)
    rw [List.tail_cons, weight, Nat.mul_one]
    simp only [outside, List.countP_cons, List.length_cons] at hout hconcat hfull ⊢
    by_cases hx : x ∈ S
    · simp only [hx, not_true_eq_false, decide_false, Bool.false_eq_true, if_false] at hout
      rw [if_pos hx]
      omega
    · simp only [hx, not_false_eq_true, decide_true, if_true] at hout
      rw [if_neg hx]
      omega
  · exact absurd hboth.2 hfull
  · rw [Nat.mul_zero, Nat.zero_add]
    exact weight_hit hp hw hmem hlen
  · exact absurd ⟨hmem, hfull⟩ hboth
  · have hconcat := weight_concat (k := k) hp hlen
    omega

theorem evictions_weight (hk : 0 < k) {Ss : List (Finset K)} (hs : Schedule h S us Ss)
    (hw : w.Nodup) (hlen : w.length ≤ k) :
    (k + 1 - h) * evictions k w us ≤ weight k S w + k * drops S Ss := by
  induction hs generalizing w with
  | nil S => simp [evictions]
  | @cons S T p us Ss hp hS hs ih =>
    have hstep := weight_serve hk hw hlen hp hS
    have hdrop := weight_drop (k := k) (S := S) (T := T) hw
    have hrest := ih (serve_nodup hw p) (serve_length hw hlen hk p)
    rw [evictions, drops, Nat.mul_add, Nat.mul_add]
    omega

/-- Least recently used with `k` places, against any policy with `h` places
that knows the whole sequence. -/
theorem competitive (hk : 0 < k) {Ss : List (Finset K)} (hs : Schedule h ∅ us Ss) :
    (k + 1 - h) * evictions k [] us ≤ k * loads ∅ Ss := by
  have hweight := evictions_weight hk hs List.nodup_nil (Nat.zero_le k)
  have hdrops := Nat.mul_le_mul_left k (drops_le ∅ Ss)
  rw [Finset.card_empty, Nat.zero_add] at hdrops
  rw [weight, Nat.zero_add] at hweight
  exact hweight.trans hdrops

end LowLevel.Basis.Paging
