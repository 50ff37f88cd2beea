import LowLevel.Basis.SwapRemove
import Mathlib.Data.Finset.Card

namespace LowLevel.ProperDS.TrieOracle

open Basis.AddressSpace Basis.Loop Basis.StaticArray Basis.SwapRemove

/-- The word list of the differential test of the trie: the strings in its
`char[8]` cells. -/
structure Ora where
  words : List (List UInt8)
  nwords : ℕ

namespace Ora

def find (s : Ora) (w : List UInt8) : Except Stop (Option ℕ) := scan (· == w) s.words s.nwords

def contains (s : Ora) (w : List UInt8) : Except Stop Bool := (s.find w).map Option.isSome

/-- `strncmp` over the length of `p` compares a prefix. -/
def startsWith (s : Ora) (p : List UInt8) : Except Stop Bool :=
  (scan (fun w ↦ p.isPrefixOf w) s.words s.nwords).map Option.isSome

/-- `snprintf` keeps the first 7 bytes of the word. -/
def insert (s : Ora) (w : List UInt8) : Except Stop (Bool × Ora) := do
  if ← s.contains w then
    return (false, s)
  let words ← assign s.words s.nwords (w.take 7)
  return (true, ⟨words, s.nwords + 1⟩)

def remove (s : Ora) (w : List UInt8) : Except Stop (Bool × Ora) := do
  match ← s.find w with
  | none => return (false, s)
  | some i =>
    let nwords := s.nwords - 1
    if i ≠ nwords then
      let words ← (read s.words nwords).bind (assign s.words i)
      return (true, ⟨words, nwords⟩)
    return (true, ⟨s.words, nwords⟩)

end Ora

/-- A string that a `char[8]` holds. -/
abbrev Word := {w : List UInt8 // 0 ∉ w ∧ w.length < 8}

inductive Op
  | insert (w : Word)
  | remove (w : Word)
  | contains (w : Word)
  | startsWith (p : Word)

def Ora.exec (s : Ora) : Op → Except Stop (Bool × Ora)
  | .insert w => s.insert w.val
  | .remove w => s.remove w.val
  | .contains w => (s.contains w.val).map (fun b ↦ (b, s))
  | .startsWith p => (s.startsWith p.val).map (fun b ↦ (b, s))

/-- The answers, each with the number of words after it. -/
def Ora.trace (s : Ora) : List Op → Except Stop (List (Bool × ℕ))
  | [] => .ok []
  | op :: ops => do
    let (answer, s) ← s.exec op
    return (answer, s.nwords) :: (← s.trace ops)

/-- A set of at most `cap` words. Only a new word for a full set has no answer. -/
def setExec (cap : ℕ) (S : Finset Word) : Op → Except Stop (Bool × Finset Word)
  | .insert w =>
    if w ∈ S then .ok (false, S)
    else if S.card = cap then .error (.store cap) else .ok (true, insert w S)
  | .remove w => .ok (decide (w ∈ S), S.erase w)
  | .contains w => .ok (decide (w ∈ S), S)
  | .startsWith p => .ok (decide (∃ w ∈ S, p.val <+: w.val), S)

def setTrace (cap : ℕ) (S : Finset Word) : List Op → Except Stop (List (Bool × ℕ))
  | [] => .ok []
  | op :: ops => do
    let (answer, S) ← setExec cap S op
    return (answer, S.card) :: (← setTrace cap S ops)

variable {cap : ℕ} {l pre post : List Word} {s : Ora} {w : Word}

structure Stores (cap : ℕ) (l : List Word) (s : Ora) : Prop where
  size : s.words.length = cap
  used : l.map Subtype.val <+: s.words
  nwords : s.nwords = l.length
  nodup : l.Nodup

theorem Stores.scanned (h : Stores cap l s) (p : List UInt8 → Bool) :
    scan p s.words s.nwords = .ok (l.findIdx? (p ∘ Subtype.val)) := by
  have hscan := scan_eq (p := p) h.used
  rwa [List.length_map, List.findIdx?_map, ← h.nwords] at hscan

theorem Stores.find (h : Stores cap l s) (w : Word) :
    (s.find w.val = .ok none ∧ w ∉ l) ∨
      ∃ pre post, l = pre ++ w :: post ∧ s.find w.val = .ok (some pre.length) := by
  rw [Ora.find, h.scanned]
  rcases findIdx?_split ((· == w.val) ∘ Subtype.val) l with
    ⟨hnone, hall⟩ | ⟨pre, x, post, hl, hx, hsome⟩
  · refine .inl ⟨by rw [hnone], fun hmem ↦ ?_⟩
    exact absurd (hall w hmem) (by simp)
  · have hw : x = w := Subtype.ext (by simpa using hx)
    exact .inr ⟨pre, post, by rw [hl, hw], by rw [hsome]⟩

theorem Stores.contains (h : Stores cap l s) (w : Word) :
    s.contains w.val = .ok (decide (w ∈ l.toFinset)) := by
  rcases h.find w with ⟨hfind, hnot⟩ | ⟨pre, post, rfl, hfind⟩
  · rw [Ora.contains, hfind, decide_eq_false (fun hmem ↦ hnot (List.mem_toFinset.mp hmem))]
    rfl
  · rw [Ora.contains, hfind, decide_eq_true (List.mem_toFinset.mpr (by simp))]
    rfl

theorem Stores.startsWith (h : Stores cap l s) (p : Word) :
    s.startsWith p.val = .ok (decide (∃ w ∈ l.toFinset, p.val <+: w.val)) := by
  rw [Ora.startsWith, h.scanned]
  rcases findIdx?_split ((fun w ↦ p.val.isPrefixOf w) ∘ Subtype.val) l with
    ⟨hnone, hall⟩ | ⟨pre, x, post, rfl, hx, hsome⟩
  · rw [hnone, decide_eq_false]
    · rfl
    · rintro ⟨w, hmem, hpre⟩
      have hfalse := hall w (List.mem_toFinset.mp hmem)
      rw [Function.comp_apply, List.isPrefixOf_iff_prefix.mpr hpre] at hfalse
      cases hfalse
  · rw [hsome, decide_eq_true]
    · rfl
    · exact ⟨x, List.mem_toFinset.mpr (by simp), List.isPrefixOf_iff_prefix.mp hx⟩

theorem Stores.insert (h : Stores cap l s) (hnot : w ∉ l) (hroom : l.length < cap) :
    ∃ s', s.insert w.val = .ok (true, s') ∧ Stores cap (l ++ [w]) s' := by
  have hshort : w.val.take 7 = w.val := List.take_of_length_le (by
    have hlen := w.property.2
    omega)
  have hused := prefix_concat h.used (by rw [List.length_map, h.size]; exact hroom) w.val
  rw [List.length_map] at hused
  refine ⟨⟨s.words.set l.length w.val, l.length + 1⟩, ?_,
    ⟨List.length_set.trans h.size, ?_, ?_, ?_⟩⟩
  · rw [Ora.insert, h.contains, ok_bind, decide_eq_false (fun hm ↦ hnot (List.mem_toFinset.mp hm)),
      if_neg (by simp), h.nwords, hshort, assign_eq (by rw [h.size]; exact hroom)]
    rfl
  · rw [List.map_append]
    exact hused
  · rw [List.length_append, List.length_singleton]
  · exact (List.perm_append_singleton w l).nodup_iff.mpr (List.nodup_cons.mpr ⟨hnot, h.nodup⟩)

theorem erase_toFinset (h : (pre ++ w :: post).Nodup) :
    (pre ++ post).toFinset = (pre ++ w :: post).toFinset.erase w := by
  have hnot := (List.nodup_cons.mp (List.perm_middle.nodup_iff.mp h)).1
  ext x
  rw [Finset.mem_erase, List.mem_toFinset, List.mem_toFinset, List.perm_middle.mem_iff,
    List.mem_cons]
  constructor
  · intro hx
    exact ⟨fun heq ↦ hnot (heq ▸ hx), .inr hx⟩
  · rintro ⟨hne, heq | hx⟩
    · exact absurd heq hne
    · exact hx

/-- The removal skips the copy of the last word onto itself. -/
theorem Stores.remove (h : Stores cap l s) (w : Word) :
    ∃ s' l', s.remove w.val = .ok (decide (w ∈ l.toFinset), s') ∧ Stores cap l' s' ∧
      l'.toFinset = l.toFinset.erase w := by
  rcases h.find w with ⟨hfind, hnot⟩ | ⟨pre, post, rfl, hfind⟩
  · have hset : w ∉ l.toFinset := fun hm ↦ hnot (List.mem_toFinset.mp hm)
    refine ⟨s, l, ?_, h, (Finset.erase_eq_of_notMem hset).symm⟩
    rw [Ora.remove, hfind, decide_eq_false hset]
    rfl
  have hn := h.nwords
  have hsub : (pre ++ post).Sublist (pre ++ w :: post) :=
    (List.sublist_cons_self w post).append_left pre
  rw [List.length_append, List.length_cons] at hn
  rw [Ora.remove, hfind, ok_bind, decide_eq_true (List.mem_toFinset.mpr (by simp)),
    ← erase_toFinset h.nodup]
  dsimp only
  rcases eq_or_ne pre.length (s.nwords - 1) with hlast | hne
  · obtain rfl : post = [] := List.length_eq_zero_iff.mp (by omega)
    refine ⟨⟨s.words, s.nwords - 1⟩, pre, if_neg (not_not_intro hlast),
      ⟨h.size, ?_, hlast.symm, ?_⟩, by rw [List.append_nil]⟩
    · exact ((List.prefix_append pre [w]).map Subtype.val).trans h.used
    · exact h.nodup.sublist (List.sublist_append_left pre [w])
  · have hperm := swapRemove_perm pre post w
    have hlen := length_swapRemove (l := pre ++ w :: post) (i := pre.length) (by simp)
    obtain ⟨words, hassign, hsize, hused⟩ := assign_last h.used (i := pre.length) (by simp)
    rw [List.length_map, ← h.nwords] at hassign
    rw [← h.nwords] at hlen
    refine ⟨⟨words, s.nwords - 1⟩, swapRemove (pre ++ w :: post) pre.length, ?_,
      ⟨hsize.trans h.size, ?_, hlen.symm, ?_⟩, List.toFinset_eq_of_perm _ _ hperm⟩
    · rw [if_pos hne, hassign]
      rfl
    · rwa [← map_swapRemove]
    · exact hperm.nodup_iff.mpr (h.nodup.sublist hsub)

theorem Stores.exec (h : Stores cap l s) (op : Op) :
    (∃ answer s' l', s.exec op = .ok (answer, s') ∧ Stores cap l' s' ∧
      setExec cap l.toFinset op = .ok (answer, l'.toFinset)) ∨
      s.exec op = .error (.store cap) ∧ setExec cap l.toFinset op = .error (.store cap) := by
  have hcard := List.toFinset_card_of_nodup h.nodup
  cases op with
  | insert w =>
    by_cases hmem : w ∈ l
    · refine .inl ⟨false, s, l, ?_, h, if_pos (List.mem_toFinset.mpr hmem)⟩
      rw [Ora.exec, Ora.insert, h.contains, decide_eq_true (List.mem_toFinset.mpr hmem)]
      rfl
    · have hnot : w ∉ l.toFinset := fun hm ↦ hmem (List.mem_toFinset.mp hm)
      rcases Nat.lt_or_ge l.length cap with hroom | hfull
      · obtain ⟨s', hrun, hs'⟩ := h.insert hmem hroom
        refine .inl ⟨true, s', l ++ [w], hrun, hs', ?_⟩
        rw [setExec, if_neg hnot, if_neg (by omega), List.toFinset_append, List.toFinset_cons,
          List.toFinset_nil, Finset.union_comm, LawfulSingleton.insert_empty_eq,
          ← Finset.insert_eq]
      · have hle := h.used.length_le
        rw [List.length_map, h.size] at hle
        refine .inr ⟨?_, ?_⟩
        · rw [Ora.exec, Ora.insert, h.contains, ok_bind, decide_eq_false hnot, if_neg (by simp),
            assign, if_neg (by rw [h.size, h.nwords]; omega), h.nwords,
            Nat.le_antisymm hle hfull]
          rfl
        · rw [setExec, if_neg hnot, if_pos (by omega)]
  | remove w =>
    obtain ⟨s', l', hrun, hs', hset⟩ := h.remove w
    refine .inl ⟨_, s', l', hrun, hs', ?_⟩
    rw [setExec, hset]
  | contains w => exact .inl ⟨_, s, l, by rw [Ora.exec, h.contains]; rfl, h, rfl⟩
  | startsWith p => exact .inl ⟨_, s, l, by rw [Ora.exec, h.startsWith]; rfl, h, rfl⟩

theorem Stores.trace (h : Stores cap l s) (ops : List Op) :
    s.trace ops = setTrace cap l.toFinset ops := by
  induction ops generalizing l s with
  | nil => rfl
  | cons op ops ih =>
    rw [Ora.trace, setTrace]
    rcases h.exec op with ⟨answer, s', l', hrun, hs', hset⟩ | ⟨hrun, hset⟩
    · rw [hrun, hset, ok_bind, ok_bind]
      dsimp only
      rw [ih hs', List.toFinset_card_of_nodup hs'.nodup, hs'.nwords]
    · rw [hrun, hset]
      rfl

/-- Over every run on words that a `char[8]` holds, the word list is a finite
set of strings, asked for members and for prefixes of members. It writes past
its end exactly when a new word comes to a full set. -/
theorem word_list_is_set (cap : ℕ) (ops : List Op) :
    (Ora.mk (List.replicate cap []) 0).trace ops = setTrace cap ∅ ops :=
  Stores.trace (l := []) ⟨List.length_replicate, List.nil_prefix, rfl, List.nodup_nil⟩ ops

end LowLevel.ProperDS.TrieOracle
