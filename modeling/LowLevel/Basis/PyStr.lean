import Mathlib.Algebra.GroupWithZero.Nat
import Mathlib.Data.List.Basic

namespace LowLevel.Basis.PyStr

open Function

/-- A character of a Python string, the surrogates included. -/
abbrev CodePoint := Fin 0x110000

instance codePoint_neZero : NeZero 0x110000 := ⟨by decide⟩

abbrev Str := List CodePoint

instance : LawfulBEq Str := inferInstance

def ord (c : Char) : CodePoint := ⟨c.toNat, by
  have hvalid : c.toNat.isValidChar := c.valid
  unfold Nat.isValidChar at hvalid
  omega⟩

theorem ord_injective : Injective ord := by
  intro c d h
  have hval : c.toNat = d.toNat := congrArg (fun x : CodePoint ↦ x.val) h
  exact Char.toNat_inj.mp hval

def between (a b : Char) (c : CodePoint) : Bool := ord a ≤ c && c ≤ ord b

def lit (s : String) : Str := s.toList.map ord

def natStr (n : ℕ) : Str := (Nat.toDigits 10 n).map ord

theorem natStr_injective : Injective natStr := by
  intro m n h
  have hdigits := (List.map_inj_right ord_injective).mp h
  rw [← Nat.ofDigitChars_toDigits (by omega : 1 < 10) (Nat.le_refl 10) (n := m), hdigits,
    Nat.ofDigitChars_toDigits (by omega) (Nat.le_refl 10)]

def stripChar (c : CodePoint) (s : Str) : Str :=
  ((s.dropWhile (· == c)).reverse.dropWhile (· == c)).reverse

/-- `s.split(c, n)` -/
def splitMax (c : CodePoint) : ℕ → Str → List Str
  | 0, s => [s]
  | n + 1, s =>
    match s.idxOf? c with
    | none => [s]
    | some i => s.take i :: splitMax c n (s.drop (i + 1))

/-- `[x for x in s.split(c) if x]` -/
def tokens (c : CodePoint) (s : Str) : List Str := (s.splitOn c).filter (fun x ↦ !x.isEmpty)

/-- What `str.lower` looks up of a character. -/
structure CaseTable where
  lower : CodePoint → Str
  cased : CodePoint → Bool
  ignorable : CodePoint → Bool

/-- Whether a capital sigma after `before` (read backwards) and before `after`
ends a word. -/
def CaseTable.final (t : CaseTable) (before after : Str) : Bool :=
  (before.dropWhile t.ignorable).head?.any t.cased &&
    !(after.dropWhile t.ignorable).head?.any t.cased

def CaseTable.lowerGo (t : CaseTable) : Str → Str → Str
  | _, [] => []
  | before, c :: s =>
    (if c = ord 'Σ' then [if t.final before s then ord 'ς' else ord 'σ'] else t.lower c) ++
      lowerGo t (c :: before) s

/-- `str.lower`: each character by the table, except that the lower case of a
capital sigma depends on where it stands. -/
def CaseTable.strLower (t : CaseTable) (s : Str) : Str := t.lowerGo [] s

variable {c : CodePoint} {s t pre post : Str} {ts : List Str}

theorem between_iff {a b : Char} : between a b c = true ↔ a.toNat ≤ c.val ∧ c.val ≤ b.toNat := by
  rw [between, Bool.and_eq_true, decide_eq_true_eq, decide_eq_true_eq]
  exact Iff.rfl

theorem natStr_ne_nil (n : ℕ) : natStr n ≠ [] := by
  intro h
  exact Nat.toDigits_ne_nil (List.map_eq_nil_iff.mp h)

theorem mem_natStr {n : ℕ} (h : c ∈ natStr n) : between '0' '9' c = true := by
  obtain ⟨d, hd, rfl⟩ := List.mem_map.mp h
  have hdigit := Nat.isDigit_of_mem_toDigits (by omega) (Nat.le_refl 10) hd
  rw [Char.isDigit, Bool.and_eq_true, decide_eq_true_eq, decide_eq_true_eq] at hdigit
  exact between_iff.mpr hdigit

theorem CaseTable.lowerGo_self {table : CaseTable}
    (h : ∀ c ∈ s, c ≠ ord 'Σ' ∧ table.lower c = [c]) (before : Str) :
    table.lowerGo before s = s := by
  induction s generalizing before with
  | nil => rfl
  | cons c s ih =>
    obtain ⟨hne, hlower⟩ := h c List.mem_cons_self
    rw [lowerGo, if_neg hne, hlower, ih (fun d hd ↦ h d (List.mem_cons_of_mem _ hd)),
      List.singleton_append]

theorem CaseTable.mem_lowerGo {table : CaseTable} {before : Str} (h : c ∈ table.lowerGo before s) :
    c = ord 'ς' ∨ c = ord 'σ' ∨ ∃ d ∈ s, d ≠ ord 'Σ' ∧ c ∈ table.lower d := by
  induction s generalizing before with
  | nil => cases h
  | cons d s ih =>
    rw [lowerGo] at h
    rcases List.mem_append.mp h with h | h
    · rcases eq_or_ne d (ord 'Σ') with heq | hne
      · rw [if_pos heq, List.mem_singleton] at h
        split_ifs at h with hfinal
        · exact .inl h
        · exact .inr (.inl h)
      · rw [if_neg hne] at h
        exact .inr (.inr ⟨d, List.mem_cons_self, hne, h⟩)
    · refine (ih h).imp_right (fun h ↦ h.imp_right (fun hex ↦ ?_))
      obtain ⟨d', hd', hc⟩ := hex
      exact ⟨d', List.mem_cons_of_mem _ hd', hc⟩

theorem stripChar_pad (hhead : s.head? ≠ some c) (hlast : s.getLast? ≠ some c)
    (ht : t = [] ∨ t = [c] ∧ s ≠ []) : stripChar c (s ++ t) = s := by
  have hfront : (s ++ t).head? ≠ some c := by
    rcases eq_or_ne s [] with rfl | hne
    · rcases ht with rfl | ⟨-, hne⟩
      · exact hhead
      · exact absurd rfl hne
    · rwa [List.head?_append_of_ne_nil _ hne]
  have hback : s.reverse.head? ≠ some c := by rwa [List.head?_reverse]
  rw [stripChar, List.dropWhile_beq_eq_self_of_head?_ne hfront, List.reverse_append]
  rcases ht with rfl | ⟨rfl, -⟩
  · rw [List.reverse_nil, List.nil_append, List.dropWhile_beq_eq_self_of_head?_ne hback,
      List.reverse_reverse]
  · rw [List.reverse_singleton, List.singleton_append, List.dropWhile_cons_of_pos (by simp),
      List.dropWhile_beq_eq_self_of_head?_ne hback, List.reverse_reverse]

theorem idxOf?_cut (h : c ∉ pre) : (pre ++ c :: post).idxOf? c = some pre.length := by
  induction pre with
  | nil => simp [List.idxOf?_cons]
  | cons x pre ih =>
    rw [List.mem_cons, not_or] at h
    simp [List.idxOf?_cons, ih h.2, Ne.symm h.1]

theorem take_cut (pre post : Str) (c : CodePoint) : (pre ++ c :: post).take pre.length = pre :=
  List.take_left

theorem drop_cut (pre post : Str) (c : CodePoint) :
    (pre ++ c :: post).drop (pre.length + 1) = post := by
  rw [← List.drop_drop, List.drop_left, List.drop_one, List.tail_cons]

theorem cut_cases (c : CodePoint) (s : Str) :
    c ∉ s ∨ ∃ pre post, s = pre ++ c :: post ∧ c ∉ pre := by
  rcases Decidable.em (c ∈ s) with h | h
  · exact .inr (List.eq_append_cons_of_mem h)
  · exact .inl h

theorem idxOf?_eq_some {i : ℕ} (h : s.idxOf? c = some i) :
    ∃ pre post, s = pre ++ c :: post ∧ c ∉ pre ∧ i = pre.length := by
  rcases cut_cases c s with hno | ⟨pre, post, rfl, hpre⟩
  · rw [List.idxOf?_eq_none_iff.mpr hno] at h
    cases h
  · rw [idxOf?_cut hpre] at h
    cases h
    exact ⟨pre, post, rfl, hpre, rfl⟩

theorem cut_inj {pre' post' : Str} (h : pre ++ c :: post = pre' ++ c :: post') (hpre : c ∉ pre)
    (hpre' : c ∉ pre') : pre = pre' ∧ post = post' := by
  have hlen : some pre.length = some pre'.length := by
    rw [← idxOf?_cut hpre, h, idxOf?_cut hpre']
  obtain ⟨heq, hcons⟩ := List.append_inj h (Option.some.inj hlen)
  exact ⟨heq, (List.cons.inj hcons).2⟩

theorem pad_inj {i j : ℕ} (h : List.replicate i c ++ s = List.replicate j c ++ t)
    (hs : s.head? ≠ some c) (ht : t.head? ≠ some c) : i = j ∧ s = t := by
  induction i generalizing j with
  | zero =>
    cases j with
    | zero => exact ⟨rfl, h⟩
    | succ j =>
      rw [List.replicate_zero, List.nil_append] at h
      rw [h] at hs
      exact absurd rfl hs
  | succ i ih =>
    cases j with
    | zero =>
      rw [List.replicate_zero, List.nil_append] at h
      rw [← h] at ht
      exact absurd rfl ht
    | succ j =>
      obtain ⟨hij, hst⟩ := ih (List.cons.inj h).2
      exact ⟨congrArg (· + 1) hij, hst⟩

theorem pad_end_inj {i j : ℕ} (h : s ++ List.replicate i c = t ++ List.replicate j c)
    (hs : c ∉ s) (ht : c ∉ t) : s = t ∧ i = j := by
  have hcount := congrArg (List.count c) h
  rw [List.count_append, List.count_append, List.count_eq_zero_of_not_mem hs,
    List.count_eq_zero_of_not_mem ht, List.count_replicate_self, List.count_replicate_self]
    at hcount
  have hij : i = j := by omega
  rw [hij] at h
  exact ⟨List.append_cancel_right h, hij⟩

theorem head?_ne_of_word (hne : t ≠ []) (hc : c ∉ t) (s : Str) : (t ++ s).head? ≠ some c := by
  obtain ⟨d, t, rfl⟩ := List.exists_cons_of_ne_nil hne
  rw [List.cons_append, List.head?_cons, Ne, Option.some.injEq]
  intro heq
  subst heq
  exact hc List.mem_cons_self

theorem splitMax_cut (n : ℕ) (h : c ∉ pre) :
    splitMax c (n + 1) (pre ++ c :: post) = pre :: splitMax c n post := by
  rw [splitMax, idxOf?_cut h]
  simp only [take_cut, drop_cut]

theorem splitMax_notMem (n : ℕ) (h : c ∉ s) : splitMax c n s = [s] := by
  cases n with
  | zero => rfl
  | succ n => rw [splitMax, List.idxOf?_eq_none_iff.mpr h]

theorem splitMax_eq_cons {n : ℕ} (h : splitMax c (n + 1) s = t :: ts) (hts : ts ≠ []) :
    ∃ post, s = t ++ c :: post ∧ c ∉ t ∧ splitMax c n post = ts := by
  rcases cut_cases c s with hno | ⟨pre, post, rfl, hpre⟩
  · rw [splitMax_notMem _ hno] at h
    cases h
    exact absurd rfl hts
  · rw [splitMax_cut n hpre] at h
    cases h
    exact ⟨post, rfl, hpre, rfl⟩

theorem splitOn_eq_cons (h : s.splitOn c = t :: ts) (hts : ts ≠ []) :
    ∃ post, s = t ++ c :: post ∧ c ∉ t ∧ post.splitOn c = ts := by
  rcases cut_cases c s with hno | ⟨pre, post, rfl, hpre⟩
  · rw [List.splitOn_eq_singleton hno] at h
    cases h
    exact absurd rfl hts
  · rw [List.splitOn_append_cons_self_of_not_mem hpre] at h
    cases h
    exact ⟨post, rfl, hpre, rfl⟩

theorem splitOn_eq_single (h : s.splitOn c = [t]) : s = t ∧ c ∉ t := by
  rcases cut_cases c s with hno | ⟨pre, post, rfl, hpre⟩
  · rw [List.splitOn_eq_singleton hno] at h
    cases h
    exact ⟨rfl, hno⟩
  · rw [List.splitOn_append_cons_self_of_not_mem hpre] at h
    have hne := List.splitOn_ne_nil c post
    simp only [List.cons.injEq] at h
    exact absurd h.2 hne

theorem tokens_nil (c : CodePoint) : tokens c [] = [] := by simp [tokens]

theorem tokens_sep (c : CodePoint) (s : Str) : tokens c (c :: s) = tokens c s := by
  have hsplit := List.splitOn_append_cons_self_of_not_mem (List.not_mem_nil (a := c)) s
  rw [List.nil_append] at hsplit
  simp [tokens, hsplit]

theorem tokens_pad (c : CodePoint) (n : ℕ) (s : Str) :
    tokens c (List.replicate n c ++ s) = tokens c s := by
  induction n with
  | zero => rfl
  | succ n ih => rw [List.replicate_succ, List.cons_append, tokens_sep, ih]

theorem tokens_word (h : c ∉ t) (hne : t ≠ []) : tokens c t = [t] := by
  simp [tokens, List.splitOn_eq_singleton h, hne]

theorem tokens_word_sep (h : c ∉ t) (hne : t ≠ []) (s : Str) :
    tokens c (t ++ c :: s) = t :: tokens c s := by
  simp [tokens, List.splitOn_append_cons_self_of_not_mem h, hne]

theorem tokens_eq_nil (h : tokens c s = []) : ∃ n, s = List.replicate n c := by
  induction hlen : s.length using Nat.strongRecOn generalizing s with
  | ind len ih =>
    rcases cut_cases c s with hno | ⟨pre, post, rfl, hpre⟩
    · rcases eq_or_ne s [] with rfl | hne
      · exact ⟨0, rfl⟩
      · rw [tokens_word hno hne] at h
        cases h
    · rcases eq_or_ne pre [] with rfl | hne
      · rw [List.nil_append, tokens_sep] at h
        obtain ⟨n, rfl⟩ := ih post.length (by simp at hlen; omega) h rfl
        exact ⟨n + 1, rfl⟩
      · rw [tokens_word_sep hpre hne] at h
        cases h

theorem tokens_eq_cons (h : tokens c s = t :: ts) :
    t ≠ [] ∧ c ∉ t ∧ ∃ n, (s = List.replicate n c ++ t ∧ ts = []) ∨
      ∃ post, s = List.replicate n c ++ (t ++ c :: post) ∧ tokens c post = ts := by
  induction hlen : s.length using Nat.strongRecOn generalizing s with
  | ind len ih =>
    rcases cut_cases c s with hno | ⟨pre, post, rfl, hpre⟩
    · rcases eq_or_ne s [] with rfl | hne
      · rw [tokens_nil] at h
        cases h
      · rw [tokens_word hno hne] at h
        cases h
        exact ⟨hne, hno, 0, .inl ⟨rfl, rfl⟩⟩
    · rcases eq_or_ne pre [] with rfl | hne
      · rw [List.nil_append, tokens_sep] at h
        obtain ⟨ht, hc, n, hcase⟩ := ih post.length (by simp at hlen; omega) h rfl
        refine ⟨ht, hc, n + 1, ?_⟩
        rcases hcase with ⟨rfl, hts⟩ | ⟨post', rfl, hts⟩
        · exact .inl ⟨rfl, hts⟩
        · exact .inr ⟨post', rfl, hts⟩
      · rw [tokens_word_sep hpre hne] at h
        cases h
        exact ⟨hne, hpre, 0, .inr ⟨post, rfl, rfl⟩⟩

theorem tokens_eq_pair {u v : Str} : tokens c s = [u, v] ↔ u ≠ [] ∧ c ∉ u ∧ v ≠ [] ∧ c ∉ v ∧
    ∃ i j k, s = List.replicate i c ++
      (u ++ c :: (List.replicate j c ++ (v ++ List.replicate k c))) := by
  constructor
  · intro h
    obtain ⟨hu, hcu, i, ⟨-, hts⟩ | ⟨post, rfl, hpost⟩⟩ := tokens_eq_cons h
    · cases hts
    · obtain ⟨hv, hcv, j, hcase⟩ := tokens_eq_cons hpost
      refine ⟨hu, hcu, hv, hcv, i, j, ?_⟩
      rcases hcase with ⟨rfl, -⟩ | ⟨rest, rfl, hrest⟩
      · exact ⟨0, by simp⟩
      · obtain ⟨k, rfl⟩ := tokens_eq_nil hrest
        exact ⟨k + 1, rfl⟩
  · intro hall
    obtain ⟨hu, hcu, hv, hcv, i, j, k, rfl⟩ := hall
    rw [tokens_pad, tokens_word_sep hcu hu, tokens_pad]
    cases k with
    | zero => rw [List.replicate_zero, List.append_nil, tokens_word hcv hv]
    | succ k =>
      have hblank := tokens_pad c k []
      rw [List.append_nil, tokens_nil] at hblank
      rw [List.replicate_succ, tokens_word_sep hcv hv, hblank]

end LowLevel.Basis.PyStr
