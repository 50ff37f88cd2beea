import LowLevel.Basis.PyStr
import LowLevel.Basis.Ranking
import LowLevel.Basis.Runs

namespace LowLevel.Interview.WordFreq

open Basis.PyStr Basis.Ranking Basis.Runs Basis.SortBy

variable {w : Str}

/-- `[A-Za-z0-9]` -/
def isWordChar (c : CodePoint) : Bool := between 'A' 'Z' c || between 'a' 'z' c || between '0' '9' c

/-- `str.lower` on the characters that are left. -/
def lower (word : Str) : Str := word.map (fun c ↦ if between 'A' 'Z' c then c + 32 else c)

def blanked (text : Str) : Str := text.map (fun c ↦ if isWordChar c then c else ord ' ')

def topNWords (text : Str) (n : ℤ) : List (Str × ℕ) :=
  if text = [] then []
  else
    let text := (tokens (ord ' ') (blanked text)).map lower
    let counts := tally text
    (sliceTo n (sortBy (fun x ↦ toLex (-(occurrences counts x : ℤ), x)) counts.keys)).map
      (fun count ↦ (count, occurrences counts count))

/-- The maximal runs of ASCII letters and digits, in lower case. -/
def words (text : Str) : List Str := (runs isWordChar text).map lower

theorem blanked_word (h : ∀ c ∈ w, isWordChar c = true) : blanked w = w := by
  have hmap : blanked w = w.map id := List.map_congr_left (fun c hc ↦ if_pos (h c hc))
  rw [hmap, List.map_id]

theorem blank_notMem (h : ∀ c ∈ w, isWordChar c = true) : ord ' ' ∉ w := by
  apply notMem_word h
  decide

theorem tokens_blanked (text : Str) : tokens (ord ' ') (blanked text) = runs isWordChar text := by
  induction text using runs_induction (p := isWordChar) with
  | word w hw =>
    rw [blanked_word hw]
    rcases eq_or_ne w [] with rfl | hne
    · rw [tokens_nil, runs_nil]
    · rw [tokens_word (blank_notMem hw) hne, runs_word hw hne]
  | cut w c s hw hc ih =>
    have hblanked : blanked (w ++ c :: s) = w ++ ord ' ' :: blanked s := by
      rw [blanked, List.map_append, List.map_cons, hc]
      exact congrArg (· ++ _) (blanked_word hw)
    rw [hblanked, runs_cut hc]
    rcases eq_or_ne w [] with rfl | hne
    · rw [runs_nil, List.nil_append, List.nil_append, tokens_sep, ih]
    · rw [tokens_word_sep (blank_notMem hw) hne, runs_word hw hne, ih, List.singleton_append]

theorem topNWords_ranks (text : Str) :
    ∃ r, Ranks (words text) r ∧ ∀ n, topNWords text n = sliceTo n r := by
  rcases eq_or_ne text [] with rfl | hne
  · have hwords : words [] = [] := by rw [words, runs_nil, List.map_nil]
    refine ⟨[], ⟨by simp, by simp [hwords], .nil⟩, fun n ↦ ?_⟩
    simp [topNWords, sliceTo]
  · refine ⟨_, ranks_sortBy (tally (words text)).nodup (mem_keys_tally (words text)), fun n ↦ ?_⟩
    rw [sliceTo_map, topNWords, if_neg hne, tokens_blanked, ← words]
    simp only [occurrences_tally]
    rfl

/-- `top_n_words` cuts the one ranking of the words with `[:n]`. That is the
first `n` of it, and none for a negative `n`, except that a negative `n` leaves
words in when it does not reach back over all of them. -/
theorem top_n_words_iff (text : Str) :
    ∃ r, Ranks (words text) r ∧
      (∀ n, topNWords text n = r.take n.toNat ↔ 0 ≤ n ∨ (words text).dedup.length + n ≤ 0) ∧
      ∀ n m, n ≤ m → (topNWords text n <+: topNWords text m ↔
        0 ≤ n ∨ m < 0 ∨ (words text).dedup.length + n ≤ m) := by
  obtain ⟨r, hr, htop⟩ := topNWords_ranks text
  refine ⟨r, hr, ?_, ?_⟩
  · intro n
    rw [htop, sliceTo_eq_take_iff, hr.counted.length]
  · intro n m h
    rw [htop, htop, sliceTo_prefix_iff h, hr.counted.length]

theorem top_n_words_negative :
    ∃ r, Ranks (words (lit "a b c")) r ∧ topNWords (lit "a b c") (-1) ≠ r.take (-1 : ℤ).toNat ∧
      ¬ topNWords (lit "a b c") (-1) <+: topNWords (lit "a b c") 0 := by
  obtain ⟨r, hr, htop⟩ := topNWords_ranks (lit "a b c")
  have hlength : r.length = 3 := by
    rw [hr.counted.length]
    decide
  refine ⟨r, hr, ?_, ?_⟩
  · rw [htop, Ne, sliceTo_eq_take_iff, hlength]
    decide
  · rw [htop, htop, sliceTo_prefix_iff (by decide), hlength]
    decide

end LowLevel.Interview.WordFreq
