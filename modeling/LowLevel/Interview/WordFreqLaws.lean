import LowLevel.Interview.WordFreq

namespace LowLevel.Interview.WordFreqLaws

open Basis.PyStr Basis.Ranking Basis.Runs WordFreq

variable {text t₁ t₂ sep pre post : Str}

/-- The other case of an ASCII letter. -/
def flipCase (c : CodePoint) : CodePoint :=
  if between 'A' 'Z' c then c + 32 else if between 'a' 'z' c then c - 32 else c

/-- The count that `top_n_words` reports for a word. -/
def reported (text : Str) (n : ℤ) (w : Str) : ℕ := ((topNWords text n).lookup w).getD 0

def lowerChar (c : CodePoint) : CodePoint := if between 'A' 'Z' c then c + 32 else c

theorem val_add {c : CodePoint} (h : between 'A' 'Z' c = true) : (c + 32).val = c.val + 32 := by
  have hc := between_iff.mp h
  simp only [Char.reduceToNat] at hc
  have hval : (c + 32).val = (c.val + 32) % 0x110000 := Fin.val_add c 32
  omega

theorem val_sub {c : CodePoint} (h : between 'a' 'z' c = true) : (c - 32).val = c.val - 32 := by
  have hc := between_iff.mp h
  simp only [Char.reduceToNat] at hc
  exact Fin.sub_val_of_le (Fin.le_def.mpr (show 32 ≤ c.val by omega))

theorem isWordChar_lower (c : CodePoint) : isWordChar (lowerChar c) = isWordChar c := by
  rw [lowerChar]
  split_ifs with h
  · have hval := val_add h
    rw [Bool.eq_iff_iff]
    simp only [isWordChar, Bool.or_eq_true, between_iff, hval, Char.reduceToNat] at h ⊢
    omega
  · rfl

theorem lower_flipCase (c : CodePoint) : lowerChar (flipCase c) = lowerChar c := by
  rw [flipCase]
  split_ifs with hupper hlower
  · have hval := val_add hupper
    have hnot : ¬ between 'A' 'Z' (c + 32) = true := by
      simp only [between_iff, hval, Char.reduceToNat] at hupper ⊢
      omega
    rw [lowerChar, lowerChar, if_neg hnot, if_pos hupper]
  · have hval := val_sub hlower
    have hup : between 'A' 'Z' (c - 32) = true := by
      simp only [between_iff, hval, Char.reduceToNat] at hlower ⊢
      omega
    have hback : c - 32 + 32 = c := by
      apply Fin.ext
      simp only [between_iff, Char.reduceToNat] at hlower
      rw [val_add hup, hval]
      omega
    rw [lowerChar, lowerChar, if_pos hup, if_neg hupper, hback]
  · rfl

theorem words_lower (text : Str) : words text = runs isWordChar (lower text) :=
  (runs_map isWordChar_lower text).symm

theorem words_flip (pre post : Str) (c : CodePoint) :
    words (pre ++ flipCase c :: post) = words (pre ++ c :: post) := by
  have hlower : lower (pre ++ flipCase c :: post) = lower (pre ++ c :: post) := by
    rw [lower, lower, List.map_append, List.map_append, List.map_cons, List.map_cons]
    exact congrArg (fun d ↦ _ ++ d :: _) (lower_flipCase c)
  rw [words_lower, words_lower, hlower]

theorem words_gap (hne : sep ≠ []) (hsep : ∀ c ∈ sep, isWordChar c = false) (pre post : Str) :
    words (pre ++ sep ++ post) = words pre ++ words post := by
  rw [words, runs_gap hne hsep, List.map_append]
  rfl

theorem topNWords_congr (h : words t₁ = words t₂) (n : ℤ) : topNWords t₁ n = topNWords t₂ n := by
  obtain ⟨r₁, hr₁, htop₁⟩ := topNWords_ranks t₁
  obtain ⟨r₂, hr₂, htop₂⟩ := topNWords_ranks t₂
  rw [h] at hr₁
  rw [htop₁, htop₂, hr₁.unique hr₂]

/-- With room for every word, all of them are counted. -/
theorem topNWords_counted {n : ℤ} (hn : (words text).dedup.length ≤ n) :
    Counted (words text) (topNWords text n) := by
  obtain ⟨r, hr, htop⟩ := topNWords_ranks text
  have hcounted : Counted (words text) r := hr.counted
  have hlength := hcounted.length
  have hall : topNWords text n = r := by
    rw [htop, sliceTo_eq_take_iff.mpr (.inl (by omega)), List.take_of_length_le (by omega)]
  rwa [hall]

theorem reported_eq {n : ℤ} (hn : (words text).dedup.length ≤ n) (w : Str) :
    reported text n w = (words text).countP (fun x ↦ x = w) := by
  apply Eq.trans _ ((topNWords_counted hn).lookup_count w)
  rw [reported]
  congr
  exact lawful_beq_subsingleton _ _

/-- `top_n_words` counts the longest runs of letters and digits, without regard
to case, to the separators between them, or to where the text is cut. -/
theorem top_n_words_runs (text : Str) :
    (∃ ws, MaximalRuns isWordChar text ws ∧ ∀ n : ℤ, (ws.map lower).dedup.length ≤ n →
        (copies (topNWords text n)).Perm (ws.map lower)) ∧
      (∀ pre c post n, text = pre ++ c :: post →
        topNWords (pre ++ flipCase c :: post) n = topNWords text n) ∧
      (∀ pre sep sep' post n, text = pre ++ sep ++ post → sep ≠ [] → sep' ≠ [] →
        (∀ c ∈ sep, isWordChar c = false) → (∀ c ∈ sep', isWordChar c = false) →
        topNWords (pre ++ sep' ++ post) n = topNWords text n) ∧
      ∀ (t₁ sep t₂ : Str) (n n₁ n₂ : ℤ), text = t₁ ++ sep ++ t₂ → sep ≠ [] →
        (∀ c ∈ sep, isWordChar c = false) → (words text).dedup.length ≤ n →
        (words t₁).dedup.length ≤ n₁ → (words t₂).dedup.length ≤ n₂ →
        ∀ w, reported text n w = reported t₁ n₁ w + reported t₂ n₂ w := by
  refine ⟨⟨_, runs_maximal isWordChar text, fun n hn ↦ ?_⟩, ?_, ?_, ?_⟩
  · exact (topNWords_counted hn).copies
  · intro pre c post n htext
    rw [htext]
    exact topNWords_congr (words_flip pre post c) n
  · intro pre sep sep' post n htext hne hne' hsep hsep'
    rw [htext]
    apply topNWords_congr
    rw [words_gap hne hsep, words_gap hne' hsep']
  · intro t₁ sep t₂ n n₁ n₂ htext hne hsep hn hn₁ hn₂ w
    have hwords : words text = words t₁ ++ words t₂ := by
      rw [htext]
      exact words_gap hne hsep t₁ t₂
    rw [reported_eq hn, reported_eq hn₁, reported_eq hn₂, hwords, List.countP_append]

end LowLevel.Interview.WordFreqLaws
