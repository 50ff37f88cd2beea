import LowLevel.Interview.Slugify
import LowLevel.Basis.Runs

namespace LowLevel.Interview.SlugifyWords

open Basis.PyStr Basis.Runs Slugify

variable {lower : Str → Str} {isalnum : CodePoint → Bool} {s w acc title : Str} {c : CodePoint}

/-- The words of a text, joined by single hyphens. -/
def hyphenated (words : List Str) : Str := [ord '-'].intercalate words

theorem slugStep_word (hw : ∀ c ∈ w, isalnum c = true) (acc : Str) :
    w.foldl (slugStep isalnum) acc = acc ++ w := by
  induction w generalizing acc with
  | nil => simp
  | cons c w ih =>
    have hc := hw c List.mem_cons_self
    rw [List.foldl_cons, ih (fun d hd ↦ hw d (List.mem_cons_of_mem _ hd)), slugStep, if_pos hc,
      List.append_assoc, List.singleton_append]

/-- A separator adds nothing to `acc`. -/
def Quiet (acc : Str) : Prop := acc = [] ∨ acc.getLast? = some (ord '-')

theorem slugStep_quiet (hc : isalnum c = false) (h : Quiet acc) : slugStep isalnum acc c = acc := by
  have hno : ¬ (acc ≠ [] ∧ acc.getLast? ≠ some (ord '-')) := by
    intro hboth
    exact h.elim hboth.1 hboth.2
  rw [slugStep, hc, if_neg Bool.false_ne_true, if_neg hno]

theorem slugStep_sep (hc : isalnum c = false) (hne : acc ≠ [])
    (hlast : acc.getLast? ≠ some (ord '-')) : slugStep isalnum acc c = acc ++ [ord '-'] := by
  rw [slugStep, hc, if_neg Bool.false_ne_true, if_pos ⟨hne, hlast⟩]

theorem words_nice (hdash : isalnum (ord '-') = false) (s : Str) :
    ∀ w ∈ runs isalnum s, w ≠ [] ∧ ord '-' ∉ w := by
  intro w hw
  obtain ⟨hne, hall⟩ := mem_runs hw
  exact ⟨hne, notMem_word (fun c hc ↦ (hall c hc).1) hdash⟩

/-- The loop adds the joined words, and at most a hyphen behind them. -/
theorem fold_quiet (hdash : isalnum (ord '-') = false) (s acc : Str) (h : Quiet acc) :
    ∃ tail, s.foldl (slugStep isalnum) acc = acc ++ (hyphenated (runs isalnum s) ++ tail) ∧
      (tail = [] ∨ tail = [ord '-'] ∧ runs isalnum s ≠ []) := by
  induction s using runs_induction (p := isalnum) generalizing acc with
  | word w hw =>
    refine ⟨[], ?_, .inl rfl⟩
    rcases eq_or_ne w [] with rfl | hne
    · simp [runs_nil, hyphenated]
    · rw [slugStep_word hw, runs_word hw hne, hyphenated, List.intercalate_singleton,
        List.append_nil]
  | cut w c s hw hc ih =>
    rw [List.foldl_append, List.foldl_cons, slugStep_word hw, runs_cut hc]
    rcases eq_or_ne w [] with rfl | hne
    · rw [List.append_nil, slugStep_quiet hc h, runs_nil, List.nil_append]
      exact ih acc h
    · have hlast : (acc ++ w).getLast? ≠ some (ord '-') := by
        rw [List.getLast?_append_of_ne_nil _ hne]
        intro heq
        exact notMem_word hw hdash (List.mem_of_getLast? heq)
      obtain ⟨tail, hfold, htail⟩ := ih (acc ++ w ++ [ord '-']) (.inr List.getLast?_concat)
      rw [slugStep_sep hc (by simp [hne]) hlast, hfold, runs_word hw hne, List.singleton_append]
      rcases eq_or_ne (runs isalnum s) [] with hnil | hrest
      · have htail : tail = [] := htail.resolve_right (fun hboth ↦ hboth.2 hnil)
        refine ⟨[ord '-'], ?_, .inr ⟨rfl, by simp⟩⟩
        simp [hnil, htail, hyphenated]
      · refine ⟨tail, ?_, htail.imp_right (fun hboth ↦ ⟨hboth.1, by simp⟩)⟩
        simp [hyphenated, List.intercalate_cons_of_ne_nil hrest]

theorem slugOf_eq (hdash : isalnum (ord '-') = false) (title : Str) :
    slugOf lower isalnum title = hyphenated (runs isalnum (lower title)) := by
  obtain ⟨tail, hfold, htail⟩ := fold_quiet hdash (lower title) [] (.inl rfl)
  have hnice := words_nice hdash (lower title)
  rw [slugOf, hfold, List.nil_append]
  apply stripChar_pad (join_head?_ne hnice) (join_getLast?_ne hnice)
  exact htail.imp_right (fun hboth ↦ ⟨hboth.1, mt (join_eq_nil_iff hnice).mp hboth.2⟩)

/-- `lower` leaves hyphens and lower-cased alphanumerics as they are. -/
def Settles (lower : Str → Str) (isalnum : CodePoint → Bool) : Prop :=
  ∀ title s, (∀ c ∈ s, c = ord '-' ∨ isalnum c = true ∧ c ∈ lower title) → lower s = s

/-- `str.lower` settles when the single lower-case characters do. -/
theorem strLower_settles {table : CaseTable}
    (hlower : ∀ c ≠ ord 'Σ', ∀ d ∈ table.lower c, d ≠ ord 'Σ' ∧ table.lower d = [d])
    (hsigma : table.lower (ord 'σ') = [ord 'σ']) (hfinal : table.lower (ord 'ς') = [ord 'ς'])
    (hdash : table.lower (ord '-') = [ord '-']) (isalnum : CodePoint → Bool) :
    Settles table.strLower isalnum := by
  intro title s hs
  apply CaseTable.lowerGo_self
  intro c hc
  rcases hs c hc with rfl | ⟨-, hmem⟩
  · exact ⟨by decide, hdash⟩
  · rcases CaseTable.mem_lowerGo hmem with rfl | rfl | ⟨d, -, hd, hmem⟩
    · exact ⟨by decide, hfinal⟩
    · exact ⟨by decide, hsigma⟩
    · exact hlower d hd c hmem

theorem slugOf_idempotent (hdash : isalnum (ord '-') = false) (hlower : Settles lower isalnum)
    (title : Str) :
    slugOf lower isalnum (slugOf lower isalnum title) = slugOf lower isalnum title := by
  have hsettled : lower (slugOf lower isalnum title) = slugOf lower isalnum title := by
    apply hlower title
    intro c hc
    rw [slugOf_eq hdash] at hc
    rcases mem_join hc with hc | ⟨w, hw, hc⟩
    · exact .inl hc
    · exact .inr ((mem_runs hw).2 c hc)
  have hwords : ∀ w ∈ runs isalnum (lower title), w ≠ [] ∧ ∀ c ∈ w, isalnum c = true := by
    intro w hw
    exact ⟨(mem_runs hw).1, fun c hc ↦ ((mem_runs hw).2 c hc).1⟩
  have hruns : runs isalnum (hyphenated (runs isalnum (lower title))) =
      runs isalnum (lower title) := runs_join hdash hwords
  rw [slugOf_eq hdash (slugOf lower isalnum title), hsettled, slugOf_eq hdash title, hruns]

/-- Without a list the slug is the words of the lower-cased title joined by
hyphens. Other separators in the lower-cased title give the same slug, and a
slug is its own slug. -/
theorem slugify_words (lower : Str → Str) (isalnum : CodePoint → Bool)
    (hdash : isalnum (ord '-') = false) (hlower : Settles lower isalnum) (title : Str) :
    (slugify lower isalnum title none).1 = hyphenated (runs isalnum (lower title)) ∧
      ((slugify lower isalnum title none).1 = [] ↔ runs isalnum (lower title) = []) ∧
      (slugify lower isalnum title none).1.head? ≠ some (ord '-') ∧
      (slugify lower isalnum title none).1.getLast? ≠ some (ord '-') ∧
      ¬ [ord '-', ord '-'] <:+: (slugify lower isalnum title none).1 ∧
      (∀ title' pre sep sep' post, lower title = pre ++ sep ++ post →
        lower title' = pre ++ sep' ++ post → sep ≠ [] → sep' ≠ [] →
        (∀ c ∈ sep, isalnum c = false) → (∀ c ∈ sep', isalnum c = false) →
        (slugify lower isalnum title none).1 = (slugify lower isalnum title' none).1) ∧
      (slugify lower isalnum (slugify lower isalnum title none).1 none).1 =
        (slugify lower isalnum title none).1 := by
  have hslug : ∀ title, (slugify lower isalnum title none).1 = slugOf lower isalnum title := by
    intro title
    simp [slugify]
  have hnice := words_nice hdash (lower title)
  simp only [hslug]
  refine ⟨slugOf_eq hdash title, ?_, ?_, ?_, ?_, ?_, slugOf_idempotent hdash hlower title⟩
  · rw [slugOf_eq hdash]
    exact join_eq_nil_iff hnice
  · rw [slugOf_eq hdash]
    exact join_head?_ne hnice
  · rw [slugOf_eq hdash]
    exact join_getLast?_ne hnice
  · intro hinfix
    rw [slugOf_eq hdash] at hinfix
    have hchain := List.IsChain.infix (join_isChain hnice) hinfix
    simp at hchain
  · intro title' pre sep sep' post htitle htitle' hne hne' hsep hsep'
    rw [slugOf_eq hdash, slugOf_eq hdash, htitle, htitle', runs_gap hne hsep, runs_gap hne' hsep']

def greekCapital (c : CodePoint) : Bool := between 'Α' 'Ρ' c || between 'Σ' 'Ω' c

def greekAlnum (c : CodePoint) : Bool := greekCapital c || between 'α' 'ω' c

/-- What Python knows of the Greek letters and the apostrophe. -/
def greek : CaseTable where
  lower := fun c ↦ if greekCapital c then [c + 32] else [c]
  cased := greekAlnum
  ignorable := fun c ↦ c == ord '\''

theorem greek_settled {c : CodePoint} (h : greekCapital c = false) :
    c ≠ ord 'Σ' ∧ greek.lower c = [c] := by
  constructor
  · intro heq
    rw [heq] at h
    cases h
  · simp [greek, h]

theorem greek_small {c : CodePoint} (h : greekCapital c = true) :
    between 'α' 'ω' (c + 32) = true := by
  have hval : (c + 32).val = (c.val + 32) % 0x110000 := Fin.val_add c 32
  rw [greekCapital, Bool.or_eq_true, between_iff, between_iff] at h
  have hrange : 0x391 ≤ c.val ∧ c.val ≤ 0x3a9 := by
    rcases h with h | h
    · exact ⟨h.1, h.2.trans (by decide)⟩
    · exact ⟨le_trans (by decide) h.1, h.2⟩
  rw [between_iff, hval, Nat.mod_eq_of_lt (by omega)]
  exact ⟨Nat.add_le_add_right hrange.1 32, Nat.add_le_add_right hrange.2 32⟩

theorem greekCapital_eq_false {c : CodePoint} (h : between 'α' 'ω' c = true) :
    greekCapital c = false := by
  have hlow : 0x3b1 ≤ c.val := (between_iff.mp h).1
  rw [greekCapital, Bool.or_eq_false_iff, ← Bool.not_eq_true, ← Bool.not_eq_true, between_iff,
    between_iff]
  constructor
  · intro hc
    exact absurd (hlow.trans hc.2) (by decide)
  · intro hc
    exact absurd (hlow.trans hc.2) (by decide)

theorem greek_settles : Settles greek.strLower greekAlnum := by
  apply strLower_settles
  · intro c _ d hd
    cases hc : greekCapital c with
    | false =>
      rw [(greek_settled hc).2, List.mem_singleton] at hd
      exact greek_settled (hd ▸ hc)
    | true =>
      have hlower : greek.lower c = [c + 32] := if_pos hc
      rw [hlower, List.mem_singleton] at hd
      exact greek_settled (hd ▸ greekCapital_eq_false (greek_small hc))
  · decide
  · decide
  · decide

theorem slugify_words_sigma :
    (slugify greek.strLower greekAlnum
      (slugify greek.strLower greekAlnum (lit "ΑΣ'Α") none).1 none).1 =
        (slugify greek.strLower greekAlnum (lit "ΑΣ'Α") none).1 :=
  (slugify_words greek.strLower greekAlnum (by decide) greek_settles (lit "ΑΣ'Α")).2.2.2.2.2.2

/-- Whether a capital sigma ends a word depends on the separator behind it. -/
theorem slugify_separator_matters :
    greekAlnum (ord '-') = false ∧ Settles greek.strLower greekAlnum ∧
      greekAlnum (ord '\'') = false ∧ greekAlnum (ord ' ') = false ∧
      (slugify greek.strLower greekAlnum (lit "ΑΣ" ++ lit "'" ++ lit "Α") none).1 = lit "ασ-α" ∧
      (slugify greek.strLower greekAlnum (lit "ΑΣ" ++ lit " " ++ lit "Α") none).1 = lit "ας-α" :=
  ⟨by decide, greek_settles, by decide, by decide, by decide, by decide⟩

end LowLevel.Interview.SlugifyWords
