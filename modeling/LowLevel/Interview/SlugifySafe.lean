import LowLevel.Interview.SlugifyWords

namespace LowLevel.Interview.SlugifySafe

open Basis.PyStr Basis.Runs Basis.Search Slugify SlugifyWords

variable {lower : Str → Str} {isalnum : CodePoint → Bool} {title slug : Str} {used used' : List Str}

/-- No character of the text is alphanumeric. -/
def Blank (isalnum : CodePoint → Bool) (s : Str) : Prop := ∀ c ∈ s, isalnum c = false

instance (isalnum : CodePoint → Bool) (s : Str) : Decidable (Blank isalnum s) :=
  decidable_of_iff (s.all (fun c ↦ !isalnum c) = true) (by simp [Blank])

/-- Empty, or alphanumeric words joined by single hyphens. -/
def UrlSafe (isalnum : CodePoint → Bool) (slug : Str) : Prop :=
  ∃ words, (∀ w ∈ words, w ≠ [] ∧ ∀ c ∈ w, isalnum c = true) ∧ slug = hyphenated words

def SafeFor (isalnum : CodePoint → Bool) (title slug : Str) : Prop :=
  UrlSafe isalnum slug ∧ (Blank isalnum title → slug = [])

/-- `str.lower` makes no character alphanumeric, nor the reverse, when the
single characters and the sigmas do not. -/
theorem strLower_blank {table : CaseTable}
    (hlower : ∀ c ≠ ord 'Σ', Blank isalnum (table.lower c) ↔ isalnum c = false)
    (hcapital : isalnum (ord 'Σ') = true) (hsigma : isalnum (ord 'σ') = true)
    (hfinal : isalnum (ord 'ς') = true) (s : Str) :
    Blank isalnum (table.strLower s) ↔ Blank isalnum s := by
  suffices hgo : ∀ before, Blank isalnum (table.lowerGo before s) ↔ Blank isalnum s from hgo []
  induction s with
  | nil => exact fun before ↦ Iff.rfl
  | cons c s ih =>
    intro before
    have hhead : Blank isalnum (if c = ord 'Σ' then [if table.final before s then ord 'ς'
        else ord 'σ'] else table.lower c) ↔ isalnum c = false := by
      split_ifs with hc hend
      · simp [Blank, hc, hcapital, hfinal]
      · simp [Blank, hc, hcapital, hsigma]
      · exact hlower c hc
    rw [CaseTable.lowerGo, Blank, List.forall_mem_append, Blank, List.forall_mem_cons]
    exact and_congr hhead (ih (c :: before))

/-- The number of a base with a word is one more word. -/
theorem numbered_safe (hdigit : ∀ c, between '0' '9' c = true → isalnum c = true)
    (h : UrlSafe isalnum slug) (hne : slug ≠ []) (n : ℕ) : UrlSafe isalnum (numbered slug n) := by
  obtain ⟨words, hwords, rfl⟩ := h
  have hwords' : words ≠ [] := fun heq ↦ hne (heq ▸ rfl)
  refine ⟨words ++ [natStr n], ?_, (join_concat hwords' _).symm⟩
  intro w hw
  cases List.mem_append.mp hw with
  | inl hword => exact hwords w hword
  | inr hnumber =>
    rw [List.mem_singleton.mp hnumber]
    exact ⟨natStr_ne_nil n, fun c hc ↦ hdigit c (mem_natStr hc)⟩

section Alphabet

variable (hdash : isalnum (ord '-') = false)
include hdash

theorem UrlSafe.head?_ne (h : UrlSafe isalnum slug) : slug.head? ≠ some (ord '-') := by
  obtain ⟨words, hwords, rfl⟩ := h
  exact join_head?_ne (fun w hw ↦ ⟨(hwords w hw).1, notMem_word (hwords w hw).2 hdash⟩)

theorem slugOf_safe (title : Str) : UrlSafe isalnum (slugOf lower isalnum title) := by
  refine ⟨runs isalnum (lower title), ?_, slugOf_eq hdash title⟩
  intro w hw
  exact ⟨(mem_runs hw).1, fun c hc ↦ ((mem_runs hw).2 c hc).1⟩

variable (hblank : ∀ s, Blank isalnum (lower s) ↔ Blank isalnum s)
include hblank

theorem slugOf_eq_nil_iff : slugOf lower isalnum title = [] ↔ Blank isalnum title := by
  rw [slugOf_eq hdash, ← hblank title]
  exact (join_eq_nil_iff (words_nice hdash _)).trans runs_eq_nil_iff

theorem slug_eq_nil_iff (h : Issued lower isalnum used title slug used') :
    slug = [] ↔ Blank isalnum title ∧ [] ∉ used := by
  rw [← slugOf_eq_nil_iff hdash hblank]
  rcases Decidable.em (slugOf lower isalnum title ∈ used) with htaken | hfree
  · obtain ⟨n, -, hslug⟩ := h.least htaken
    have hne : slug ≠ [] := by
      rw [hslug, numbered]
      simp
    exact iff_of_false hne (fun hboth ↦ hboth.2 (hboth.1 ▸ htaken))
  · rw [h.base hfree]
    exact ⟨fun hnil ↦ ⟨hnil, hnil ▸ hfree⟩, And.left⟩

variable (hdigit : ∀ c, between '0' '9' c = true → isalnum c = true)
include hdigit

/-- Without a word there is nothing to put in front of the number's hyphen. -/
theorem slug_safe_iff (h : Issued lower isalnum used title slug used') :
    SafeFor isalnum title slug ↔ ¬ (Blank isalnum title ∧ [] ∈ used) := by
  have hnil : slugOf lower isalnum title = [] ↔ Blank isalnum title :=
    slugOf_eq_nil_iff hdash hblank
  constructor
  · intro hsafe hboth
    have hbase : slugOf lower isalnum title = [] := hnil.mpr hboth.1
    obtain ⟨n, -, hslug⟩ := h.least (hbase ▸ hboth.2)
    apply hsafe.1.head?_ne hdash
    rw [hslug, hbase]
    rfl
  · intro hnot
    have hempty : Blank isalnum title → slug = [] :=
      fun hb ↦ (slug_eq_nil_iff hdash hblank h).mpr ⟨hb, fun hmem ↦ hnot ⟨hb, hmem⟩⟩
    refine ⟨?_, hempty⟩
    rcases Decidable.em (slugOf lower isalnum title ∈ used) with htaken | hfree
    · obtain ⟨n, -, hslug⟩ := h.least htaken
      rw [hslug]
      exact numbered_safe hdigit (slugOf_safe hdash title)
        (fun hbase ↦ hnot ⟨hnil.mp hbase, hbase ▸ htaken⟩) n
    · rw [h.base hfree]
      exact slugOf_safe hdash title

theorem slugifyAll_safe_iff (used titles : List Str) :
    List.Forall₂ (SafeFor isalnum) titles (slugifyAll lower isalnum used titles).1 ↔
      ([] ∈ used → ∀ t ∈ titles, ¬ Blank isalnum t) ∧
        titles.Pairwise (fun t u ↦ ¬ (Blank isalnum t ∧ Blank isalnum u)) := by
  induction titles generalizing used with
  | nil => simp [slugifyAll]
  | cons title titles ih =>
    have hissued := slugify_issued lower isalnum used title
    have hrest := ih (slugify lower isalnum title (some used)).2
    have hslug := slug_eq_nil_iff hdash hblank hissued
    have hused : [] ∈ (slugify lower isalnum title (some used)).2 ↔
        [] ∈ used ∨ Blank isalnum title := by
      rw [hissued.recorded, List.mem_append, List.mem_singleton, eq_comm, hslug, or_and_left]
      exact and_iff_left (Classical.em _)
    simp only [slugifyAll]
    rw [List.forall₂_cons, slug_safe_iff hdash hblank hdigit hissued, hrest, hused,
      List.forall_mem_cons, List.pairwise_cons]
    constructor
    · intro hall
      obtain ⟨hfirst, hnone, hpair⟩ := hall
      exact ⟨fun hmem ↦ ⟨fun hb ↦ hfirst ⟨hb, hmem⟩, hnone (.inl hmem)⟩,
        fun u hu hboth ↦ hnone (.inr hboth.1) u hu hboth.2, hpair⟩
    · intro hall
      obtain ⟨hnone, hfirst, hpair⟩ := hall
      refine ⟨fun hboth ↦ (hnone hboth.2).1 hboth.1, ?_, hpair⟩
      intro hor u hu hb
      cases hor with
      | inl hmem => exact (hnone hmem).2 u hu hb
      | inr htitle => exact hfirst u hu ⟨htitle, hb⟩

end Alphabet

/-- The slugs issued against one new list are all safe if and only if no two of
the titles lack an alphanumeric character. -/
theorem slugs_safe_iff (lower : Str → Str) (isalnum : CodePoint → Bool)
    (hdash : isalnum (ord '-') = false)
    (hdigit : ∀ c, between '0' '9' c = true → isalnum c = true)
    (hblank : ∀ s, Blank isalnum (lower s) ↔ Blank isalnum s) (titles : List Str) :
    List.Forall₂ (SafeFor isalnum) titles (slugifyAll lower isalnum [] titles).1 ↔
      titles.Pairwise (fun t u ↦ ¬ (Blank isalnum t ∧ Blank isalnum u)) := by
  rw [slugifyAll_safe_iff hdash hblank hdigit]
  exact and_iff_right (fun hmem ↦ absurd hmem List.not_mem_nil)

def greekDigit (c : CodePoint) : Bool := greekAlnum c || between '0' '9' c

theorem greekDigit_blank (s : Str) : Blank greekDigit (greek.strLower s) ↔ Blank greekDigit s := by
  have hlower : ∀ c, Blank greekDigit (greek.lower c) ↔ greekDigit c = false := by
    intro c
    cases hc : greekCapital c with
    | false => simp [greek, hc, Blank]
    | true =>
      have hcapital : greekDigit c = true := by simp [greekDigit, greekAlnum, hc]
      have hsmall : greekDigit (c + 32) = true := by
        simp [greekDigit, greekAlnum, greek_small hc]
      simp [greek, hc, Blank, hcapital, hsmall]
  exact strLower_blank (fun c _ ↦ hlower c) (by decide) (by decide) (by decide) s

theorem slugs_safe_sigma :
    List.Forall₂ (SafeFor greekDigit) [lit "ΑΣ'Α", lit "''", lit "ας α"]
      (slugifyAll greek.strLower greekDigit [] [lit "ΑΣ'Α", lit "''", lit "ας α"]).1 := by
  refine (slugs_safe_iff greek.strLower greekDigit (by decide) ?_ greekDigit_blank _).mpr ?_
  · intro c hc
    rw [greekDigit, hc, Bool.or_true]
  · decide

/-- The second title of punctuation gets a slug that begins with the hyphen. -/
theorem slug_leading_hyphen :
    (slugifyAll greek.strLower greekDigit [] [lit "!!", lit "??"]).1 = [[], lit "-2"] ∧
      ¬ List.Forall₂ (SafeFor greekDigit) [lit "!!", lit "??"]
        (slugifyAll greek.strLower greekDigit [] [lit "!!", lit "??"]).1 := by
  have hfirst : slugOf greek.strLower greekDigit (lit "!!") = [] := by decide
  have hsecond : slugOf greek.strLower greekDigit (lit "??") = [] := by decide
  have htwo : firstFree (numbered []) (numbered_injective []) [[]] 2 = 2 := by
    rw [firstFree, dif_neg (by decide)]
  have hrun : (slugifyAll greek.strLower greekDigit [] [lit "!!", lit "??"]).1 =
      [[], lit "-2"] := by
    simp only [slugifyAll, slugify, Option.getD_some, hfirst, hsecond, List.not_mem_nil, if_false,
      List.nil_append, List.mem_singleton, if_true, htwo]
    decide
  refine ⟨hrun, ?_⟩
  rw [hrun, List.forall₂_cons, List.forall₂_cons]
  intro hsafe
  exact absurd (hsafe.2.1.2 (by decide)) (by decide)

end LowLevel.Interview.SlugifySafe
