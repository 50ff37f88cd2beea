import LowLevel.Basis.PyStr
import LowLevel.Basis.Search

namespace LowLevel.Interview.Slugify

open Function Basis.PyStr Basis.Search

section Source

variable (lower : Str → Str) (isalnum : CodePoint → Bool)

def slugStep (slug : Str) (ch : CodePoint) : Str :=
  if isalnum ch then slug ++ [ch]
  else if slug ≠ [] ∧ slug.getLast? ≠ some (ord '-') then slug ++ [ord '-']
  else slug

/-- The slug before it is compared with the used ones. `str.lower` and
`str.isalnum` may be any functions. -/
def slugOf (title : Str) : Str :=
  stripChar (ord '-') ((lower title).foldl (slugStep isalnum) [])

def numbered (slug : Str) (n : ℕ) : Str := slug ++ ord '-' :: natStr n

theorem numbered_injective (slug : Str) : Injective (numbered slug) := by
  intro m n h
  exact natStr_injective (List.cons_inj_right _ |>.mp (List.append_cancel_left h))

def slugify (title : Str) (used : Option (List Str)) : Str × List Str :=
  let used := used.getD []
  let slug := slugOf lower isalnum title
  let slug := if slug ∈ used then
      numbered slug (firstFree (numbered slug) (numbered_injective slug) used 2)
    else slug
  (slug, used ++ [slug])

def slugifyAll (used : List Str) : List Str → List Str × List Str
  | [] => ([], used)
  | title :: titles =>
    let (slug, used) := slugify lower isalnum title (some used)
    let (slugs, used) := slugifyAll used titles
    (slug :: slugs, used)

end Source

variable (lower : Str → Str) (isalnum : CodePoint → Bool)

structure Issued (lower : Str → Str) (isalnum : CodePoint → Bool) (used : List Str)
    (title slug : Str) (used' : List Str) : Prop where
  fresh : slug ∉ used
  recorded : used' = used ++ [slug]
  base : slugOf lower isalnum title ∉ used → slug = slugOf lower isalnum title
  least : slugOf lower isalnum title ∈ used →
    ∃ n, IsLeast {k | 2 ≤ k ∧ numbered (slugOf lower isalnum title) k ∉ used} n ∧
      slug = numbered (slugOf lower isalnum title) n

theorem slugify_issued (used : List Str) (title : Str) :
    Issued lower isalnum used title (slugify lower isalnum title (some used)).1
      (slugify lower isalnum title (some used)).2 := by
  have hleast := firstFree_isLeast (numbered_injective (slugOf lower isalnum title)) used 2
  rcases Decidable.em (slugOf lower isalnum title ∈ used) with htaken | hfree
  · simp only [slugify, Option.getD_some, if_pos htaken]
    exact ⟨hleast.1.2, rfl, fun h ↦ absurd htaken h, fun _ ↦ ⟨_, hleast, rfl⟩⟩
  · simp only [slugify, Option.getD_some, if_neg hfree]
    exact ⟨hfree, rfl, fun _ ↦ rfl, fun h ↦ absurd h hfree⟩

theorem slugifyAll_length (used titles : List Str) :
    (slugifyAll lower isalnum used titles).1.length = titles.length := by
  induction titles generalizing used with
  | nil => rfl
  | cons title titles ih => simp only [slugifyAll, List.length_cons, ih]

theorem slugifyAll_used (used titles : List Str) :
    (slugifyAll lower isalnum used titles).2 =
      used ++ (slugifyAll lower isalnum used titles).1 := by
  induction titles generalizing used with
  | nil => simp [slugifyAll]
  | cons title titles ih =>
    have hissued := slugify_issued lower isalnum used title
    simp only [slugifyAll]
    rw [ih, hissued.recorded, List.append_assoc, List.singleton_append]

theorem slugifyAll_fresh (used titles : List Str) :
    (slugifyAll lower isalnum used titles).1.Nodup ∧
      ∀ slug ∈ (slugifyAll lower isalnum used titles).1, slug ∉ used := by
  induction titles generalizing used with
  | nil => simp [slugifyAll]
  | cons title titles ih =>
    have hissued := slugify_issued lower isalnum used title
    obtain ⟨hnodup, hout⟩ := ih (slugify lower isalnum title (some used)).2
    simp only [slugifyAll]
    rw [hissued.recorded] at hnodup hout ⊢
    refine ⟨List.nodup_cons.mpr ⟨?_, hnodup⟩, ?_⟩
    · intro hmem
      exact hout _ hmem (by simp)
    · intro slug hmem
      rcases List.mem_cons.mp hmem with rfl | hmem
      · exact hissued.fresh
      · exact fun h ↦ hout slug hmem (List.mem_append_left _ h)

theorem slugifyAll_issued (used titles : List Str) (i : ℕ) (title : Str)
    (hi : titles[i]? = some title) :
    ∃ slug, (slugifyAll lower isalnum used titles).1[i]? = some slug ∧
      Issued lower isalnum (used ++ (slugifyAll lower isalnum used titles).1.take i) title slug
        (used ++ (slugifyAll lower isalnum used titles).1.take (i + 1)) := by
  induction titles generalizing used i with
  | nil => cases hi
  | cons first titles ih =>
    have hissued := slugify_issued lower isalnum used first
    simp only [slugifyAll]
    cases i with
    | zero =>
      cases hi
      refine ⟨_, rfl, ?_⟩
      simpa [hissued.recorded] using hissued
    | succ i =>
      obtain ⟨slug, hslug, hnext⟩ := ih (slugify lower isalnum first (some used)).2 i hi
      refine ⟨slug, hslug, ?_⟩
      simpa [hissued.recorded] using hnext

/-- Slugs issued against one list are new to it, distinct, and recorded in
order. A taken base gets the least free number from 2 on. -/
theorem slugs_unique (used titles : List Str) :
    ∃ slugs, slugifyAll lower isalnum used titles = (slugs, used ++ slugs) ∧
      slugs.length = titles.length ∧ slugs.Nodup ∧ (∀ slug ∈ slugs, slug ∉ used) ∧
      ∀ i title, titles[i]? = some title → ∃ slug, slugs[i]? = some slug ∧
        Issued lower isalnum (used ++ slugs.take i) title slug (used ++ slugs.take (i + 1)) := by
  obtain ⟨hnodup, hout⟩ := slugifyAll_fresh lower isalnum used titles
  refine ⟨_, Prod.ext rfl (slugifyAll_used lower isalnum used titles),
    slugifyAll_length lower isalnum used titles, hnodup, hout,
    slugifyAll_issued lower isalnum used titles⟩

end LowLevel.Interview.Slugify
