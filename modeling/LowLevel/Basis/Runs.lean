import Mathlib.Data.List.Basic
import Mathlib.Data.List.Chain
import Mathlib.Tactic.Common

namespace LowLevel.Basis.Runs

variable {α : Type*} {p : α → Bool} {c d : α} {s w pre sep post : List α} {ws : List (List α)}

/-- The maximal runs of elements with `p`. -/
def runs (p : α → Bool) (s : List α) : List (List α) :=
  (s.splitOnP (fun c ↦ !p c)).filter (fun w ↦ !w.isEmpty)

theorem notMem_word (h : ∀ c ∈ w, p c = true) (hd : p d = false) : d ∉ w := by
  intro hmem
  rw [h d hmem] at hd
  cases hd

theorem runs_word (h : ∀ c ∈ w, p c = true) (hne : w ≠ []) : runs p w = [w] := by
  rw [runs, List.splitOnP_eq_singleton (fun c hc ↦ by simp [h c hc])]
  simp [hne]

theorem runs_nil (p : α → Bool) : runs p [] = [] := by simp [runs]

theorem runs_cut (hc : p c = false) : runs p (pre ++ c :: post) = runs p pre ++ runs p post := by
  have hsep : (!p c) = true := by rw [hc]; rfl
  rw [runs, List.splitOnP_append_cons pre post hsep, List.filter_append, runs, runs]

theorem runs_sep (hc : p c = false) : runs p (c :: s) = runs p s := by
  have hcut : runs p ([] ++ c :: s) = runs p [] ++ runs p s := runs_cut hc
  rwa [runs_nil] at hcut

theorem runs_blank (h : ∀ c ∈ sep, p c = false) : runs p (sep ++ s) = runs p s := by
  induction sep with
  | nil => rfl
  | cons c sep ih =>
    rw [List.cons_append, runs_sep (h c List.mem_cons_self)]
    exact ih (fun d hd ↦ h d (List.mem_cons_of_mem _ hd))

/-- Which separators stand between the runs, and how many, does not matter. -/
theorem runs_gap (hne : sep ≠ []) (h : ∀ c ∈ sep, p c = false) :
    runs p (pre ++ sep ++ post) = runs p pre ++ runs p post := by
  obtain ⟨c, sep, rfl⟩ := List.exists_cons_of_ne_nil hne
  rw [List.append_assoc, List.cons_append, runs_cut (h c List.mem_cons_self),
    runs_blank (fun d hd ↦ h d (List.mem_cons_of_mem _ hd))]

/-- Induction along the separators. -/
theorem runs_induction {motive : List α → Prop} (word : ∀ w, (∀ c ∈ w, p c = true) → motive w)
    (cut : ∀ w c s, (∀ x ∈ w, p x = true) → p c = false → motive s → motive (w ++ c :: s))
    (s : List α) : motive s := by
  suffices h : ∀ w, (∀ c ∈ w, p c = true) → motive (w ++ s) from h [] (by simp)
  induction s with
  | nil =>
    intro w hw
    rw [List.append_nil]
    exact word w hw
  | cons c s ih =>
    intro w hw
    cases hc : p c with
    | false => exact cut w c s hw hc (ih [] (by simp))
    | true =>
      have hwc : ∀ x ∈ w ++ [c], p x = true := by
        intro x hx
        rcases List.mem_append.mp hx with hx | hx
        · exact hw x hx
        · rw [List.mem_singleton.mp hx, hc]
      have hmotive := ih (w ++ [c]) hwc
      rwa [List.append_assoc, List.singleton_append] at hmotive

theorem mem_runs_word {v : List α} (hv : ∀ c ∈ v, p c = true) (h : w ∈ runs p v) :
    w = v ∧ v ≠ [] := by
  rcases eq_or_ne v [] with rfl | hne
  · rw [runs_nil] at h
    cases h
  · rw [runs_word hv hne] at h
    exact ⟨List.mem_singleton.mp h, hne⟩

theorem mem_runs (h : w ∈ runs p s) : w ≠ [] ∧ ∀ c ∈ w, p c = true ∧ c ∈ s := by
  induction s using runs_induction (p := p) with
  | word v hv =>
    obtain ⟨rfl, hne⟩ := mem_runs_word hv h
    exact ⟨hne, fun c hc ↦ ⟨hv c hc, hc⟩⟩
  | cut v d s hv hd ih =>
    rw [runs_cut hd] at h
    rcases List.mem_append.mp h with h | h
    · obtain ⟨rfl, hne⟩ := mem_runs_word hv h
      exact ⟨hne, fun c hc ↦ ⟨hv c hc, List.mem_append_left _ hc⟩⟩
    · obtain ⟨hne, hall⟩ := ih h
      refine ⟨hne, fun c hc ↦ ⟨(hall c hc).1, ?_⟩⟩
      exact List.mem_append_right _ (List.mem_cons_of_mem _ (hall c hc).2)

theorem runs_eq_nil_iff : runs p s = [] ↔ ∀ c ∈ s, p c = false := by
  constructor
  · intro hnil
    induction s using runs_induction (p := p) with
    | word w hw =>
      rcases eq_or_ne w [] with rfl | hne
      · simp
      · rw [runs_word hw hne] at hnil
        cases hnil
    | cut w c s hw hc ih =>
      rw [runs_cut hc] at hnil
      obtain ⟨hword, hrest⟩ := List.append_eq_nil_iff.mp hnil
      have hw' : w = [] := by
        by_contra hne
        rw [runs_word hw hne] at hword
        cases hword
      rw [hw', List.nil_append]
      exact List.forall_mem_cons.mpr ⟨hc, ih hrest⟩
  · intro hblank
    have hruns := runs_blank (s := []) hblank
    rwa [List.append_nil, runs_nil] at hruns

/-- `ws` are the longest pieces of `s` whose elements all have `p`, from left to right. -/
inductive MaximalRuns (p : α → Bool) : List α → List (List α) → Prop
  | blank {sep : List α} (hsep : ∀ c ∈ sep, p c = false) : MaximalRuns p sep []
  | run {sep w s : List α} {ws : List (List α)} (hsep : ∀ c ∈ sep, p c = false)
      (hw : ∀ c ∈ w, p c = true) (hne : w ≠ []) (hend : ∀ c ∈ s.head?, p c = false)
      (rest : MaximalRuns p s ws) : MaximalRuns p (sep ++ (w ++ s)) (w :: ws)

theorem MaximalRuns.cons_sep (h : MaximalRuns p s ws) (hc : p c = false) :
    MaximalRuns p (c :: s) ws := by
  cases h with
  | blank hsep => exact .blank (List.forall_mem_cons.mpr ⟨hc, hsep⟩)
  | run hsep hw hne hend rest =>
    rw [← List.cons_append]
    exact .run (List.forall_mem_cons.mpr ⟨hc, hsep⟩) hw hne hend rest

theorem runs_maximal (p : α → Bool) (s : List α) : MaximalRuns p s (runs p s) := by
  have hempty : ∀ c ∈ ([] : List α), p c = false := by simp
  induction s using runs_induction (p := p) with
  | word w hw =>
    rcases eq_or_ne w [] with rfl | hne
    · rw [runs_nil]
      exact .blank hempty
    · have hrun := MaximalRuns.run hempty hw hne (by simp) (.blank hempty)
      rwa [List.nil_append, List.append_nil, ← runs_word hw hne] at hrun
  | cut w c s hw hc ih =>
    have hrest := ih.cons_sep hc
    rw [runs_cut hc]
    rcases eq_or_ne w [] with rfl | hne
    · rwa [runs_nil]
    · rw [runs_word hw hne]
      exact .run hempty hw hne (by simpa using hc) hrest

theorem MaximalRuns.eq_runs (h : MaximalRuns p s ws) : ws = runs p s := by
  induction h with
  | @blank sep hsep =>
    have hblank := runs_blank (s := []) hsep
    rw [List.append_nil, runs_nil] at hblank
    exact hblank.symm
  | @run sep w s ws hsep hw hne hend rest ih =>
    rw [runs_blank hsep]
    cases s with
    | nil => rw [ih, runs_nil, List.append_nil, runs_word hw hne]
    | cons c s =>
      have hc : p c = false := hend c rfl
      rw [ih, runs_cut hc, runs_word hw hne, runs_sep hc, List.singleton_append]

theorem MaximalRuns.map {f : α → α} (hf : ∀ c, p (f c) = p c) (h : MaximalRuns p s ws) :
    MaximalRuns p (s.map f) (ws.map (List.map f)) := by
  have hall : ∀ (b : Bool) (w : List α), (∀ c ∈ w, p c = b) → ∀ c ∈ w.map f, p c = b := by
    intro b w hw c hc
    obtain ⟨d, hd, rfl⟩ := List.mem_map.mp hc
    rw [hf, hw d hd]
  induction h with
  | blank hsep => exact .blank (hall _ _ hsep)
  | @run sep w s ws hsep hw hne hend rest ih =>
    rw [List.map_append, List.map_append]
    apply MaximalRuns.run (hall _ _ hsep) (hall _ _ hw) (by simpa using hne) _ ih
    intro c hc
    rw [List.head?_map, Option.mem_def, Option.map_eq_some_iff] at hc
    obtain ⟨d, hd, rfl⟩ := hc
    rw [hf, hend d hd]

theorem runs_map {f : α → α} (hf : ∀ c, p (f c) = p c) (s : List α) :
    runs p (s.map f) = (runs p s).map (List.map f) :=
  ((runs_maximal p s).map hf).eq_runs.symm

/-- Words that are set apart by a separator are its runs. -/
theorem runs_join (hd : p d = false) (h : ∀ w ∈ ws, w ≠ [] ∧ ∀ c ∈ w, p c = true) :
    runs p ([d].intercalate ws) = ws := by
  induction ws with
  | nil => exact runs_nil p
  | cons w ws ih =>
    obtain ⟨hne, hall⟩ := h w List.mem_cons_self
    rcases eq_or_ne ws [] with rfl | hws
    · rw [List.intercalate_singleton, runs_word hall hne]
    · have ih := ih (fun v hv ↦ h v (List.mem_cons_of_mem _ hv))
      rw [List.intercalate_cons_of_ne_nil hws, List.append_assoc, List.singleton_append,
        runs_cut hd, runs_word hall hne, ih, List.singleton_append]

theorem join_concat (hne : ws ≠ []) (w : List α) :
    [d].intercalate (ws ++ [w]) = [d].intercalate ws ++ d :: w := by
  induction ws with
  | nil => exact absurd rfl hne
  | cons v ws ih =>
    rcases eq_or_ne ws [] with rfl | hws
    · simp [List.intercalate_cons_of_ne_nil]
    · rw [List.cons_append, List.intercalate_cons_of_ne_nil (by simp), ih hws,
        List.intercalate_cons_of_ne_nil hws, List.append_assoc _ _ (d :: w)]

theorem mem_join (h : c ∈ [d].intercalate ws) : c = d ∨ ∃ w ∈ ws, c ∈ w := by
  induction ws with
  | nil => cases h
  | cons w ws ih =>
    rcases eq_or_ne ws [] with rfl | hws
    · rw [List.intercalate_singleton] at h
      exact .inr ⟨w, List.mem_cons_self, h⟩
    · rw [List.intercalate_cons_of_ne_nil hws, List.append_assoc] at h
      rcases List.mem_append.mp h with h | h
      · exact .inr ⟨w, List.mem_cons_self, h⟩
      · rcases List.mem_cons.mp h with h | h
        · exact .inl h
        · refine (ih h).imp_right (fun hex ↦ ?_)
          obtain ⟨v, hv, hc⟩ := hex
          exact ⟨v, List.mem_cons_of_mem _ hv, hc⟩

section Join

variable (h : ∀ w ∈ ws, w ≠ [] ∧ d ∉ w)
include h

theorem join_eq_nil_iff : [d].intercalate ws = [] ↔ ws = [] := by
  cases ws with
  | nil => simp
  | cons w ws =>
    obtain ⟨hne, -⟩ := h w List.mem_cons_self
    rcases eq_or_ne ws [] with rfl | hws
    · simp [hne]
    · simp [List.intercalate_cons_of_ne_nil hws]

theorem join_head?_ne : ([d].intercalate ws).head? ≠ some d := by
  cases ws with
  | nil => simp
  | cons w ws =>
    obtain ⟨hne, hd⟩ := h w List.mem_cons_self
    obtain ⟨c, v, rfl⟩ := List.exists_cons_of_ne_nil hne
    rw [List.intercalate_cons_cons_left, List.head?_cons, Ne, Option.some.injEq]
    intro heq
    exact hd (heq ▸ List.mem_cons_self)

theorem join_getLast?_ne : ([d].intercalate ws).getLast? ≠ some d := by
  induction ws with
  | nil => simp
  | cons w ws ih =>
    have hws' : ∀ v ∈ ws, v ≠ [] ∧ d ∉ v := fun v hv ↦ h v (List.mem_cons_of_mem _ hv)
    rcases eq_or_ne ws [] with rfl | hws
    · rw [List.intercalate_singleton]
      intro hlast
      exact (h w List.mem_cons_self).2 (List.mem_of_getLast? hlast)
    · have hne : [d].intercalate ws ≠ [] := mt (join_eq_nil_iff hws').mp hws
      rw [List.intercalate_cons_of_ne_nil hws, List.getLast?_append_of_ne_nil _ hne]
      exact ih hws'

theorem join_isChain : ([d].intercalate ws).IsChain (fun a b ↦ ¬ (a = d ∧ b = d)) := by
  have hword : ∀ v : List α, d ∉ v → v.IsChain (fun a b ↦ ¬ (a = d ∧ b = d)) := by
    intro v hv
    apply List.Pairwise.isChain
    rw [List.pairwise_iff_getElem]
    intro i j hi hj _ hab
    exact hv (hab.1 ▸ List.getElem_mem hi)
  induction ws with
  | nil => simp
  | cons w ws ih =>
    obtain ⟨hne, hd⟩ := h w List.mem_cons_self
    have hws' : ∀ v ∈ ws, v ≠ [] ∧ d ∉ v := fun v hv ↦ h v (List.mem_cons_of_mem _ hv)
    rcases eq_or_ne ws [] with rfl | hws
    · rw [List.intercalate_singleton]
      exact hword w hd
    · rw [List.intercalate_cons_of_ne_nil hws, List.append_assoc, List.isChain_append,
        List.isChain_append]
      refine ⟨hword w hd, ⟨List.isChain_singleton _, ih hws', ?_⟩, ?_⟩
      · intro x _ y hy hxy
        exact join_head?_ne hws' (hxy.2 ▸ hy)
      · intro x hx y _ hxy
        exact hd (hxy.1 ▸ List.mem_of_getLast? hx)

end Join

end LowLevel.Basis.Runs
