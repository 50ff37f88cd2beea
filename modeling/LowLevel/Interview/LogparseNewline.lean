import LowLevel.Interview.LogparseGrammar

namespace LowLevel.Interview.LogparseNewline

open Basis.PyStr Basis.PyInt Logparse LogparseGrammar

variable {f g : Fields} {d : Entry} {line tail : Str}

def extend (f : Fields) (tail : Str) : Fields := { f with size := f.size ++ tail }

theorem render_cut (f : Fields) : f.render =
    ({ f with size := [], after := 0 } : Fields).render ++
      (f.size ++ List.replicate f.after (ord ' ')) := by
  simp [Fields.render, Fields.stamp, Fields.request, Fields.sizes]

theorem extend_render (h : f.after = 0) (tail : Str) :
    (extend f tail).render = f.render ++ tail := by
  rw [render_cut (extend f tail), render_cut f]
  simp [extend, h]

theorem extend_shape (hf : f.Shape) (htail : ord ' ' ∉ tail) : (extend f tail).Shape where
  ip := hf.ip
  ts := hf.ts
  method := hf.method
  path := hf.path
  proto := hf.proto
  status := hf.status
  size := by
    obtain ⟨hne, hspace⟩ := hf.size
    exact ⟨by simp [extend, hne], by simp [extend, hspace, htail]⟩

theorem shape_of_extend (hg : (extend f tail).Shape) (hne : f.size ≠ []) : f.Shape where
  ip := hg.ip
  ts := hg.ts
  method := hg.method
  path := hg.path
  proto := hg.proto
  status := hg.status
  size := ⟨hne, fun hmem ↦ hg.size.2 (List.mem_append_left _ hmem)⟩

/-- The newline of a line ends up in the size. -/
theorem size_newline (hg : g.Shape) (h : g.render = line ++ lit "\n") :
    ∃ f : Fields, f.after = 0 ∧ g = extend f (lit "\n") := by
  have hlast : (g.size ++ List.replicate g.after (ord ' ')).getLast? = some (ord '\n') := by
    have hne : g.size ++ List.replicate g.after (ord ' ') ≠ [] := by simp [hg.size.1]
    rw [← List.getLast?_append_of_ne_nil ({ g with size := [], after := 0 } : Fields).render hne,
      ← render_cut, h]
    exact List.getLast?_concat
  cases hafter : g.after with
  | zero =>
    rw [hafter, List.replicate_zero, List.append_nil] at hlast
    have hsize : g.size = g.size.dropLast ++ lit "\n" :=
      (List.dropLast_append_getLast? _ hlast).symm
    refine ⟨{ g with size := g.size.dropLast }, hafter, ?_⟩
    rw [extend, ← hsize]
  | succ k =>
    rw [hafter, List.replicate_succ', ← List.append_assoc, List.getLast?_concat] at hlast
    cases hlast

theorem intOf_newline (size : Str) : intOf (size ++ lit "\n") = intOf size := by
  apply intOf_pad
  intro c hc
  rw [List.mem_singleton.mp hc]
  rfl

/-- A newline spoils a size `-`, and is no size by itself. -/
theorem entry_newline : (extend f (lit "\n")).entry = some d ↔
    f.size ≠ lit "-" ∧ f.size ≠ [] ∧ f.entry = some d := by
  have hnot : f.size ++ lit "\n" ≠ lit "-" := by
    intro heq
    have hlast := congrArg List.getLast? heq
    rw [show lit "\n" = [ord '\n'] from rfl, List.getLast?_concat] at hlast
    cases hlast
  have hdash : intOf (lit "-") = none := rfl
  have hnil : intOf [] = none := rfl
  simp only [Fields.entry_iff, numbers_iff, extend, if_neg hnot, intOf_newline]
  constructor
  · intro h
    obtain ⟨hmem, n, ⟨hstatus, hsize⟩, heq⟩ := h
    have hsize' : f.size ≠ lit "-" := by
      intro hs
      rw [hs, hdash] at hsize
      cases hsize
    have hne : f.size ≠ [] := by
      intro hs
      rw [hs, hnil] at hsize
      cases hsize
    exact ⟨hsize', hne, hmem, n, ⟨hstatus, by rwa [if_neg hsize']⟩, heq⟩
  · intro h
    obtain ⟨hsize', -, hmem, n, ⟨hstatus, hsize⟩, heq⟩ := h
    rw [if_neg hsize'] at hsize
    exact ⟨hmem, n, ⟨hstatus, hsize⟩, heq⟩

theorem parseLine_newline : parseLine (line ++ lit "\n") = some d ↔
    ∃ f : Fields, f.Shape ∧ f.render = line ∧ f.after = 0 ∧ f.size ≠ lit "-" ∧
      f.entry = some d := by
  constructor
  · intro h
    obtain ⟨g, hg, hrender, hentry⟩ := parseLine_iff.mp h
    obtain ⟨f, hafter, rfl⟩ := size_newline hg hrender
    obtain ⟨hdash, hne, hentry⟩ := entry_newline.mp hentry
    rw [extend_render hafter] at hrender
    exact ⟨f, shape_of_extend hg hne, List.append_cancel_right hrender, hafter, hdash, hentry⟩
  · intro hall
    obtain ⟨f, hf, rfl, hafter, hdash, hentry⟩ := hall
    rw [← extend_render hafter, parseLine_render (extend_shape hf (by decide)), entry_newline]
    exact ⟨hdash, hf.size.1, hentry⟩

/-- A newline behind a line is neutral exactly when the line has no cut that
passes the parser's checks and ends in `-` or in spaces. -/
theorem trailing_newline_iff (line : Str) :
    parseLine (line ++ lit "\n") = parseLine line ↔
      ¬ ∃ f : Fields, f.render = line ∧ Checked f ∧ (f.size = lit "-" ∨ f.after ≠ 0) := by
  constructor
  · intro hsame hall
    obtain ⟨f, rfl, hchecked, hbad⟩ := hall
    obtain ⟨hf, d, hd⟩ := checked_iff.mp hchecked
    rw [parseLine_render hf, hd] at hsame
    obtain ⟨g, hg, heq, hafter, hdash, -⟩ := parseLine_newline.mp hsame
    rw [← Fields.render_inj heq hg hf] at hbad
    exact hbad.elim hdash (not_not.mpr hafter)
  · intro hno
    apply Option.ext
    intro d
    rw [parseLine_newline, parseLine_iff]
    constructor
    · intro hall
      obtain ⟨f, hf, hrender, -, -, hd⟩ := hall
      exact ⟨f, hf, hrender, hd⟩
    · intro hall
      obtain ⟨f, hf, hrender, hd⟩ := hall
      have hgood := not_or.mp (fun hbad ↦ hno ⟨f, hrender, checked_iff.mpr ⟨hf, d, hd⟩, hbad⟩)
      exact ⟨f, hf, hrender, not_not.mp hgood.2, hgood.1, hd⟩

theorem dash_newline_rejected :
    (lit "1.2.3.4 - - [ts] \"GET / HTTP/1.1\" 304 -").getLast? ≠ some (ord '\n') ∧
      parseLine (lit "1.2.3.4 - - [ts] \"GET / HTTP/1.1\" 304 -") =
        some ⟨lit "1.2.3.4", lit "ts", lit "GET", lit "/", 304, 0⟩ ∧
      parseLine (lit "1.2.3.4 - - [ts] \"GET / HTTP/1.1\" 304 -" ++ lit "\n") = none :=
  ⟨by decide, rfl, rfl⟩

end LowLevel.Interview.LogparseNewline
