import LowLevel.Interview.Logparse

namespace LowLevel.Interview.LogparseGrammar

open Basis.PyStr Basis.PyInt Logparse

def Plain (s : Str) : Prop := s ≠ [] ∧ ∀ c ∈ s, isSpace c = false ∧ c ≠ ord '"'

def Digits (s : Str) : Prop := s ≠ [] ∧ ∀ c ∈ s, isDecimal c

instance (s : Str) : Decidable (Plain s) :=
  decidable_of_iff (s ≠ [] ∧ s.all (fun c ↦ !isSpace c && c != ord '"') = true) (by simp [Plain])

instance (s : Str) : Decidable (Digits s) :=
  decidable_of_iff (s ≠ [] ∧ s.all isDecimal = true) (by simp [Digits])

structure Record where
  ip : Str
  ts : Str
  method : Str
  path : Str
  proto : Str
  status : Str
  bytes : Str

namespace Record

def render (r : Record) : Str :=
  r.ip ++ lit " - - [" ++ r.ts ++ lit "] \"" ++ r.method ++ lit " " ++ r.path ++ lit " " ++
    r.proto ++ lit "\" " ++ r.status ++ lit " " ++ r.bytes

def value (r : Record) : Entry where
  ip := r.ip
  ts := r.ts
  method := r.method
  path := r.path
  status := digitsValue r.status
  bytes := if r.bytes = lit "-" then 0 else digitsValue r.bytes

structure Documented (r : Record) : Prop where
  ts : ord ']' ∉ r.ts
  method : Plain r.method
  path : Plain r.path
  proto : Plain r.proto
  status : Digits r.status
  bytes : r.bytes = lit "-" ∨ Digits r.bytes

def fields (r : Record) (tail : Str) : Fields :=
  ⟨r.ip, r.ts, ord ' ', ord '"', r.method, r.path, r.proto, 1, r.status, 0, r.bytes ++ tail, 0⟩

theorem fields_render (r : Record) (tail : Str) : (r.fields tail).render = r.render ++ tail := by
  simp [fields, Fields.render, Fields.stamp, Fields.request, Fields.sizes, render, lit]

end Record

/-- The line is in the documented format, and the entry is the record's. -/
def Grammar (line : Str) (d : Entry) : Prop :=
  ∃ r : Record, r.Documented ∧ (line = r.render ∨ line = r.render ++ lit "\n") ∧ d = r.value

def chomp (s : Str) : Str := if s.getLast? = some (ord '\n') then s.dropLast else s

/-- Where the parser takes more than the format allows: the two characters it
skips, `split(" ")` for the request, dropped empty parts, `int` for digits. -/
def Loose (f : Fields) : Prop :=
  (f.x ≠ ord ' ' ∨ f.y ≠ ord '"') ∨
  (f.path = [] ∨ ∃ c ∈ f.path, isSpace c) ∨ (f.proto = [] ∨ ∃ c ∈ f.proto, isSpace c) ∨
  (f.before ≠ 1 ∨ f.between ≠ 0 ∨ f.after ≠ 0) ∨
  (∃ c ∈ f.status, isDecimal c = false) ∨
  (f.size ≠ lit "-" ∧ ∃ c ∈ chomp f.size, isDecimal c = false)

/-- The checks that the parser does make on its cut. -/
structure Checked (f : Fields) : Prop where
  shape : f.Shape
  method : f.method ∈ methods
  status : (intOf f.status).isSome
  size : f.size ≠ lit "-" → (intOf f.size).isSome

variable {f : Fields} {d : Entry} {s : Str}

theorem checked_iff : Checked f ↔ f.Shape ∧ ∃ d, f.entry = some d := by
  constructor
  · intro h
    obtain ⟨hf, hmem, hstatus, hsize⟩ := h
    obtain ⟨status, hstatus⟩ := Option.isSome_iff_exists.mp hstatus
    refine ⟨hf, ?_⟩
    rcases Decidable.em (f.size = lit "-") with hdash | hdash
    · exact ⟨_, Fields.entry_iff.mpr ⟨hmem, (status, 0),
        numbers_iff.mpr ⟨hstatus, by simp [hdash]⟩, rfl⟩⟩
    · obtain ⟨bytes, hbytes⟩ := Option.isSome_iff_exists.mp (hsize hdash)
      exact ⟨_, Fields.entry_iff.mpr ⟨hmem, (status, bytes),
        numbers_iff.mpr ⟨hstatus, by simp [hdash, hbytes]⟩, rfl⟩⟩
  · intro h
    obtain ⟨hf, d, hd⟩ := h
    obtain ⟨hmem, n, hn, -⟩ := Fields.entry_iff.mp hd
    obtain ⟨hstatus, hsize⟩ := numbers_iff.mp hn
    refine ⟨hf, hmem, by simp [hstatus], fun hdash ↦ ?_⟩
    rw [if_neg hdash] at hsize
    simp [hsize]

theorem plain_of_methods : ∀ m ∈ methods, Plain m := by decide

theorem Plain.notMem_space (h : Plain s) : ord ' ' ∉ s := fun hmem ↦ by
  have := (h.2 _ hmem).1
  cases this

theorem Plain.notMem_quote (h : Plain s) : ord '"' ∉ s := fun hmem ↦ (h.2 _ hmem).2 rfl

theorem Digits.notMem_space (h : Digits s) : ord ' ' ∉ s := fun hmem ↦ by
  have := h.2 _ hmem
  cases this

theorem chomp_cases (s : Str) : s = chomp s ++ lit "\n" ∨ s = chomp s := by
  unfold chomp
  split
  · rename_i hlast
    exact .inl (List.dropLast_append_getLast? _ hlast).symm
  · exact .inr rfl

theorem chomp_newline (s : Str) : chomp (s ++ lit "\n") = s := by
  have hlast : (s ++ lit "\n").getLast? = some (ord '\n') := List.getLast?_concat
  rw [chomp, if_pos hlast]
  exact List.dropLast_concat

theorem chomp_of_digits (h : Digits s) : chomp s = s := by
  have hlast : s.getLast? ≠ some (ord '\n') := by
    intro heq
    have := h.2 _ (List.mem_of_getLast? heq)
    cases this
  rw [chomp, if_neg hlast]

theorem fields_shape {r : Record} (h : r.Documented) (hip : ord ' ' ∉ r.ip) {tail : Str}
    (htail : ord ' ' ∉ tail) : (r.fields tail).Shape where
  ip := hip
  ts := h.ts
  method := ⟨h.method.notMem_space, h.method.notMem_quote⟩
  path := ⟨h.path.notMem_space, h.path.notMem_quote⟩
  proto := ⟨h.proto.notMem_space, h.proto.notMem_quote⟩
  status := ⟨h.status.1, h.status.notMem_space⟩
  size := by
    have hbytes : r.bytes ≠ [] ∧ ord ' ' ∉ r.bytes := by
      rcases h.bytes with hdash | hdigits
      · rw [hdash]
        decide
      · exact ⟨hdigits.1, hdigits.notMem_space⟩
    exact ⟨by simp [Record.fields, hbytes.1], by simp [Record.fields, hbytes.2, htail]⟩

theorem not_loose_of_plain (h : Plain s) : ¬ (s = [] ∨ ∃ c ∈ s, isSpace c) := by
  intro hcase
  rcases hcase with hnil | ⟨c, hc, hspace⟩
  · exact h.1 hnil
  · rw [(h.2 c hc).1] at hspace
    cases hspace

theorem not_loose_of_digits (h : Digits s) : ¬ ∃ c ∈ s, isDecimal c = false := by
  intro hall
  obtain ⟨c, hc, hno⟩ := hall
  rw [h.2 c hc] at hno
  cases hno

theorem not_loose_fields {r : Record} (hr : r.Documented) {tail : Str}
    (htail : tail = [] ∨ tail = lit "\n" ∧ r.bytes ≠ lit "-") : ¬ Loose (r.fields tail) := by
  simp only [Loose, not_or]
  refine ⟨⟨not_not.mpr rfl, not_not.mpr rfl⟩, not_or.mp (not_loose_of_plain hr.path),
    not_or.mp (not_loose_of_plain hr.proto), ⟨not_not.mpr rfl, not_not.mpr rfl, not_not.mpr rfl⟩,
    not_loose_of_digits hr.status, ?_⟩
  intro hall
  obtain ⟨hne, hno⟩ := hall
  change r.bytes ++ tail ≠ lit "-" at hne
  change ∃ c ∈ chomp (r.bytes ++ tail), isDecimal c = false at hno
  rcases htail with rfl | ⟨rfl, hdash⟩
  · rw [List.append_nil] at hne hno
    have hdigits := hr.bytes.resolve_left hne
    rw [chomp_of_digits hdigits] at hno
    exact not_loose_of_digits hdigits hno
  · rw [chomp_newline] at hno
    exact not_loose_of_digits (hr.bytes.resolve_left hdash) hno

theorem not_loose_of_grammar (hf : f.Shape) (hd : f.entry = some d) (h : Grammar f.render d) :
    ¬ Loose f := by
  obtain ⟨r, hr, hline, rfl⟩ := h
  obtain ⟨hmem, n, hn, heq⟩ := Fields.entry_iff.mp hd
  have hip : ord ' ' ∉ r.ip := by
    have hip : r.ip = f.ip := congrArg Entry.ip heq
    rw [hip]
    exact hf.ip
  rcases hline with hline | hline
  · rw [← List.append_nil r.render, ← r.fields_render []] at hline
    rw [Fields.render_inj hline hf (fields_shape hr hip List.not_mem_nil)]
    exact not_loose_fields hr (.inl rfl)
  · rw [← r.fields_render] at hline
    have hcut := Fields.render_inj hline hf (fields_shape hr hip (by decide))
    rw [hcut] at hn ⊢
    refine not_loose_fields hr (.inr ⟨rfl, fun hdash ↦ ?_⟩)
    -- `int("-\n")` fails, so this line is not accepted
    have hint := (numbers_iff.mp hn).2
    simp only [Record.fields, hdash] at hint
    rw [if_neg (by decide), show intOf (lit "-" ++ lit "\n") = none by decide] at hint
    cases hint

def record (f : Fields) : Record :=
  ⟨f.ip, f.ts, f.method, f.path, f.proto, f.status, chomp f.size⟩

theorem size_cases {v : ℤ} (hne : f.size ≠ [])
    (hsize : if f.size = lit "-" then v = 0 else intOf f.size = some v)
    (hbytes : f.size ≠ lit "-" → ∀ c ∈ chomp f.size, isDecimal c) :
    (f.size = lit "-" ∨ Digits (chomp f.size)) ∧ v = (record f).value.bytes := by
  rcases Decidable.em (f.size = lit "-") with hdash | hdash
  · rw [if_pos hdash] at hsize
    have hchomp : chomp (lit "-") = lit "-" := by decide
    exact ⟨.inl hdash, by simp [record, Record.value, hdash, hchomp, hsize]⟩
  · rw [if_neg hdash] at hsize
    have hdigits : Digits (chomp f.size) := by
      refine ⟨fun hnil ↦ ?_, hbytes hdash⟩
      rcases chomp_cases f.size with hnl | hsame
      · have hnone : intOf (lit "\n") = none := rfl
        rw [hnl, hnil, List.nil_append, hnone] at hsize
        cases hsize
      · exact hne (hsame.trans hnil)
    have hvalue : v = digitsValue (chomp f.size) := by
      rcases chomp_cases f.size with hnl | hsame
      · rw [hnl] at hsize
        refine intOf_digits_value hdigits.1 hdigits.2 (fun c hc ↦ ?_) hsize
        obtain rfl := List.mem_singleton.mp hc
        rfl
      · rw [hsame, ← List.append_nil (chomp f.size)] at hsize
        exact intOf_digits_value hdigits.1 hdigits.2 (by simp) hsize
    have hnot : chomp f.size ≠ lit "-" := by
      intro heq
      have hbad := hdigits.2 (ord '-') (by rw [heq]; decide)
      cases hbad
    exact ⟨.inr hdigits, by simp [record, Record.value, hnot, hvalue]⟩

theorem grammar_of_not_loose (hf : f.Shape) (hd : f.entry = some d) (h : ¬ Loose f) :
    Grammar f.render d := by
  obtain ⟨hmem, n, hn, rfl⟩ := Fields.entry_iff.mp hd
  obtain ⟨hstatus, hsize⟩ := numbers_iff.mp hn
  simp only [Loose, not_or, not_and, not_exists, not_not, ne_eq, Bool.not_eq_true,
    Bool.not_eq_false] at h
  obtain ⟨⟨hx, hy⟩, ⟨hpath, hpath'⟩, ⟨hproto, hproto'⟩, ⟨hbefore, hbetween, hafter⟩, hdigits,
    hbytes⟩ := h
  obtain ⟨hform, hbytesValue⟩ := size_cases hf.size.1 hsize hbytes
  refine ⟨record f, ?_, ?_, ?_⟩
  · refine ⟨hf.ts, plain_of_methods _ hmem, ⟨hpath, fun c hc ↦ ⟨hpath' c hc, ?_⟩⟩,
      ⟨hproto, fun c hc ↦ ⟨hproto' c hc, ?_⟩⟩, ⟨hf.status.1, hdigits⟩, ?_⟩
    · exact ne_of_mem_of_not_mem hc hf.path.2
    · exact ne_of_mem_of_not_mem hc hf.proto.2
    · have hchomp : chomp (lit "-") = lit "-" := by decide
      exact hform.imp_left (fun hdash ↦ (congrArg chomp hdash).trans hchomp)
  · have hcut : ∀ tail, f.size = chomp f.size ++ tail → f.render = (record f).render ++ tail := by
      intro tail htail
      rw [← Record.fields_render]
      exact congrArg Fields.render
        (Fields.ext rfl rfl hx hy rfl rfl rfl hbefore rfl hbetween htail hafter)
    rcases chomp_cases f.size with hnl | hsame
    · exact .inr (hcut _ hnl)
    · exact .inl (by simpa using hcut [] (by simpa using hsame))
  · rw [← List.append_nil f.status] at hstatus
    have hvalue := intOf_digits_value hf.status.1 hdigits (by simp) hstatus
    rw [hvalue, hbytesValue]
    rfl

/-- What the parser accepts is in the documented format exactly when the line
has no cut that passes the parser's checks and is loose. -/
theorem accepts_documented_iff (line : Str) :
    (∀ d, parseLine line = some d → Grammar line d) ↔
      ¬ ∃ f : Fields, f.render = line ∧ Checked f ∧ Loose f := by
  constructor
  · intro hdoc hall
    obtain ⟨f, rfl, hchecked, hloose⟩ := hall
    obtain ⟨hf, d, hd⟩ := checked_iff.mp hchecked
    exact not_loose_of_grammar hf hd (hdoc d (parseLine_iff.mpr ⟨f, hf, rfl, hd⟩)) hloose
  · intro hno d hparse
    obtain ⟨f, hf, rfl, hd⟩ := parseLine_iff.mp hparse
    have hchecked : Checked f := checked_iff.mpr ⟨hf, d, hd⟩
    exact grammar_of_not_loose hf hd (fun hloose ↦ hno ⟨f, rfl, hchecked, hloose⟩)

/-- A request without its opening quote is accepted. -/
theorem unquoted_request_accepted :
    parseLine (lit "1.2.3.4 - - [ts]xxGET / HTTP/1.1\" 200 5") =
        some ⟨lit "1.2.3.4", lit "ts", lit "GET", lit "/", 200, 5⟩ ∧
      ¬ Grammar (lit "1.2.3.4 - - [ts]xxGET / HTTP/1.1\" 200 5")
        ⟨lit "1.2.3.4", lit "ts", lit "GET", lit "/", 200, 5⟩ := by
  let f : Fields := ⟨lit "1.2.3.4", lit "ts", ord 'x', ord 'x', lit "GET", lit "/",
    lit "HTTP/1.1", 1, lit "200", 0, lit "5", 0⟩
  have hshape : f.Shape := by constructor <;> decide
  refine ⟨rfl, fun h ↦ not_loose_of_grammar hshape rfl h (.inl (.inl ?_))⟩
  exact fun heq ↦ absurd (ord_injective heq) (by decide)

end LowLevel.Interview.LogparseGrammar
