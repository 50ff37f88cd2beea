import LowLevel.Interview.LogparseGrammar

namespace LowLevel.Interview.LogparseRoundTrip

open Basis.PyStr Basis.PyInt Logparse LogparseGrammar

structure WellFormed (r : Record) : Prop where
  ip : r.ip ≠ [] ∧ ∀ c ∈ r.ip, isSpace c = false
  ts : ord ']' ∉ r.ts
  method : Plain r.method
  path : Plain r.path
  proto : Plain r.proto
  status : r.status ≠ [] ∧ ∀ c ∈ r.status, 48 ≤ c.val ∧ c.val ≤ 57
  bytes : r.bytes = lit "-" ∨ Digits r.bytes

variable {r : Record}

theorem WellFormed.documented (h : WellFormed r) : r.Documented where
  ts := h.ts
  method := h.method
  path := h.path
  proto := h.proto
  status := ⟨h.status.1, fun c hc ↦ isDecimal_of_ascii (h.status.2 c hc)⟩
  bytes := h.bytes

theorem WellFormed.shape (h : WellFormed r) : (r.fields []).Shape := by
  refine fields_shape h.documented (fun hmem ↦ ?_) List.not_mem_nil
  have hspace := h.ip.2 _ hmem
  cases hspace

theorem intOf_eq_value {s : Str} (h : Digits s) (v : ℤ) :
    intOf s = some v ↔ s.length ≤ maxStrDigits ∧ v = digitsValue s := by
  have hint := intOf_digits (w := []) h.1 h.2 (by simp)
  rw [List.append_nil] at hint
  rw [hint]
  split
  · rename_i hle
    simp [hle, eq_comm]
  · rename_i hle
    simp [hle]

theorem numbers_value (h : WellFormed r) :
    numbers r.status r.bytes = some (r.value.status, r.value.bytes) ↔
      r.status.length ≤ maxStrDigits ∧ r.bytes.length ≤ maxStrDigits := by
  have hstatus := intOf_eq_value h.documented.status r.value.status
  rw [numbers_iff, hstatus]
  refine and_congr (and_iff_left rfl) ?_
  rcases h.bytes with hdash | hdigits
  · rw [if_pos hdash]
    simp [Record.value, hdash, lit, maxStrDigits]
  · have hnot : r.bytes ≠ lit "-" := by
      intro heq
      have hbad := hdigits.2 (ord '-') (by rw [heq]; decide)
      cases hbad
    rw [if_neg hnot, intOf_eq_value hdigits]
    exact and_iff_left (by rw [Record.value, if_neg hnot])

/-- Parsing undoes rendering exactly for the five listed methods and for
numbers that `int` is willing to convert. -/
theorem parse_render_iff (r : Record) (h : WellFormed r) :
    parseLine r.render = some r.value ↔
      r.method ∈ methods ∧ r.status.length ≤ maxStrDigits ∧ r.bytes.length ≤ maxStrDigits := by
  rw [← List.append_nil r.render, ← r.fields_render [], parseLine_render h.shape, Fields.entry_iff,
    ← numbers_value h]
  have hsize : (r.fields []).size = r.bytes := List.append_nil r.bytes
  rw [hsize]
  refine and_congr Iff.rfl ⟨?_, fun hn ↦ ⟨_, hn, rfl⟩⟩
  intro hall
  obtain ⟨n, hn, heq⟩ := hall
  have hstatus : r.value.status = n.1 := congrArg Entry.status heq
  have hbytes : r.value.bytes = n.2 := congrArg Entry.bytes heq
  rw [hstatus, hbytes]
  exact hn

def sample (method : Str) : Record :=
  ⟨lit "1.2.3.4", lit "ts", method, lit "/", lit "HTTP/1.1", lit "200", lit "5"⟩

theorem sample_wellFormed {method : Str} (h : Plain method) : WellFormed (sample method) := by
  have hip : Plain (lit "1.2.3.4") := by decide
  have hpath : Plain (lit "/") := by decide
  have hproto : Plain (lit "HTTP/1.1") := by decide
  have hts : ord ']' ∉ lit "ts" := by decide
  have hstatus : (lit "200").all (fun c ↦ 48 ≤ c.val && c.val ≤ 57) := by decide
  have hbytes : Digits (lit "5") := by decide
  exact ⟨⟨hip.1, fun c hc ↦ (hip.2 c hc).1⟩, hts, h, hpath, hproto,
    ⟨List.cons_ne_nil _ _, fun c hc ↦ by simpa using List.all_eq_true.mp hstatus c hc⟩, .inr hbytes⟩

theorem patch_rejected :
    WellFormed (sample (lit "PATCH")) ∧ parseLine (sample (lit "PATCH")).render = none :=
  ⟨sample_wellFormed (by decide), rfl⟩

theorem parse_render_get :
    parseLine (sample (lit "GET")).render = some (sample (lit "GET")).value :=
  (parse_render_iff (sample (lit "GET")) (sample_wellFormed (by decide))).mpr (by decide)

end LowLevel.Interview.LogparseRoundTrip
