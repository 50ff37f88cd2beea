import LowLevel.Basis.PyInt

namespace LowLevel.Interview.Logparse

open Basis.PyStr Basis.PyInt

structure Entry where
  ip : Str
  ts : Str
  method : Str
  path : Str
  status : ℤ
  bytes : ℤ
  deriving DecidableEq

def methods : List Str := [lit "GET", lit "PUT", lit "POST", lit "DELETE", lit "HEAD"]

def numbers (status size : Str) : Option (ℤ × ℤ) :=
  (intOf status).bind (fun status ↦
    if size = lit "-" then some (status, 0) else (intOf size).map (fun bytes ↦ (status, bytes)))

/-- The line from `endIndex + 1` on. -/
def parseSizes (ip ts method path line : Str) : Option Entry :=
  match tokens (ord ' ') line with
  | [status, size] => (numbers status size).map (fun n ↦ ⟨ip, ts, method, path, n.1, n.2⟩)
  | _ => none

/-- The line from `index + 3` on. -/
def parseRequest (ip ts line : Str) : Option Entry :=
  match line.idxOf? (ord '"') with
  | none => none
  | some endIndex =>
    match (line.take endIndex).splitOn (ord ' ') with
    | [method, path, _] =>
      if method ∉ methods then none
      else parseSizes ip ts method path (line.drop (endIndex + 1))
    | _ => none

def parseStamp (ip line : Str) : Option Entry :=
  match line.idxOf? (ord ']') with
  | none => none
  | some index =>
    if line.head? ≠ some (ord '[') then none
    else parseRequest ip ((line.take index).drop 1) (line.drop (index + 3))

/-- `parse_line`. An exception is caught and answered by `None` as well. -/
def parseLine (line : Str) : Option Entry :=
  match splitMax (ord ' ') 3 line with
  | [ip, dash1, dash2, line] =>
    if dash1 ≠ lit "-" ∨ dash2 ≠ lit "-" then none
    else parseStamp ip line
  | _ => none

/-- A line cut as the parser cuts it. `x` and `y` are the two characters it
skips unseen, and the numbers count the spaces around the sizes. -/
@[ext] structure Fields where
  ip : Str
  ts : Str
  x : CodePoint
  y : CodePoint
  method : Str
  path : Str
  proto : Str
  before : ℕ
  status : Str
  between : ℕ
  size : Str
  after : ℕ

namespace Fields

def sizes (f : Fields) : Str :=
  List.replicate f.before (ord ' ') ++ (f.status ++ ord ' ' ::
    (List.replicate f.between (ord ' ') ++ (f.size ++ List.replicate f.after (ord ' '))))

def request (f : Fields) : Str :=
  f.method ++ ord ' ' :: (f.path ++ ord ' ' :: (f.proto ++ ord '"' :: f.sizes))

def stamp (f : Fields) : Str := ord '[' :: (f.ts ++ ord ']' :: f.x :: f.y :: f.request)

def render (f : Fields) : Str := f.ip ++ (lit " - - " ++ f.stamp)

structure Shape (f : Fields) : Prop where
  ip : ord ' ' ∉ f.ip
  ts : ord ']' ∉ f.ts
  method : ord ' ' ∉ f.method ∧ ord '"' ∉ f.method
  path : ord ' ' ∉ f.path ∧ ord '"' ∉ f.path
  proto : ord ' ' ∉ f.proto ∧ ord '"' ∉ f.proto
  status : f.status ≠ [] ∧ ord ' ' ∉ f.status
  size : f.size ≠ [] ∧ ord ' ' ∉ f.size

def entry (f : Fields) : Option Entry :=
  if f.method ∉ methods then none
  else (numbers f.status f.size).map (fun n ↦ ⟨f.ip, f.ts, f.method, f.path, n.1, n.2⟩)

end Fields

variable {ip ts method path line : Str} {d : Entry}

theorem numbers_iff {status size : Str} {n : ℤ × ℤ} : numbers status size = some n ↔
    intOf status = some n.1 ∧ if size = lit "-" then n.2 = 0 else intOf size = some n.2 := by
  obtain ⟨a, b⟩ := n
  unfold numbers
  cases intOf status with
  | none => simp
  | some v =>
    rcases Decidable.em (size = lit "-") with hdash | hdash
    · simp [hdash, eq_comm (a := b)]
    · cases intOf size <;> simp [hdash]

theorem Fields.entry_iff {f : Fields} : f.entry = some d ↔ f.method ∈ methods ∧
    ∃ n, numbers f.status f.size = some n ∧ d = ⟨f.ip, f.ts, f.method, f.path, n.1, n.2⟩ := by
  unfold Fields.entry
  rcases Decidable.em (f.method ∈ methods) with hmem | hmem
  · rw [if_neg (not_not.mpr hmem), Option.map_eq_some_iff]
    simp only [hmem, true_and, eq_comm (a := d)]
  · simp [hmem]

theorem parseSizes_iff : parseSizes ip ts method path line = some d ↔
    ∃ i status j size k, (status ≠ [] ∧ ord ' ' ∉ status) ∧ (size ≠ [] ∧ ord ' ' ∉ size) ∧
      line = List.replicate i (ord ' ') ++ (status ++ ord ' ' ::
        (List.replicate j (ord ' ') ++ (size ++ List.replicate k (ord ' ')))) ∧
      (numbers status size).map (fun n ↦ ⟨ip, ts, method, path, n.1, n.2⟩) = some d := by
  constructor
  · intro h
    unfold parseSizes at h
    split at h
    · rename_i status size htokens
      obtain ⟨hs, hsc, hz, hzc, i, j, k, hline⟩ := tokens_eq_pair.mp htokens
      exact ⟨i, status, j, size, k, ⟨hs, hsc⟩, ⟨hz, hzc⟩, hline, h⟩
    · cases h
  · intro hall
    obtain ⟨i, status, j, size, k, ⟨hs, hsc⟩, ⟨hz, hzc⟩, hline, h⟩ := hall
    have htokens := tokens_eq_pair.mpr ⟨hs, hsc, hz, hzc, i, j, k, hline⟩
    rw [parseSizes, htokens]
    exact h

theorem parseRequest_iff : parseRequest ip ts line = some d ↔
    ∃ method path proto rest, (ord ' ' ∉ method ∧ ord '"' ∉ method) ∧
      (ord ' ' ∉ path ∧ ord '"' ∉ path) ∧ (ord ' ' ∉ proto ∧ ord '"' ∉ proto) ∧
      line = method ++ ord ' ' :: (path ++ ord ' ' :: (proto ++ ord '"' :: rest)) ∧
      method ∈ methods ∧ parseSizes ip ts method path rest = some d := by
  constructor
  · intro h
    unfold parseRequest at h
    split at h
    · cases h
    · rename_i endIndex hfind
      obtain ⟨url, rest, rfl, hquote, rfl⟩ := idxOf?_eq_some hfind
      rw [take_cut, drop_cut] at h
      split at h
      · rename_i method path proto hsplit
        obtain ⟨post, rfl, hmethod, hpost⟩ := splitOn_eq_cons hsplit (by simp)
        obtain ⟨post, rfl, hpath, hpost⟩ := splitOn_eq_cons hpost (by simp)
        obtain ⟨rfl, hproto⟩ := splitOn_eq_single hpost
        simp only [List.mem_append, List.mem_cons, not_or] at hquote
        split at h
        · cases h
        · rename_i hmem
          exact ⟨method, path, post, rest, ⟨hmethod, hquote.1⟩, ⟨hpath, hquote.2.2.1⟩,
            ⟨hproto, hquote.2.2.2.2⟩, by simp, not_not.mp hmem, h⟩
      · cases h
  · intro hall
    obtain ⟨method, path, proto, rest, hmethod, hpath, hproto, rfl, hmem, h⟩ := hall
    have hurl : method ++ ord ' ' :: (path ++ ord ' ' :: (proto ++ ord '"' :: rest)) =
        (method ++ ord ' ' :: (path ++ ord ' ' :: proto)) ++ ord '"' :: rest := by simp
    have hquote : ord '"' ∉ method ++ ord ' ' :: (path ++ ord ' ' :: proto) := by
      have hne : ord '"' ≠ ord ' ' := by decide
      simp [hmethod.2, hpath.2, hproto.2, hne]
    rw [parseRequest, hurl, idxOf?_cut hquote]
    simp only [take_cut, drop_cut]
    rw [List.splitOn_append_cons_self_of_not_mem hmethod.1,
      List.splitOn_append_cons_self_of_not_mem hpath.1, List.splitOn_eq_singleton hproto.1]
    simp only [not_not.mpr hmem, if_false]
    exact h

theorem parseStamp_iff : parseStamp ip line = some d ↔
    ∃ ts x y rest, ord ']' ∉ ts ∧ line = ord '[' :: (ts ++ ord ']' :: x :: y :: rest) ∧
      parseRequest ip ts rest = some d := by
  have hne : ord ']' ≠ ord '[' := by decide
  constructor
  · intro h
    unfold parseStamp at h
    split at h
    · cases h
    · rename_i index hfind
      obtain ⟨pre, post, rfl, hpre, rfl⟩ := idxOf?_eq_some hfind
      rw [take_cut, ← Nat.add_assoc (pre.length) 1 2, ← List.drop_drop, drop_cut] at h
      cases pre with
      | nil => simp [hne] at h
      | cons c ts =>
        split at h
        · cases h
        · rename_i hhead
          have hc : c = ord '[' := by simpa using hhead
          rw [hc, List.mem_cons, not_or] at hpre
          match post, h with
          | x :: y :: rest, h => exact ⟨ts, x, y, rest, hpre.2, by rw [hc]; rfl, h⟩
          | [], h => cases h
          | [x], h => cases h
  · intro hall
    obtain ⟨ts, x, y, rest, hts, rfl, h⟩ := hall
    have hpre : ord ']' ∉ ord '[' :: ts := by simp [hts, hne]
    have hline : ord '[' :: (ts ++ ord ']' :: x :: y :: rest) =
      (ord '[' :: ts) ++ ord ']' :: (x :: y :: rest) := rfl
    rw [parseStamp, hline, idxOf?_cut hpre]
    simp only [take_cut, ← Nat.add_assoc _ 1 2, ← List.drop_drop]
    simpa using h

theorem parseLine_iff_stamp : parseLine line = some d ↔
    ∃ ip rest, ord ' ' ∉ ip ∧ line = ip ++ (lit " - - " ++ rest) ∧ parseStamp ip rest = some d := by
  have hdash : ord ' ' ∉ lit "-" := by decide
  constructor
  · intro h
    unfold parseLine at h
    split at h
    · rename_i ip dash1 dash2 rest hsplit
      split at h
      · cases h
      · rename_i hdashes
        rw [not_or, not_not, not_not] at hdashes
        obtain ⟨post, rfl, hip, hpost⟩ := splitMax_eq_cons hsplit (by simp)
        obtain ⟨post, rfl, -, hpost⟩ := splitMax_eq_cons hpost (by simp)
        obtain ⟨post, rfl, -, hpost⟩ := splitMax_eq_cons hpost (by simp)
        cases hpost
        exact ⟨ip, rest, hip, by rw [hdashes.1, hdashes.2]; rfl, h⟩
    · cases h
  · intro hall
    obtain ⟨ip, rest, hip, rfl, h⟩ := hall
    have hline : ip ++ (lit " - - " ++ rest) =
      ip ++ ord ' ' :: (lit "-" ++ ord ' ' :: (lit "-" ++ ord ' ' :: rest)) := rfl
    rw [parseLine, hline, splitMax_cut 2 hip, splitMax_cut 1 hdash, splitMax_cut 0 hdash]
    exact h

/-- The parser accepts exactly the lines that can be cut, with the entry of the cut. -/
theorem parseLine_iff : parseLine line = some d ↔
    ∃ f : Fields, f.Shape ∧ f.render = line ∧ f.entry = some d := by
  constructor
  · intro h
    obtain ⟨ip, rest, hip, rfl, hstamp⟩ := parseLine_iff_stamp.mp h
    obtain ⟨ts, x, y, rest, hts, rfl, hrequest⟩ := parseStamp_iff.mp hstamp
    obtain ⟨method, path, proto, rest, hmethod, hpath, hproto, rfl, hmem, hsizes⟩ :=
      parseRequest_iff.mp hrequest
    obtain ⟨i, status, j, size, k, hstatus, hsize, rfl, hentry⟩ := parseSizes_iff.mp hsizes
    refine ⟨⟨ip, ts, x, y, method, path, proto, i, status, j, size, k⟩,
      ⟨hip, hts, hmethod, hpath, hproto, hstatus, hsize⟩, rfl, ?_⟩
    rw [Fields.entry, if_neg (not_not.mpr hmem)]
    exact hentry
  · intro hall
    obtain ⟨f, hshape, rfl, h⟩ := hall
    unfold Fields.entry at h
    split at h
    · cases h
    · rename_i hmem
      refine parseLine_iff_stamp.mpr ⟨f.ip, f.stamp, hshape.ip, rfl, ?_⟩
      refine parseStamp_iff.mpr ⟨f.ts, f.x, f.y, f.request, hshape.ts, rfl, ?_⟩
      refine parseRequest_iff.mpr ⟨f.method, f.path, f.proto, f.sizes, hshape.method, hshape.path,
        hshape.proto, rfl, not_not.mp hmem, ?_⟩
      exact parseSizes_iff.mpr ⟨f.before, f.status, f.between, f.size, f.after, hshape.status,
        hshape.size, rfl, h⟩

theorem Fields.sizes_inj {f g : Fields} (h : f.sizes = g.sizes) (hf : f.Shape) (hg : g.Shape) :
    f.before = g.before ∧ f.status = g.status ∧ f.between = g.between ∧ f.size = g.size ∧
      f.after = g.after := by
  obtain ⟨hbefore, h⟩ := pad_inj h (head?_ne_of_word hf.status.1 hf.status.2 _)
    (head?_ne_of_word hg.status.1 hg.status.2 _)
  obtain ⟨hstatus, h⟩ := cut_inj h hf.status.2 hg.status.2
  obtain ⟨hbetween, h⟩ := pad_inj h (head?_ne_of_word hf.size.1 hf.size.2 _)
    (head?_ne_of_word hg.size.1 hg.size.2 _)
  obtain ⟨hsize, hafter⟩ := pad_end_inj h hf.size.2 hg.size.2
  exact ⟨hbefore, hstatus, hbetween, hsize, hafter⟩

theorem Fields.render_inj {f g : Fields} (h : f.render = g.render) (hf : f.Shape) (hg : g.Shape) :
    f = g := by
  obtain ⟨hip, h⟩ := cut_inj (c := ord ' ') h hf.ip hg.ip
  have h := List.append_cancel_left (show lit "- - [" ++ _ = lit "- - [" ++ _ from h)
  obtain ⟨hts, h⟩ := cut_inj h hf.ts hg.ts
  obtain ⟨hx, h⟩ := List.cons.inj h
  obtain ⟨hy, h⟩ := List.cons.inj h
  obtain ⟨hmethod, h⟩ := cut_inj h hf.method.1 hg.method.1
  obtain ⟨hpath, h⟩ := cut_inj h hf.path.1 hg.path.1
  obtain ⟨hproto, h⟩ := cut_inj h hf.proto.2 hg.proto.2
  obtain ⟨hbefore, hstatus, hbetween, hsize, hafter⟩ := sizes_inj h hf hg
  cases f
  cases g
  simp_all

theorem parseLine_render {f : Fields} (hf : f.Shape) : parseLine f.render = f.entry := by
  refine Option.ext (fun d ↦ parseLine_iff.trans ⟨?_, fun hd ↦ ⟨f, hf, rfl, hd⟩⟩)
  intro hall
  obtain ⟨g, hg, heq, hd⟩ := hall
  rw [← Fields.render_inj heq hg hf]
  exact hd

end LowLevel.Interview.Logparse
