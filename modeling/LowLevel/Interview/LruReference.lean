import LowLevel.Basis.CArith
import LowLevel.Basis.StaticArray
import LowLevel.Interview.Lru
import Mathlib.Data.List.InsertIdx

namespace LowLevel.Interview.LruReference

open Basis.AddressSpace Basis.CArith Basis.Loop Basis.OrderedDict Basis.StaticArray Lru

/-- The statics `ref_key`, `ref_val` and `ref_len` of the differential test in C. -/
structure Ref where
  key : List ℤ
  val : List ℤ
  len : ℕ

namespace Ref

/-- `REF_CAP` is 16 in the test. -/
def start (cap : ℕ) : Ref := ⟨List.replicate cap 0, List.replicate cap 0, 0⟩

def find (s : Ref) (key : ℤ) : Except Fault Int32 := do
  match ← scan (· == key) s.key s.len with
  | some i => narrowSize i
  | none => return -1

/-- Both arrays from index `i` on, one place down. -/
def shift (s : Ref) (i : ℕ) : Except Stop (List ℤ × List ℤ) :=
  forRange (fun j p ↦ (downPass j p.1).bind (fun key ↦ (downPass j p.2).map (fun val ↦ (key, val))))
    i (s.len - 1) (s.key, s.val)

def promote (s : Ref) (i : ℕ) : Except Stop Ref := do
  let k ← read s.key i
  let v ← read s.val i
  let (key, val) ← s.shift i
  let key ← assign key (s.len - 1) k
  let val ← assign val (s.len - 1) v
  return { s with key, val }

def get (s : Ref) (key : ℤ) : Except Fault (ℤ × Ref) := do
  let i ← s.find key
  if i.toInt < 0 then
    return (-1, s)
  let v ← read s.val i.toInt.toNat
  let s ← s.promote i.toInt.toNat
  return (v, s)

def put (cap : ℕ) (s : Ref) (key value : ℤ) : Except Fault Ref := do
  let i ← s.find key
  if i.toInt ≥ 0 then
    let val ← assign s.val i.toInt.toNat value
    return ← { s with val }.promote i.toInt.toNat
  let mut s := s
  if s.len = cap then
    let (key, val) ← s.shift 0
    s := ⟨key, val, s.len - 1⟩
  return ⟨← assign s.key s.len key, ← assign s.val s.len value, s.len + 1⟩

def exec (cap : ℕ) (s : Ref) : Op ℤ ℤ → Except Fault (Option ℤ × Ref)
  | .get key => do
    let (v, s) ← s.get key
    return (some v, s)
  | .put key value => do
    let s ← s.put cap key value
    return (none, s)

/-- The pairs in use, least recent first. -/
def pairs (s : Ref) : List (ℤ × ℤ) := (s.key.take s.len).zip (s.val.take s.len)

/-- The answers, each with the pairs after it. -/
def trace (cap : ℕ) (s : Ref) :
    List (Op ℤ ℤ) → Except Fault (List (Option ℤ × List (ℤ × ℤ)))
  | [] => .ok []
  | op :: ops => do
    let (out, s) ← s.exec cap op
    return (out, s.pairs) :: (← s.trace cap ops)

end Ref

/-- `ref_get` of the differential test in Python. -/
def pyRefGet (ref : List (ℤ × ℤ)) (key : ℤ) : ℤ × List (ℤ × ℤ) :=
  match ref.findIdx? (fun e ↦ e.1 == key) with
  | none => (-1, ref)
  | some i =>
    match ref[i]? with
    | none => (-1, ref)
    | some e => (e.2, ref.eraseIdx i ++ [e])

def pyRefPut (cap : ℕ) (ref : List (ℤ × ℤ)) (key value : ℤ) : List (ℤ × ℤ) :=
  match ref.findIdx? (fun e ↦ e.1 == key) with
  | some i => ref.eraseIdx i ++ [(key, value)]
  | none => (if ref.length = cap then ref.eraseIdx 0 else ref) ++ [(key, value)]

def pyRefExec (cap : ℕ) (ref : List (ℤ × ℤ)) : Op ℤ ℤ → Option ℤ × List (ℤ × ℤ)
  | .get key => (some (pyRefGet ref key).1, (pyRefGet ref key).2)
  | .put key value => (none, pyRefPut cap ref key value)

def pyRefTrace (cap : ℕ) (ref : List (ℤ × ℤ)) :
    List (Op ℤ ℤ) → List (Option ℤ × List (ℤ × ℤ))
  | [] => []
  | op :: ops => pyRefExec cap ref op :: pyRefTrace cap (pyRefExec cap ref op).2 ops

/-- Of a trace, the answers and the keys. -/
def keysOf (trace : List (Option ℤ × List (ℤ × ℤ))) : List (Option ℤ × List ℤ) :=
  trace.map (fun r ↦ (r.1, r.2.map Prod.fst))

variable {cap : ℕ} {ref pre post : List (ℤ × ℤ)} {e : ℤ × ℤ} {s : Ref} {key : ℤ}

/-- The entries of the list are the first cells of the arrays. -/
structure Stores (cap : ℕ) (ref : List (ℤ × ℤ)) (s : Ref) : Prop where
  key_length : s.key.length = cap
  val_length : s.val.length = cap
  keys : ref.map Prod.fst <+: s.key
  vals : ref.map Prod.snd <+: s.val
  len : s.len = ref.length

theorem Stores.room (h : Stores cap ref s) : ref.length ≤ cap := by
  have hle := h.keys.length_le
  rwa [List.length_map, h.key_length] at hle

/-- Where the scans of all the references stop. -/
inductive Found (ref : List (ℤ × ℤ)) (key : ℤ) : Prop
  | absent : ref.findIdx? (fun e ↦ e.1 == key) = none → ref.lookup key = none → Found ref key
  | at (pre : List (ℤ × ℤ)) (v : ℤ) (post : List (ℤ × ℤ)) : ref = pre ++ (key, v) :: post →
      ref.findIdx? (fun e ↦ e.1 == key) = some pre.length → ref.lookup key = some v → Found ref key

theorem found (ref : List (ℤ × ℤ)) (key : ℤ) : Found ref key := by
  induction ref with
  | nil => exact .absent rfl rfl
  | cons e ref ih =>
    by_cases heq : e.1 = key
    · subst heq
      exact .at [] e.2 ref rfl (by simp [List.findIdx?_cons]) List.lookup_cons_self
    · have hne : (e.1 == key) = false := beq_false_of_ne heq
      have hlookup : (e :: ref).lookup key = ref.lookup key := by
        rw [List.lookup_cons, beq_false_of_ne (Ne.symm heq)]
      cases ih with
      | absent hfind hlook =>
        exact .absent (by rw [List.findIdx?_cons, hne, hfind]; rfl) (hlookup.trans hlook)
      | «at» pre v post hsplit hfind hlook =>
        exact .at (e :: pre) v post (by rw [hsplit]; rfl)
          (by rw [List.findIdx?_cons, hne, hfind]; rfl) (hlookup.trans hlook)

theorem without_split (h : ((pre ++ e :: post).map Prod.fst).Nodup) :
    Dict.without (pre ++ e :: post) e.1 = pre ++ post := by
  rw [List.map_append, List.map_cons] at h
  have hboth := List.nodup_append.mp h
  have hpre : e.1 ∉ pre.map Prod.fst := fun hmem ↦ hboth.2.2 _ hmem _ List.mem_cons_self rfl
  have hpost : e.1 ∉ post.map Prod.fst := (List.nodup_cons.mp hboth.2.1).1
  have hhead : Dict.without (e :: post) e.1 = Dict.without post e.1 :=
    List.filter_cons_of_neg (by simp)
  have happ : Dict.without (pre ++ e :: post) e.1 =
      Dict.without pre e.1 ++ Dict.without (e :: post) e.1 := List.filter_append ..
  rw [happ, hhead, Dict.without_of_notMem hpre, Dict.without_of_notMem hpost]

theorem eraseIdx_split : (pre ++ e :: post).eraseIdx pre.length = pre ++ post := by
  rw [List.eraseIdx_append_of_length_le (Nat.le_refl _), Nat.sub_self, List.eraseIdx_cons_zero]

theorem Stores.scan (h : Stores cap ref s) (key : ℤ) :
    Basis.StaticArray.scan (· == key) s.key s.len = .ok (ref.findIdx? (fun e ↦ e.1 == key)) := by
  have hscan := scan_eq (p := (· == key)) h.keys
  have hfind : (ref.map Prod.fst).findIdx? (· == key) = ref.findIdx? (fun e ↦ e.1 == key) :=
    List.findIdx?_map ..
  rwa [List.length_map, hfind, ← h.len] at hscan

theorem Stores.find_absent (h : Stores cap ref s)
    (hfind : ref.findIdx? (fun e ↦ e.1 == key) = none) : s.find key = .ok (-1) := by
  rw [Ref.find, lift_ok (h.scan key), ok_bind, hfind]
  rfl

/-- The place found is an `int`, as the capacity is. -/
theorem Stores.find_at (h : Stores cap ref s) (hsmall : cap < 2 ^ 31) {i : ℕ}
    (hfind : ref.findIdx? (fun e ↦ e.1 == key) = some i) :
    ∃ r, s.find key = .ok r ∧ r.toInt = i := by
  obtain ⟨hlt, -⟩ := List.findIdx?_eq_some_iff_getElem.mp hfind
  obtain ⟨r, hrun, hval⟩ := narrowSize_of_lt (n := i) (by have hroom := h.room; omega)
  refine ⟨r, ?_, hval⟩
  rw [Ref.find, lift_ok (h.scan key), ok_bind, hfind]
  exact hrun

theorem Stores.shift (h : Stores cap ref s) (i : ℕ) : ∃ key val, s.shift i = .ok (key, val) ∧
    key.length = cap ∧ val.length = cap ∧ (ref.eraseIdx i).map Prod.fst <+: key ∧
      (ref.eraseIdx i).map Prod.snd <+: val := by
  obtain ⟨key, hkey, hklen, hkeys⟩ := shiftDown_erase h.keys i
  obtain ⟨val, hval, hvlen, hvals⟩ := shiftDown_erase h.vals i
  rw [List.length_map, ← h.len] at hkey hval
  rw [List.eraseIdx_map] at hkeys hvals
  exact ⟨key, val, forRange_pair hkey hval, hklen.trans h.key_length, hvlen.trans h.val_length,
    hkeys, hvals⟩

/-- Another entry written behind the ones stored. -/
theorem stores_concat {keys vals : List ℤ} (hkey : keys.length = cap) (hval : vals.length = cap)
    (hkeys : ref.map Prod.fst <+: keys) (hvals : ref.map Prod.snd <+: vals)
    (hroom : ref.length < cap) (e : ℤ × ℤ) :
    assign keys ref.length e.1 = .ok (keys.set ref.length e.1) ∧
      assign vals ref.length e.2 = .ok (vals.set ref.length e.2) ∧
      Stores cap (ref ++ [e])
        ⟨keys.set ref.length e.1, vals.set ref.length e.2, ref.length + 1⟩ := by
  have hk := prefix_concat hkeys (by rw [List.length_map, hkey]; exact hroom) e.1
  have hv := prefix_concat hvals (by rw [List.length_map, hval]; exact hroom) e.2
  rw [List.length_map] at hk hv
  refine ⟨assign_eq (by omega) _, assign_eq (by omega) _, ?_, ?_, ?_, ?_, ?_⟩
  · rw [List.length_set, hkey]
  · rw [List.length_set, hval]
  · rwa [List.map_append]
  · rwa [List.map_append]
  · rw [List.length_append, List.length_singleton]

theorem Stores.promote (h : Stores cap (pre ++ e :: post) s) :
    ∃ s', s.promote pre.length = .ok s' ∧ Stores cap (pre ++ post ++ [e]) s' := by
  obtain ⟨keys, vals, hshift, hkey, hval, hkeys, hvals⟩ := h.shift pre.length
  have hroom := h.room
  have hlen := h.len
  simp only [List.length_append, List.length_cons] at hroom hlen
  rw [eraseIdx_split] at hkeys hvals
  obtain ⟨hk, hv, hstores⟩ := stores_concat hkey hval hkeys hvals
    (by rw [List.length_append]; omega) e
  have hlast : s.len - 1 = (pre ++ post).length := by
    rw [List.length_append]
    omega
  have hreadk : read s.key pre.length = .ok e.1 := by
    rw [read_within h.keys (by simp)]
    simp
  have hreadv : read s.val pre.length = .ok e.2 := by
    rw [read_within h.vals (by simp)]
    simp
  refine ⟨_, ?_, hstores⟩
  rw [Ref.promote, hreadk, ok_bind, hreadv, ok_bind, hshift, ok_bind]
  dsimp only
  rw [hlast, hk, ok_bind, hv, ok_bind, List.length_append]
  have hsame : s.len = pre.length + post.length + 1 := by omega
  rw [hsame]
  rfl

theorem Stores.get (h : Stores cap ref s) (hsmall : cap < 2 ^ 31)
    (hn : (ref.map Prod.fst).Nodup) (key : ℤ) :
    ∃ s', s.get key = .ok ((refGet ref key).1, s') ∧ Stores cap (refGet ref key).2 s' := by
  rw [Ref.get, refGet]
  cases found ref key with
  | absent hfind hlook =>
    rw [h.find_absent hfind, hlook]
    exact ⟨s, rfl, h⟩
  | «at» pre v post hsplit hfind hlook =>
    obtain ⟨r, hrun, hval⟩ := h.find_at hsmall hfind
    subst hsplit
    obtain ⟨s', hpromote, hstores⟩ := h.promote
    have hread : read s.val pre.length = .ok v := by
      rw [read_within h.vals (by simp)]
      simp
    rw [hrun, ok_bind, hval, hlook]
    dsimp only
    rw [if_neg (by omega), Int.toNat_natCast, lift_ok hread, ok_bind, lift_ok hpromote]
    refine ⟨s', rfl, ?_⟩
    rwa [without_split hn]

theorem Stores.update (h : Stores cap (pre ++ e :: post) s) (value : ℤ) :
    assign s.val pre.length value = .ok (s.val.set pre.length value) ∧
      Stores cap (pre ++ (e.1, value) :: post) { s with val := s.val.set pre.length value } := by
  have hroom := h.room
  have hval := h.val_length
  simp only [List.length_append, List.length_cons] at hroom
  refine ⟨assign_eq (by omega) _, h.key_length, by rw [List.length_set, hval], ?_, ?_, ?_⟩
  · simpa using h.keys
  · simpa using prefix_set (i := pre.length) h.vals value
  · simpa using h.len

theorem Stores.put (h : Stores cap ref s) (hcap : 0 < cap) (hsmall : cap < 2 ^ 31)
    (hn : (ref.map Prod.fst).Nodup) (key value : ℤ) :
    ∃ s', s.put cap key value = .ok s' ∧ Stores cap (refPut cap ref key value) s' := by
  have hlen := h.len
  have hroom := h.room
  rw [Ref.put, refPut]
  cases found ref key with
  | absent hfind hlook =>
    rw [h.find_absent hfind, ok_bind, hlook]
    dsimp only
    rw [if_neg (by decide)]
    by_cases hfull : s.len = cap
    · obtain ⟨keys, vals, hshift, hkey, hval, hkeys, hvals⟩ := h.shift 0
      rw [List.eraseIdx_zero] at hkeys hvals
      have htail : ref.tail.length = s.len - 1 := by rw [List.length_tail, hlen]
      obtain ⟨hk, hv, hstores⟩ := stores_concat hkey hval hkeys hvals (by omega) (key, value)
      rw [if_pos hfull, if_pos (by omega), lift_ok hshift, ok_bind]
      rw [htail] at hk hv hstores
      dsimp only
      rw [lift_ok hk, ok_bind, lift_ok hv]
      exact ⟨_, rfl, hstores⟩
    · obtain ⟨hk, hv, hstores⟩ := stores_concat h.key_length h.val_length h.keys h.vals
        (by omega) (key, value)
      rw [← hlen] at hk hv hstores
      rw [if_neg hfull, if_neg (by omega), hk, hv]
      exact ⟨_, rfl, hstores⟩
  | «at» pre v post hsplit hfind hlook =>
    obtain ⟨r, hrun, hval⟩ := h.find_at hsmall hfind
    subst hsplit
    obtain ⟨hv, hstores⟩ := h.update value
    obtain ⟨s', hpromote, hstores'⟩ := hstores.promote
    rw [hrun, ok_bind, hval, hlook]
    dsimp only
    rw [if_pos (by omega), Int.toNat_natCast, lift_ok hv, ok_bind, lift_ok hpromote]
    refine ⟨s', rfl, ?_⟩
    rwa [without_split (e := (key, v)) hn]

/-- The abstract reference list never repeats a key. -/
theorem nodup_refExec (hn : (ref.map Prod.fst).Nodup) (op : Op ℤ ℤ) :
    ((refExec cap ref op).2.map Prod.fst).Nodup := by
  have hconcat : ∀ (l : List (ℤ × ℤ)) key value, (l.map Prod.fst).Nodup →
      key ∉ l.map Prod.fst → ((l ++ [(key, value)]).map Prod.fst).Nodup :=
    fun l key value hl hk ↦ Dict.nodup_append_new hl hk value
  have hwithout : ∀ key, ((Dict.without ref key).map Prod.fst).Nodup :=
    fun key ↦ hn.sublist ((Dict.without_sublist ref key).map Prod.fst)
  cases op with
  | get key =>
    simp only [refExec, refGet]
    split
    · exact hn
    · exact hconcat _ _ _ (hwithout key) (Dict.notMem_without ref key)
  | put key value =>
    simp only [refExec, refPut]
    split
    · exact hconcat _ _ _ (hwithout key) (Dict.notMem_without ref key)
    · rename_i hlook
      have hnot : key ∉ ref.map Prod.fst := (Dict.get?_eq_none ⟨ref, hn⟩ key).mp hlook
      split
      · refine hconcat _ _ _ ?_ ?_
        · rw [List.map_tail]
          exact hn.tail
        · rw [List.map_tail]
          exact fun hmem ↦ hnot (List.mem_of_mem_tail hmem)
      · exact hconcat _ _ _ hn hnot

theorem Stores.pairs (h : Stores cap ref s) : s.pairs = ref := by
  obtain ⟨restk, hk⟩ := h.keys
  obtain ⟨restv, hv⟩ := h.vals
  have hkeys : s.len = (ref.map Prod.fst).length := h.len.trans (List.length_map _).symm
  have hvals : s.len = (ref.map Prod.snd).length := h.len.trans (List.length_map _).symm
  have hkey : s.key.take s.len = ref.map Prod.fst := by rw [← hk, hkeys, List.take_left]
  have hval : s.val.take s.len = ref.map Prod.snd := by rw [← hv, hvals, List.take_left]
  rw [Ref.pairs, hkey, hval, List.zip_map']
  exact List.map_id' ref

theorem Stores.exec (h : Stores cap ref s) (hcap : 0 < cap) (hsmall : cap < 2 ^ 31)
    (hn : (ref.map Prod.fst).Nodup) (op : Op ℤ ℤ) :
    ∃ s', s.exec cap op = .ok ((refExec cap ref op).1, s') ∧
      Stores cap (refExec cap ref op).2 s' := by
  cases op with
  | get key =>
    obtain ⟨s', hget, hstores⟩ := h.get hsmall hn key
    exact ⟨s', by rw [Ref.exec, hget]; rfl, hstores⟩
  | put key value =>
    obtain ⟨s', hput, hstores⟩ := h.put hcap hsmall hn key value
    exact ⟨s', by rw [Ref.exec, hput]; rfl, hstores⟩

theorem pyRefExec_eq (hn : (ref.map Prod.fst).Nodup) (op : Op ℤ ℤ) :
    pyRefExec cap ref op = refExec cap ref op := by
  cases op with
  | get key =>
    rw [pyRefExec, refExec, pyRefGet, refGet]
    cases found ref key with
    | absent hfind hlook =>
      rw [hfind, hlook]
      rfl
    | «at» pre v post hsplit hfind hlook =>
      subst hsplit
      have hget : (pre ++ (key, v) :: post)[pre.length]? = some (key, v) := by simp
      rw [hfind, hlook]
      dsimp only
      rw [hget, eraseIdx_split, without_split (e := (key, v)) hn]
  | put key value =>
    rw [pyRefExec, refExec, pyRefPut, refPut]
    cases found ref key with
    | absent hfind hlook =>
      rw [hfind, hlook]
      dsimp only
      rw [List.eraseIdx_zero]
      by_cases hfull : ref.length = cap
      · rw [if_pos hfull, if_pos (by omega)]
      · rw [if_neg hfull, if_neg (by omega)]
    | «at» pre v post hsplit hfind hlook =>
      subst hsplit
      rw [hfind, hlook]
      dsimp only
      rw [eraseIdx_split, without_split (e := (key, v)) hn]

theorem Stores.trace (h : Stores cap ref s) (hcap : 0 < cap) (hsmall : cap < 2 ^ 31)
    (hn : (ref.map Prod.fst).Nodup) (ops : List (Op ℤ ℤ)) :
    s.trace cap ops = .ok (pyRefTrace cap ref ops) := by
  induction ops generalizing s ref with
  | nil => rfl
  | cons op ops ih =>
    obtain ⟨s', hexec, hstores⟩ := h.exec hcap hsmall hn op
    rw [Ref.trace, hexec, ok_bind, pyRefTrace, pyRefExec_eq hn]
    dsimp only
    rw [ih hstores (nodup_refExec hn op), hstores.pairs]
    rfl

theorem keysOf_pyRefTrace (hn : (ref.map Prod.fst).Nodup) (ops : List (Op ℤ ℤ)) :
    keysOf (pyRefTrace cap ref ops) = refTrace cap ref ops := by
  induction ops generalizing ref with
  | nil => rfl
  | cons op ops ih =>
    rw [pyRefTrace, refTrace, pyRefExec_eq hn, ← ih (nodup_refExec hn op)]
    rfl

/-- The two oracles of the differential tests, the arrays in C and the list in
Python, stay in bounds and give the same answers, with the same pairs in the
same recency order. -/
theorem references_agree (cap : ℕ) (hcap : 1 ≤ cap) (hsmall : cap < 2 ^ 31)
    (ops : List (Op ℤ ℤ)) :
    (Ref.start cap).trace cap ops = .ok (pyRefTrace cap [] ops) ∧
      keysOf (pyRefTrace cap [] ops) = refTrace cap [] ops := by
  have hstart : Stores cap [] (Ref.start cap) :=
    ⟨List.length_replicate .., List.length_replicate .., List.nil_prefix, List.nil_prefix, rfl⟩
  have hnil : (([] : List (ℤ × ℤ)).map Prod.fst).Nodup := List.nodup_nil
  exact ⟨hstart.trace hcap hsmall hnil ops, keysOf_pyRefTrace hnil ops⟩

theorem references_agree_two :
    (Ref.start 2).trace 2 [.put 1 5, .put 2 6, .get 1, .put 3 7, .get 2] =
      .ok (pyRefTrace 2 [] [.put 1 5, .put 2 6, .get 1, .put 3 7, .get 2]) :=
  (references_agree 2 (by decide) (by decide) _).1

end LowLevel.Interview.LruReference
