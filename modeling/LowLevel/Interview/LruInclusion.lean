import LowLevel.Interview.Lru

namespace LowLevel.Interview.LruInclusion

open Basis.OrderedDict Lru

variable {K V : Type*} [DecidableEq K]

section Lists

variable {l l' : List (K × V)}

theorem lookup_of_sublist (hl : l.Sublist l') (hn : (l'.map Prod.fst).Nodup) {key : K} {value : V}
    (h : l.lookup key = some value) : l'.lookup key = some value :=
  (Dict.get?_eq_some ⟨l', hn⟩ key value).mpr (hl.subset (Dict.mem_of_lookup h))

theorem sublist_without (hl : l.Sublist l') {key : K} (h : l.lookup key = none) :
    l.Sublist (Dict.without l' key) := by
  have hnot : key ∉ l.map Prod.fst := by
    intro hmem
    obtain ⟨e, he, hk⟩ := List.mem_map.mp hmem
    have hb := List.lookup_eq_none_iff.mp h e he
    simp [hk] at hb
  have hfix := Dict.without_of_notMem hnot
  rw [← hfix]
  exact hl.filter _

theorem getEntries_sublist [PyValue V] (hl : l.Sublist l') (hn : (l'.map Prod.fst).Nodup)
    (key : K) : (getEntries l key).Sublist (getEntries l' key) := by
  cases h : l.lookup key with
  | some value =>
    have h' := lookup_of_sublist hl hn h
    simp only [getEntries, h, h']
    split
    · exact (hl.filter _).append (List.Sublist.refl _)
    · exact hl
  | none =>
    have hw := sublist_without hl h
    simp only [getEntries, h]
    split
    · exact hl
    · split
      · exact hw.trans (List.sublist_append_left _ _)
      · exact hl

theorem refPut_sublist {capacity capacity' : ℤ} (hl : l.Sublist l')
    (hn : (l'.map Prod.fst).Nodup) (hfull : (l.length : ℤ) = capacity) (key : K) (value : V) :
    (refPut capacity l key value).Sublist (refPut capacity' l' key value) := by
  cases h : l.lookup key with
  | some old =>
    have h' := lookup_of_sublist hl hn h
    simp only [refPut, h, h']
    exact (hl.filter _).append (List.Sublist.refl _)
  | none =>
    have hw := sublist_without hl h
    simp only [refPut, h, hfull, if_true]
    split
    · exact ((List.tail_sublist l).trans hw).append (List.Sublist.refl _)
    · split
      · exact hl.tail.append (List.Sublist.refl _)
      · exact ((List.tail_sublist l).trans hl).append (List.Sublist.refl _)

theorem refPut_room {capacity capacity' : ℤ} (h : (l.length : ℤ) ≠ capacity)
    (h' : (l.length : ℤ) ≠ capacity') (key : K) (value : V) :
    refPut capacity l key value = refPut capacity' l key value := by
  simp [refPut, h, h']

end Lists

/-- Two caches after the same calls: the smaller one's entries are a sublist,
and the two coincide as long as the smaller one has never been full. -/
structure Included (c c' : LRUCache K V) : Prop where
  small : Good c
  large : Good c'
  capacity : c.capacity ≤ c'.capacity
  entries : c.cache.entries.Sublist c'.cache.entries
  same : c.length < c.capacity → c.cache.entries = c'.cache.entries

variable [PyValue V]

theorem Included.getValue {c c' : LRUCache K V} (h : Included c c') (key : K)
    (hv : getValue c.cache.entries key ≠ PyValue.minusOne) :
    getValue c'.cache.entries key = getValue c.cache.entries key := by
  cases hlook : c.cache.entries.lookup key with
  | none => simp [Lru.getValue, hlook] at hv
  | some value =>
    have hlook' := lookup_of_sublist h.entries c'.cache.nodup hlook
    simp only [Lru.getValue, hlook, hlook']

theorem Included.exec {c c' : LRUCache K V} (h : Included c c') (op : Op K V) :
    ∃ out d out' d', exec c op = .ok (out, d) ∧ exec c' op = .ok (out', d') ∧ Included d d' := by
  obtain ⟨hsmall, hlarge, hcap, hsub, hsame⟩ := h
  cases op with
  | get key =>
    obtain ⟨d, hget, hd, hdcap, hdlen, hdl⟩ := get_spec hsmall key
    obtain ⟨d', hget', hd', hdcap', -, hdl'⟩ := get_spec hlarge key
    refine ⟨some (Lru.getValue c.cache.entries key), d,
      some (Lru.getValue c'.cache.entries key), d',
      by simp [Lru.exec, hget, Except.map], by simp [Lru.exec, hget', Except.map],
      ⟨hd, hd', ?_, ?_, ?_⟩⟩
    · rw [hdcap, hdcap']
      exact hcap
    · rw [hdl, hdl']
      exact getEntries_sublist hsub c'.cache.nodup key
    · intro hlt
      rw [hdlen, hdcap] at hlt
      rw [hdl, hdl', hsame hlt]
  | put key value =>
    obtain ⟨d, hput, hd, hdcap, hdlen, hdl⟩ := put_spec hsmall key value
    obtain ⟨d', hput', hd', hdcap', -, hdl'⟩ := put_spec hlarge key value
    have hroom : c.length < c.capacity → d.cache.entries = d'.cache.entries := by
      intro hlt
      have hlen := hsmall.length
      rw [hdl, hdl', ← hsame hlt]
      exact refPut_room (by omega) (by omega) key value
    refine ⟨none, d, none, d', by simp [Lru.exec, hput, Except.map],
      by simp [Lru.exec, hput', Except.map], ⟨hd, hd', ?_, ?_, ?_⟩⟩
    · rw [hdcap, hdcap']
      exact hcap
    · rcases hsmall.le.lt_or_eq with hlt | hfull
      · rw [hroom hlt]
      · rw [hdl, hdl']
        exact refPut_sublist hsub c'.cache.nodup (hsmall.length ▸ hfull) key value
    · intro hlt
      exact hroom (by omega)

theorem Included.run {c c' : LRUCache K V} (ops : List (Op K V)) (h : Included c c') :
    ∃ d d', run c ops = .ok d ∧ run c' ops = .ok d' ∧ Included d d' := by
  induction ops generalizing c c' with
  | nil => exact ⟨c, c', rfl, rfl, h⟩
  | cons op ops ih =>
    obtain ⟨out, e, out', e', hexec, hexec', he⟩ := h.exec op
    obtain ⟨d, d', hd, hd', hinc⟩ := ih he
    exact ⟨d, d', by simp [Lru.run, hexec, hd], by simp [Lru.run, hexec', hd'], hinc⟩

/-- The inclusion property: after any calls, made on a cache and on one at
least as large, the smaller key order is a subsequence of the larger, the
values agree, and a hit in the smaller cache is the same hit in the larger. -/
theorem lru_inclusion (capacity capacity' : ℤ) (hpos : 1 ≤ capacity) (hle : capacity ≤ capacity')
    (ops : List (Op K V)) :
    ∃ d d' : LRUCache K V, (init capacity).bind (fun c ↦ run c ops) = .ok d ∧
      (init capacity').bind (fun c ↦ run c ops) = .ok d' ∧
      d.cache.keys.Sublist d'.cache.keys ∧
      (∀ key value, d.cache.get? key = some value → d'.cache.get? key = some value) ∧
      ∀ key value, (get d key).map Prod.fst = .ok value → value ≠ PyValue.minusOne →
        (get d' key).map Prod.fst = .ok value := by
  obtain ⟨c, hinit, hentries, hcap, hc⟩ := init_good (K := K) (V := V) hpos
  obtain ⟨c', hinit', hentries', hcap', hc'⟩ := init_good (K := K) (V := V) (hpos.trans hle)
  have hinc : Included c c' := by
    refine ⟨hc, hc', hcap.trans_le (hle.trans_eq hcap'.symm), ?_, fun _ ↦ ?_⟩
    · rw [hentries, hentries']
    · rw [hentries, hentries']
  obtain ⟨d, d', hd, hd', hrun⟩ := hinc.run ops
  refine ⟨d, d', by rw [hinit]; exact hd, by rw [hinit']; exact hd', hrun.entries.map Prod.fst,
    fun key value ↦ lookup_of_sublist hrun.entries d'.cache.nodup, ?_⟩
  intro key value hget hv
  obtain ⟨e, hspec, -⟩ := get_spec hrun.small key
  obtain ⟨e', hspec', -⟩ := get_spec hrun.large key
  rw [hspec] at hget
  have hvalue : Lru.getValue d.cache.entries key = value := Except.ok.inj hget
  rw [hspec']
  exact congrArg Except.ok ((hrun.getValue key (hvalue ▸ hv)).trans hvalue)

theorem lru_inclusion_one_two :
    ∃ d d' : LRUCache ℤ ℤ,
      (init 1).bind (fun c ↦ run c [Op.put 1 5, Op.put 2 6, Op.get 1]) = .ok d ∧
      (init 2).bind (fun c ↦ run c [Op.put 1 5, Op.put 2 6, Op.get 1]) = .ok d' ∧
      d.cache.keys.Sublist d'.cache.keys := by
  obtain ⟨d, d', hd, hd', hkeys, -⟩ :=
    lru_inclusion 1 2 (by omega) (by omega) [Op.put (1 : ℤ) (5 : ℤ), Op.put 2 6, Op.get 1]
  exact ⟨d, d', hd, hd', hkeys⟩

end LowLevel.Interview.LruInclusion
