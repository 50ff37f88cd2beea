import LowLevel.Interview.Lru

namespace LowLevel.Interview.LruSize

open Basis.OrderedDict Lru

variable {K V : Type*} {c c' : LRUCache K V} {key : K}

/-- The counter is the number of keys, and there is room for them. -/
structure InStep (capacity : ℤ) (c : LRUCache K V) : Prop where
  length : c.length = c.cache.keys.length
  le : c.length ≤ c.capacity
  capacity : c.capacity = capacity

theorem inStep_of_good (h : Good c) : InStep c.capacity c :=
  ⟨by rw [h.length, Dict.keys, List.length_map], h.le, rfl⟩

variable [DecidableEq K]

/-- A `get` keeps the keys, their values and the counter. -/
structure Kept (c c' : LRUCache K V) : Prop where
  keys : ∀ k, k ∈ c'.cache.keys ↔ k ∈ c.cache.keys
  values : ∀ k, c'.cache.get? k = c.cache.get? k
  length : c'.length = c.length

/-- A `put` adds its key. Another one goes when the key is new and the cache full. -/
structure Added (c : LRUCache K V) (key : K) (c' : LRUCache K V) : Prop where
  length : c.length ≤ c'.length
  keys : ∃ gone : Option K, (gone.isSome = true ↔ key ∉ c.cache.keys ∧ c.length = c.capacity) ∧
    (∀ k, gone = some k → k ∈ c.cache.keys ∧ k ≠ key) ∧
    ∀ k, k ∈ c'.cache.keys ↔ k = key ∨ k ∈ c.cache.keys ∧ gone ≠ some k

theorem touch_get? {d : Dict K V} {value : V} (h : d.get? key = some value) (k : K) :
    ((d.erase key).set key value).get? k = d.get? k := by
  rw [Dict.get?_set, Dict.get?_erase]
  split_ifs with heq
  · rw [heq, h]
  · rfl

theorem get_kept [PyValue V] (c : LRUCache K V) (key : K) :
    ∃ v c', get c key = .ok (v, c') ∧ Kept c c' := by
  have hsame : Kept c c := ⟨fun _ ↦ Iff.rfl, fun _ ↦ rfl, rfl⟩
  cases hget : c.cache.get? key with
  | none => exact ⟨_, c, get_miss hget, hsame⟩
  | some value =>
    cases ht : PyValue.truthy value with
    | false => exact ⟨_, c, get_falsy hget ht, hsame⟩
    | true =>
      have hvalues := touch_get? hget
      refine ⟨value, _, get_hit hget ht, fun k ↦ ?_, hvalues, rfl⟩
      rw [Dict.mem_keys_iff, Dict.mem_keys_iff, hvalues]

theorem put_added (h : Good c) (key : K) (value : V) :
    ∃ c', put c key value = .ok c' ∧ Added c key c' := by
  obtain ⟨c', hput, -, -, hlength, -⟩ := put_spec h key value
  refine ⟨c', hput, hlength, ?_⟩
  by_cases hmem : key ∈ c.cache.keys
  · obtain ⟨old, hget⟩ := (c.cache.mem_keys_iff key).mp hmem
    have hput' : put c key value = .ok { c with cache := (c.cache.erase key).set key value } := by
      simp [put, hmem, Dict.pop?_of_get? hget]
    rw [hput] at hput'
    cases hput'
    refine ⟨none, by simp [hmem], by simp, fun k ↦ ?_⟩
    rw [Dict.mem_keys_set, Dict.mem_keys_erase]
    by_cases heq : k = key <;> simp [heq]
  · by_cases hfull : c.length = c.capacity
    · obtain ⟨e, l, hentries, hput', -⟩ := put_full h hfull hmem value
      rw [hput] at hput'
      cases hput'
      have hgone : e.1 ∈ c.cache.keys := by simp [Dict.keys, hentries]
      refine ⟨some e.1, by simp [hmem, hfull], ?_, fun k ↦ ?_⟩
      · intro k hk
        cases hk
        exact ⟨hgone, fun heq ↦ hmem (heq ▸ hgone)⟩
      · rw [Dict.mem_keys_set, Dict.mem_keys_erase, Ne, Ne, Option.some_inj, eq_comm (a := e.1)]
    · have hput' : put c key value =
          .ok { c with length := c.length + 1, cache := c.cache.set key value } := by
        simp [put, hmem, hfull]
      rw [hput] at hput'
      cases hput'
      refine ⟨none, by simp [hfull], by simp, fun k ↦ ?_⟩
      rw [Dict.mem_keys_set]
      simp

variable [PyValue V]

theorem exec_good (h : Good c) (op : Op K V) :
    ∃ out c', exec c op = .ok (out, c') ∧ Good c' ∧ c'.capacity = c.capacity ∧
      c.length ≤ c'.length := by
  cases op with
  | get key =>
    obtain ⟨c', hget, hgood, hcapacity, hlength, -⟩ := get_spec h key
    exact ⟨_, c', by rw [exec, hget]; rfl, hgood, hcapacity, hlength.ge⟩
  | put key value =>
    obtain ⟨c', hput, hgood, hcapacity, hlength, -⟩ := put_spec h key value
    exact ⟨_, c', by rw [exec, hput]; rfl, hgood, hcapacity, hlength⟩

theorem run_good (h : Good c) (ops : List (Op K V)) :
    ∃ c', run c ops = .ok c' ∧ Good c' ∧ c'.capacity = c.capacity ∧ c.length ≤ c'.length := by
  induction ops generalizing c with
  | nil => exact ⟨c, rfl, h, rfl, le_rfl⟩
  | cons op ops ih =>
    obtain ⟨out, c₁, hexec, hgood₁, hcapacity₁, hlength₁⟩ := exec_good h op
    obtain ⟨c', hrun, hgood, hcapacity, hlength⟩ := ih hgood₁
    refine ⟨c', ?_, hgood, hcapacity.trans hcapacity₁, hlength₁.trans hlength⟩
    rw [run, hexec]
    exact hrun

/-- Every run of calls succeeds, with the counter in step with the keys. From
any state reached no call takes the counter back, a `get` changes no entry,
and a `put` adds its key and drops one other at most. -/
theorem lru_size_in_step (capacity : ℤ) (hcap : 1 ≤ capacity) (ops : List (Op K V)) :
    ∃ c, (init capacity).bind (fun c ↦ run c ops) = .ok c ∧ InStep capacity c ∧
      (∀ more, ∃ c', run c more = .ok c' ∧ c.length ≤ c'.length) ∧
      (∀ key, ∃ v c', get c key = .ok (v, c') ∧ Kept c c') ∧
      ∀ key value, ∃ c', put c key value = .ok c' ∧ Added c key c' := by
  obtain ⟨c₀, hinit, -, hcapacity₀, hgood₀⟩ := init_good (K := K) (V := V) hcap
  obtain ⟨c, hrun, hgood, hcapacity, -⟩ := run_good hgood₀ ops
  have hsame : c.capacity = capacity := hcapacity.trans hcapacity₀
  refine ⟨c, by rw [hinit]; exact hrun, hsame ▸ inStep_of_good hgood, fun more ↦ ?_, get_kept c,
    put_added hgood⟩
  obtain ⟨c', hmore, -, -, hlength⟩ := run_good hgood more
  exact ⟨c', hmore, hlength⟩

theorem lru_size_two :
    ∃ c, (init 1).bind (fun c ↦ run c [Op.put 1 5, Op.put 2 0, Op.get (2 : ℤ)]) = .ok c ∧
      InStep (V := ℤ) 1 c := by
  obtain ⟨c, hrun, hstep, -⟩ := lru_size_in_step 1 (by omega)
    [Op.put (1 : ℤ) (5 : ℤ), Op.put 2 0, Op.get 2]
  exact ⟨c, hrun, hstep⟩

end LowLevel.Interview.LruSize
