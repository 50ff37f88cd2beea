import LowLevel.Basis.Paging
import LowLevel.Interview.LruHistory

namespace LowLevel.Interview.LruCompetitive

open Basis.OrderedDict Basis.Paging Basis.Recency Lru LruHistory

variable {K V : Type*} [DecidableEq K] [PyValue V]
variable {c : LRUCache K V} {h : ℕ}

/-- The evicting branch of `put`. -/
def evictsAt (c : LRUCache K V) : Op K V → ℕ
  | .get _ => 0
  | .put key _ => if key ∉ c.cache.keys ∧ c.length = c.capacity then 1 else 0

/-- The key that a call makes the most recent one. -/
def usesAt (c : LRUCache K V) : Op K V → List K
  | .get key => if ((c.cache.get? key).any PyValue.truthy) then [key] else []
  | .put key _ => [key]

/-- The evictions of a run, and the keys used. -/
def account (c : LRUCache K V) : List (Op K V) → Except PyError (ℕ × List K)
  | [] => .ok (0, [])
  | op :: ops =>
    match exec c op with
    | .error e => .error e
    | .ok (_, c') => (account c' ops).map (Prod.map (evictsAt c op + ·) (usesAt c op ++ ·))

omit [PyValue V] in
theorem keys_put {key : K} (hc : Good c) (value : V) :
    (refPut c.capacity c.cache.entries key value).map Prod.fst =
      serve c.capacity.toNat c.cache.keys key := by
  have hlength := hc.length
  have hpos := hc.pos
  have hcount : c.cache.keys.length = c.cache.entries.length := List.length_map _
  rw [refPut, serve]
  cases hlook : c.cache.entries.lookup key with
  | some old =>
    have hmem : key ∈ c.cache.keys := (c.cache.mem_keys_iff key).mpr ⟨old, hlook⟩
    rw [if_pos hmem, List.map_append, keys_without]
    rfl
  | none =>
    have hnot : key ∉ c.cache.keys := (c.cache.get?_eq_none key).mp hlook
    rw [if_neg hnot]
    dsimp only
    split_ifs with hfull hsize hsize
    · rw [List.map_append, List.map_tail]
      rfl
    · omega
    · omega
    · rw [List.map_append]
      rfl

theorem keys_get (c : LRUCache K V) (key : K) : (getEntries c.cache.entries key).map Prod.fst =
    if (c.cache.get? key).any PyValue.truthy then serve c.capacity.toNat c.cache.keys key
    else c.cache.keys := by
  rw [getEntries, Dict.get?]
  cases hlook : c.cache.entries.lookup key with
  | none => rfl
  | some value =>
    have hmem : key ∈ c.cache.keys := (c.cache.mem_keys_iff key).mpr ⟨value, hlook⟩
    rw [Option.any_some, serve, if_pos hmem]
    dsimp only
    split_ifs
    · rw [List.map_append, keys_without]
      rfl
    · rfl

omit [PyValue V] in
theorem evictsAt_put {key : K} (hc : Good c) (value : V) :
    evictsAt c (.put key value) = evicts c.capacity.toNat c.cache.keys key := by
  have hlength := hc.length
  have hpos := hc.pos
  have hcount : c.cache.keys.length = c.cache.entries.length := List.length_map _
  rw [evictsAt, evicts]
  congr 1
  rw [hcount]
  exact propext (and_congr Iff.rfl (by omega))

theorem account_eq (hc : Good c) (ops : List (Op K V)) :
    ∃ us, account c ops = .ok (evictions c.capacity.toNat c.cache.keys us, us) := by
  induction ops generalizing c with
  | nil => exact ⟨[], rfl⟩
  | cons op ops ih =>
    cases op with
    | put key value =>
      obtain ⟨c', hput, hgood, hcap, -, hentries⟩ := put_spec hc key value
      obtain ⟨us, hrest⟩ := ih hgood
      have hkeys : c'.cache.keys = serve c.capacity.toNat c.cache.keys key := by
        rw [Dict.keys, hentries, keys_put hc]
      refine ⟨key :: us, ?_⟩
      rw [account, exec, hput, evictions, ← evictsAt_put hc value, ← hkeys, ← hcap]
      dsimp only [Except.map]
      rw [hrest]
      rfl
    | get key =>
      obtain ⟨c', hget, hgood, hcap, -, hentries⟩ := get_spec hc key
      obtain ⟨us, hrest⟩ := ih hgood
      have hkeys : c'.cache.keys = _ :=
        (congrArg (List.map Prod.fst) hentries).trans (keys_get c key)
      rw [account, exec, hget]
      dsimp only [Except.map]
      rw [hrest, usesAt, evictsAt]
      by_cases hfound : (c.cache.get? key).any PyValue.truthy
      · have hnone : evicts c.capacity.toNat c.cache.keys key = 0 := by
          refine if_neg (fun hboth ↦ hboth.1 ?_)
          cases hget : c.cache.get? key with
          | none => simp [hget] at hfound
          | some value => exact (c.cache.mem_keys_iff key).mpr ⟨value, hget⟩
        rw [if_pos hfound] at hkeys ⊢
        refine ⟨key :: us, ?_⟩
        rw [evictions, hnone, ← hkeys, hcap]
        rfl
      · rw [if_neg hfound] at hkeys ⊢
        refine ⟨us, ?_⟩
        rw [← hkeys, ← hcap]
        exact congrArg (fun n ↦ Except.ok (n, us)) (Nat.zero_add _)

/-- No policy with `h` places, even one that knows the whole sequence of uses,
can load so few keys that the cache evicts more than `capacity / (capacity + 1 - h)`
times as many. -/
theorem lru_competitive (capacity : ℤ) (hcap : 1 ≤ capacity) (ops : List (Op K V)) :
    ∃ n us, (init capacity).bind (fun c ↦ account c ops) = .ok (n, us) ∧
      ∀ h Ss, Schedule h ∅ us Ss → (capacity.toNat + 1 - h) * n ≤ capacity.toNat * loads ∅ Ss := by
  obtain ⟨c, hinit, hentries, hcapacity, hgood⟩ := init_good (K := K) (V := V) hcap
  obtain ⟨us, haccount⟩ := account_eq hgood ops
  have hkeys : c.cache.keys = [] := by rw [Dict.keys, hentries, List.map_nil]
  rw [hinit]
  refine ⟨_, us, haccount, fun h Ss hs ↦ ?_⟩
  rw [hkeys, hcapacity]
  exact competitive (by omega) hs

theorem lru_competitive_two :
    (init 2).bind (fun c : LRUCache ℤ ℤ ↦ account c [.put 1 5, .put 2 6, .put 3 7]) =
        .ok (1, [1, 2, 3]) ∧
      (2 + 1 - 1) * 1 ≤ 2 * loads ∅ [{1}, {2}, ({3} : Finset ℤ)] := by
  have hrun : (init 2).bind (fun c : LRUCache ℤ ℤ ↦ account c [.put 1 5, .put 2 6, .put 3 7]) =
      .ok (1, [1, 2, 3]) := rfl
  obtain ⟨n, us, hsame, hbound⟩ :=
    lru_competitive (K := ℤ) (V := ℤ) 2 (by decide) [.put 1 5, .put 2 6, .put 3 7]
  obtain ⟨rfl, rfl⟩ := Prod.mk.inj (Except.ok.inj (hrun.symm.trans hsame))
  refine ⟨hrun, hbound 1 _ ?_⟩
  exact .cons (by decide) (by decide) (.cons (by decide) (by decide)
    (.cons (by decide) (by decide) (.nil _)))

end LowLevel.Interview.LruCompetitive
