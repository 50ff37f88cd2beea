import LowLevel.Interview.Logparse
import LowLevel.Basis.Ranking
import Mathlib.Data.List.Lex
import Mathlib.Order.Fin.Basic

namespace LowLevel.Interview.LogparseAggregates

open Basis.PyStr Basis.OrderedDict Basis.SortBy Basis.Ranking Logparse

section Source

variable {K : Type*} [LinearOrder K]

/-- The loop of both aggregates over a `defaultdict(int)`. A parsed line is a
dict with keys, so that only `None` is skipped. -/
def countLines (key : Entry → K) (lines : List Str) : Dict K ℕ :=
  lines.foldl (fun counts line ↦
    match parseLine line with
    | none => counts
    | some dic => bump counts (key dic)) Dict.empty

def countByStatus (lines : List Str) : Dict ℤ ℕ := countLines Entry.status lines

def topPaths (lines : List Str) (n : ℤ) : List (Str × ℕ) :=
  if n ≤ 0 then []
  else
    let pathCount := countLines Entry.path lines
    sliceTo n (sortBy (fun x ↦ toLex (-(x.2 : ℤ), x.1)) pathCount.entries)

end Source

/-- The entries of the lines that are not skipped. -/
def accepted (lines : List Str) : List Entry := lines.filterMap parseLine

def accepts (line : Str) : Bool := (parseLine line).isSome

def paths (lines : List Str) : List Str := (accepted lines).map Entry.path

/-- How many of the lines are accepted with this path. -/
def hits (lines : List Str) (path : Str) : ℕ :=
  lines.countP (fun line ↦ (parseLine line).map Entry.path = some path)

def statuses (lines : List Str) : List ℤ := (accepted lines).map Entry.status

variable {K : Type*} [LinearOrder K] {xs ys lines : List Str} {n m : ℤ}

theorem countLines_eq (key : Entry → K) (lines : List Str) :
    countLines key lines = tally ((accepted lines).map key) := by
  rw [countLines, tally, accepted, List.foldl_map, List.foldl_filterMap]
  congr 1
  funext counts line
  cases parseLine line <;> rfl

theorem countP_paths (lines : List Str) (path : Str) :
    (paths lines).countP (fun x ↦ x = path) = hits lines path := by
  rw [paths, accepted, List.countP_map, List.countP_filterMap, hits]
  apply List.countP_congr
  intro line _
  cases parseLine line <;> simp

theorem accepted_filter (lines : List Str) : accepted (lines.filter accepts) = accepted lines := by
  rw [accepted, accepted, List.filterMap_filter]
  apply List.filterMap_congr
  intro line _
  rw [accepts]
  cases parseLine line <;> rfl

theorem length_accepted (lines : List Str) :
    (accepted lines).length = (lines.filter accepts).length := by
  rw [accepted, List.length_filterMap_eq_countP, List.countP_eq_length_filter]
  rfl

theorem topPaths_ranks (lines : List Str) :
    ∃ r, Ranks (paths lines) r ∧ ∀ n, topPaths lines n = r.take n.toNat := by
  refine ⟨_, (tally_counted (paths lines)).ranks, fun n ↦ ?_⟩
  rw [topPaths, countLines_eq, ← paths]
  split_ifs with hn
  · rw [Int.toNat_of_nonpos hn, List.take_zero]
  · exact sliceTo_eq_take_iff.mpr (.inl (by omega))

/-- `top_paths` takes the first `n` of the one ranking of the accepted paths. -/
theorem top_paths_ranked (lines : List Str) (n : ℤ) :
    (topPaths lines n).length = min n.toNat (paths lines).dedup.length ∧
      (∀ e ∈ topPaths lines n, e.1 ∈ paths lines ∧ e.2 = hits lines e.1) ∧
      (topPaths lines n).Pairwise Before ∧
      (∀ path ∈ paths lines, path ∉ (topPaths lines n).map Prod.fst →
        ∀ e ∈ topPaths lines n, Before e (path, hits lines path)) ∧
      (∀ lines', lines'.Perm lines → topPaths lines' n = topPaths lines n) ∧
      ∀ m, n ≤ m → topPaths lines n <+: topPaths lines m := by
  obtain ⟨r, hr, htop⟩ := topPaths_ranks lines
  have hcounted : Counted (paths lines) r := hr.counted
  have hmem : ∀ e, e ∈ r ↔ e.1 ∈ paths lines ∧ e.2 = hits lines e.1 := by
    intro e
    rw [hcounted.mem_countP, countP_paths]
  refine ⟨?_, ?_, ?_, ?_, ?_, ?_⟩
  · rw [htop, List.length_take, hcounted.length]
  · intro e he
    rw [htop] at he
    exact (hmem e).mp (List.mem_of_mem_take he)
  · rw [htop]
    exact hr.ordered.sublist (List.take_sublist _ _)
  · intro path hpath hout e he
    rw [htop] at hout he
    have hin : (path, hits lines path) ∈ r := (hmem _).mpr ⟨hpath, rfl⟩
    have hordered := hr.ordered
    rw [← List.take_append_drop n.toNat r] at hin hordered
    rcases List.mem_append.mp hin with hin | hin
    · exact absurd (List.mem_map_of_mem hin) hout
    · exact (List.pairwise_append.mp hordered).2.2 e he _ hin
  · intro lines' hperm
    obtain ⟨r', hr', htop'⟩ := topPaths_ranks lines'
    have hpaths : (paths lines').Perm (paths lines) := (hperm.filterMap parseLine).map Entry.path
    rw [htop, htop', (hr'.of_perm hpaths).unique hr]
  · intro m h
    rw [htop, htop]
    exact List.take_prefix_take_left (Int.toNat_le_toNat h)

/-- The two aggregates count the accepted lines, whatever stands between them
and in whatever order. -/
theorem aggregates_agree :
    (∀ (xs ys : List Str) (status : ℤ), (countByStatus (xs ++ ys)).get? status =
        Option.merge (· + ·) ((countByStatus xs).get? status) ((countByStatus ys).get? status)) ∧
      (∀ xs ys : List Str, ys.Perm xs → ∀ status,
        (countByStatus ys).get? status = (countByStatus xs).get? status) ∧
      (∀ xs ys : List Str, ys.filter accepts = xs.filter accepts →
        countByStatus ys = countByStatus xs) ∧
      ∀ lines : List Str,
        ((countByStatus lines).entries.map Prod.snd).sum = (lines.filter accepts).length ∧
          ∀ n : ℤ, 1 ≤ n → (paths lines).dedup.length ≤ n →
            ((topPaths lines n).map Prod.snd).sum = (lines.filter accepts).length := by
  have hcounted : ∀ lines : List Str,
      Counted (statuses lines) (countByStatus lines).entries := by
    intro lines
    rw [countByStatus, countLines_eq]
    exact tally_counted (statuses lines)
  refine ⟨?_, ?_, ?_, ?_⟩
  · intro xs ys status
    have happend : statuses (xs ++ ys) = statuses xs ++ statuses ys := by
      rw [statuses, accepted, List.filterMap_append, List.map_append]
      rfl
    have hboth := hcounted (xs ++ ys)
    rw [happend] at hboth
    exact hboth.lookup_append (hcounted xs) (hcounted ys) status
  · intro xs ys hperm status
    have hstatuses : (statuses ys).Perm (statuses xs) :=
      (hperm.filterMap parseLine).map Entry.status
    exact (((hcounted ys).of_perm hstatuses).lookup status).trans
      ((hcounted xs).lookup status).symm
  · intro xs ys h
    rw [countByStatus, countByStatus, countLines_eq, countLines_eq, ← accepted_filter ys, h,
      accepted_filter xs]
  · intro lines
    rw [← length_accepted]
    constructor
    · rw [(hcounted lines).sum, statuses, List.length_map]
    · intro n _ hn
      obtain ⟨r, hr, htop⟩ := topPaths_ranks lines
      have hpaths : Counted (paths lines) r := hr.counted
      have hlength := hpaths.length
      rw [htop, List.take_of_length_le (by omega), hpaths.sum, paths, List.length_map]

end LowLevel.Interview.LogparseAggregates
