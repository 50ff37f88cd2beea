import LowLevel.Interview.Dupes
import LowLevel.Basis.Ranking

namespace LowLevel.Interview.DupesCount

open Basis.OrderedDict Basis.Ranking Basis.Repeats Dupes

/-- A Go map is modelled with an order of its keys that nothing reads. A count
is at most the length of the slice and cannot overflow. -/
def countStep (counts : Dict ℤ ℕ) (item : ℤ) : Dict ℤ ℕ :=
  match counts.get? item with
  | none => counts.set item 1
  | some value => counts.set item (value + 1)

def countOccurrences (items : Slice) : Dict ℤ ℕ := (items.getD []).foldl countStep Dict.empty

theorem countStep_eq (counts : Dict ℤ ℕ) (item : ℤ) : countStep counts item = bump counts item := by
  unfold countStep
  rw [bump, occurrences]
  cases counts.get? item <;> rfl

theorem countOccurrences_counted (items : Slice) :
    Counted (items.getD []) (countOccurrences items).entries := by
  have htally : countOccurrences items = tally (items.getD []) := by
    rw [countOccurrences, tally]
    congr 1
    funext counts item
    exact countStep_eq counts item
  rw [htally]
  exact tally_counted (items.getD [])

/-- `FindDuplicates` and `CountOccurrences` agree on what occurs twice, and the
counts are those of a multiset. -/
theorem counts_agree (items : Slice) :
    (∀ range, ∃ res, findDuplicates range items = (items, some res) ∧ res.Nodup ∧
        ∀ v, v ∈ res ↔ 2 ≤ occurrences (countOccurrences items) v) ∧
      (∀ v, v ∈ (countOccurrences items).keys ↔ v ∈ items.getD []) ∧
      ((countOccurrences items).entries.map Prod.snd).sum = (items.getD []).length ∧
      ∀ (more : Slice) (v : ℤ),
        (countOccurrences (some (items.getD [] ++ more.getD []))).get? v =
          Option.merge (· + ·) ((countOccurrences items).get? v)
            ((countOccurrences more).get? v) := by
  have hcounted := countOccurrences_counted items
  refine ⟨?_, ?_, hcounted.sum, ?_⟩
  · intro range
    have hperm := order_perm range (items.getD [])
    refine ⟨_, findDuplicates_eq range items, hperm.nodup_iff.mpr (firstRepeats_nodup _), ?_⟩
    intro v
    have hcount : occurrences (countOccurrences items) v = (items.getD []).count v :=
      hcounted.lookup_count v
    rw [hperm.mem_iff, mem_firstRepeats, hcount]
  · intro v
    rw [Dict.mem_keys_iff]
    have hlookup : (countOccurrences items).get? v = _ := hcounted.lookup v
    rw [hlookup]
    split_ifs with hmem <;> simp [hmem]
  · intro more v
    exact (countOccurrences_counted (some (items.getD [] ++ more.getD []))).lookup_append hcounted
      (countOccurrences_counted more) v

end LowLevel.Interview.DupesCount
