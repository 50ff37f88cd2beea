import Mathlib.Data.List.Nodup
import Mathlib.Data.List.Lookmap

namespace LowLevel.Basis.OrderedDict

variable {K V : Type*}

/-- A dictionary that remembers insertion order. No key occurs twice. -/
@[ext] structure Dict (K V : Type*) where
  entries : List (K × V)
  nodup : (entries.map Prod.fst).Nodup

namespace Dict

def empty : Dict K V := ⟨[], List.nodup_nil⟩

def keys (d : Dict K V) : List K := d.entries.map Prod.fst

theorem nodup_append_new {l : List (K × V)} {key : K} (h : (l.map Prod.fst).Nodup)
    (hk : key ∉ l.map Prod.fst) (value : V) : ((l ++ [(key, value)]).map Prod.fst).Nodup := by
  rw [List.map_append, List.nodup_append]
  refine ⟨h, List.nodup_singleton _, ?_⟩
  intro a ha b hb hab
  have hkey : b = key := List.mem_singleton.mp hb
  exact hk (hkey ▸ hab ▸ ha)

variable [DecidableEq K]

def get? (d : Dict K V) (key : K) : Option V := d.entries.lookup key

def without (l : List (K × V)) (key : K) : List (K × V) := l.filter (fun e ↦ e.1 ≠ key)

theorem without_sublist (l : List (K × V)) (key : K) : (without l key).Sublist l :=
  List.filter_sublist

theorem without_of_notMem {l : List (K × V)} {key : K} (h : key ∉ l.map Prod.fst) :
    without l key = l := by
  refine List.filter_eq_self.mpr (fun e he ↦ ?_)
  have hne : e.1 ≠ key := fun heq ↦ h (heq ▸ List.mem_map_of_mem he)
  simpa using hne

theorem notMem_without (l : List (K × V)) (key : K) : key ∉ (without l key).map Prod.fst := by
  simp [without]

def erase (d : Dict K V) (key : K) : Dict K V where
  entries := without d.entries key
  nodup := d.nodup.sublist ((without_sublist d.entries key).map Prod.fst)

/-- Assignment to a present key keeps its place, to an absent one goes last. -/
def set (d : Dict K V) (key : K) (value : V) : Dict K V :=
  if hk : key ∈ d.keys then
    ⟨d.entries.map (fun e ↦ if e.1 = key then (key, value) else e), by
      have hkeys : (d.entries.map (fun e ↦ if e.1 = key then (key, value) else e)).map Prod.fst =
          d.entries.map Prod.fst := by
        rw [List.map_map]
        refine List.map_congr_left (fun e _ ↦ ?_)
        by_cases he : e.1 = key <;> simp [he]
      exact hkeys ▸ d.nodup⟩
  else ⟨d.entries ++ [(key, value)], nodup_append_new d.nodup hk value⟩

def pop? (d : Dict K V) (key : K) : Option (V × Dict K V) :=
  (d.get? key).map (fun value ↦ (value, d.erase key))

def next? (d : Dict K V) : Option K := d.keys.head?

theorem mem_keys_iff (d : Dict K V) (key : K) :
    key ∈ d.keys ↔ ∃ value, d.get? key = some value := by
  rw [← Option.isSome_iff_exists, get?, List.lookup_isSome_iff, keys, List.mem_map]
  constructor
  · intro hall
    obtain ⟨e, he, rfl⟩ := hall
    exact ⟨e, he, by simp⟩
  · intro hall
    obtain ⟨e, he, hk⟩ := hall
    exact ⟨e, he, (beq_iff_eq.mp hk).symm⟩

theorem mem_of_lookup {l : List (K × V)} {key : K} {value : V} (h : l.lookup key = some value) :
    (key, value) ∈ l := by
  obtain ⟨l₁, l₂, rfl, -⟩ := List.lookup_eq_some_iff.mp h
  simp

theorem get?_eq_some (d : Dict K V) (key : K) (value : V) :
    d.get? key = some value ↔ (key, value) ∈ d.entries := by
  obtain ⟨l, hl⟩ := d
  change l.lookup key = some value ↔ (key, value) ∈ l
  induction l with
  | nil => simp
  | cons e l ih =>
    obtain ⟨k, v⟩ := e
    obtain ⟨hk, hl⟩ := List.nodup_cons.mp hl
    rcases eq_or_ne key k with heq | hne
    · subst heq
      have hnot : (key, value) ∉ l := fun hmem ↦ hk (List.mem_map.mpr ⟨_, hmem, rfl⟩)
      simp [hnot, eq_comm]
    · have hb : (key == k) = false := by simpa using hne
      simp [List.lookup_cons, hb, ih hl, hne]

theorem get?_eq_none (d : Dict K V) (key : K) : d.get? key = none ↔ key ∉ d.keys := by
  rw [mem_keys_iff]
  cases d.get? key <;> simp

theorem length_without {l : List (K × V)} (h : (l.map Prod.fst).Nodup) {key : K}
    (hk : key ∈ l.map Prod.fst) : (without l key).length + 1 = l.length := by
  induction l with
  | nil => simp at hk
  | cons e l ih =>
    obtain ⟨hnot, hl⟩ := List.nodup_cons.mp h
    rcases eq_or_ne e.1 key with heq | hne
    · subst heq
      have hl' := without_of_notMem hnot
      simp only [without, ne_eq, not_true_eq_false, decide_false, List.filter_cons,
        Bool.false_eq_true, if_false, List.length_cons] at hl' ⊢
      rw [hl']
    · have hmem : key ∈ l.map Prod.fst := by
        rcases List.mem_cons.mp hk with heq | hmem
        · exact absurd heq.symm hne
        · exact hmem
      have hih := ih hl hmem
      simp only [without, ne_eq, hne, not_false_eq_true, decide_true, List.filter_cons,
        if_true, List.length_cons] at hih ⊢
      rw [hih]

theorem without_head {e : K × V} {l : List (K × V)} (h : ((e :: l).map Prod.fst).Nodup) :
    without (e :: l) e.1 = l := by
  obtain ⟨hnot, -⟩ := List.nodup_cons.mp h
  have hl := without_of_notMem hnot
  rw [without] at hl ⊢
  rw [List.filter_cons, hl]
  simp

theorem notMem_erase {d : Dict K V} {key : K} (h : key ∉ d.keys) (other : K) :
    key ∉ (d.erase other).keys := by
  intro hmem
  exact h (((without_sublist d.entries other).map Prod.fst).subset hmem)

@[simp] theorem erase_entries (d : Dict K V) (key : K) :
    (d.erase key).entries = without d.entries key := rfl

theorem set_new (d : Dict K V) {key : K} (h : key ∉ d.keys) (value : V) :
    (d.set key value).entries = d.entries ++ [(key, value)] := by
  simp [set, h]

theorem mem_set (d : Dict K V) (key : K) (value : V) (e : K × V) :
    e ∈ (d.set key value).entries ↔ e = (key, value) ∨ e.1 ≠ key ∧ e ∈ d.entries := by
  rcases Decidable.em (key ∈ d.keys) with hk | hk
  · have hentries : (d.set key value).entries =
        d.entries.map (fun e ↦ if e.1 = key then (key, value) else e) := by simp [set, hk]
    rw [hentries, List.mem_map]
    constructor
    · intro hex
      obtain ⟨e', he', rfl⟩ := hex
      rcases eq_or_ne e'.1 key with heq | hne
      · exact .inl (if_pos heq)
      · rw [if_neg hne]
        exact .inr ⟨hne, he'⟩
    · intro hor
      rcases hor with rfl | ⟨hne, he⟩
      · obtain ⟨e', he', heq⟩ := List.mem_map.mp hk
        exact ⟨e', he', if_pos heq⟩
      · exact ⟨e, he, if_neg hne⟩
  · rw [set_new d hk, List.mem_append, List.mem_singleton, or_comm]
    apply or_congr_right
    constructor
    · intro he
      exact ⟨fun heq ↦ hk (heq ▸ List.mem_map_of_mem he), he⟩
    · exact fun h ↦ h.2

theorem get?_set (d : Dict K V) (key : K) (value : V) (other : K) :
    (d.set key value).get? other = if other = key then some value else d.get? other := by
  apply Option.ext
  intro v
  rw [get?_eq_some, mem_set]
  rcases eq_or_ne other key with rfl | hne
  · simp [eq_comm]
  · rw [if_neg hne, get?_eq_some]
    simp [hne]

theorem mem_keys_set (d : Dict K V) (key : K) (value : V) (other : K) :
    other ∈ (d.set key value).keys ↔ other = key ∨ other ∈ d.keys := by
  rw [mem_keys_iff, mem_keys_iff, get?_set]
  rcases eq_or_ne other key with heq | hne
  · simp [heq]
  · simp [hne]

theorem get?_erase (d : Dict K V) (key other : K) :
    (d.erase key).get? other = if other = key then none else d.get? other := by
  apply Option.ext
  intro v
  rw [get?_eq_some, erase_entries, without, List.mem_filter]
  rcases eq_or_ne other key with rfl | hne
  · simp
  · rw [if_neg hne, get?_eq_some]
    simp [hne]

theorem mem_keys_erase (d : Dict K V) (key other : K) :
    other ∈ (d.erase key).keys ↔ other ∈ d.keys ∧ other ≠ key := by
  rw [mem_keys_iff, mem_keys_iff, get?_erase]
  rcases eq_or_ne other key with heq | hne
  · simp [heq]
  · simp [hne]

theorem erase_set (d : Dict K V) (key : K) (value : V) :
    ((d.erase key).set key value).entries = without d.entries key ++ [(key, value)] :=
  set_new _ (notMem_without d.entries key) value

theorem pop?_of_get? {d : Dict K V} {key : K} {value : V} (h : d.get? key = some value) :
    d.pop? key = some (value, d.erase key) := by
  simp [pop?, h]

end Dict
end LowLevel.Basis.OrderedDict
