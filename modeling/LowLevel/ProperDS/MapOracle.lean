import LowLevel.Basis.SwapRemove
import Mathlib.Algebra.Group.Int.Defs
import Mathlib.Data.Set.Card

namespace LowLevel.ProperDS.MapOracle

open Function Basis.AddressSpace Basis.Loop Basis.StaticArray Basis.SwapRemove

/-- The string in a `char[16]`, and the value. -/
structure OraPair where
  key : List UInt8
  value : ℤ

/-- The flat array of the differential tests of both hash tables. -/
structure Ora where
  opairs : List OraPair
  olen : ℕ

namespace Ora

def find (s : Ora) (key : List UInt8) : Except Stop (Option ℕ) :=
  scan (fun p ↦ p.key == key) s.opairs s.olen

/-- `snprintf` keeps the first 15 bytes of the key. -/
def put (s : Ora) (key : List UInt8) (value : ℤ) : Except Stop Ora := do
  match ← s.find key with
  | some i =>
    let p ← read s.opairs i
    return { s with opairs := ← assign s.opairs i { p with value := value } }
  | none =>
    let opairs ← assign s.opairs s.olen ⟨key.take 15, value⟩
    return ⟨opairs, s.olen + 1⟩

def get (s : Ora) (key : List UInt8) : Except Stop (Option ℤ) := do
  match ← s.find key with
  | some i => return some (← read s.opairs i).value
  | none => return none

def delete (s : Ora) (key : List UInt8) : Except Stop (Bool × Ora) := do
  match ← s.find key with
  | some i =>
    let olen := s.olen - 1
    let opairs ← (read s.opairs olen).bind (assign s.opairs i)
    return (true, ⟨opairs, olen⟩)
  | none => return (false, s)

end Ora

/-- A string that a `char[16]` holds. -/
abbrev Key := {key : List UInt8 // 0 ∉ key ∧ key.length < 16}

inductive Op
  | put (key : Key) (value : ℤ)
  | get (key : Key)
  | delete (key : Key)

inductive Answer
  | put
  | get (value : Option ℤ)
  | delete (was : Bool)

def Ora.exec (s : Ora) : Op → Except Stop (Answer × Ora)
  | .put key value => (s.put key.val value).map (fun s ↦ (.put, s))
  | .get key => (s.get key.val).map (fun v ↦ (.get v, s))
  | .delete key => (s.delete key.val).map (fun r ↦ (.delete r.1, r.2))

/-- The answers, each with the number of pairs after it. -/
def Ora.trace (s : Ora) : List Op → Except Stop (List (Answer × ℕ))
  | [] => .ok []
  | op :: ops => do
    let (answer, s) ← s.exec op
    return (answer, s.olen) :: (← s.trace ops)

noncomputable section Map

def keyCount (M : Key → Option ℤ) : ℕ := {key | M key ≠ none}.ncard

/-- A map of at most `cap` keys. Only a new key for a full map has no answer. -/
def mapExec (cap : ℕ) (M : Key → Option ℤ) : Op → Except Stop (Answer × (Key → Option ℤ))
  | .put key value =>
    if M key = none ∧ keyCount M = cap then .error (.store cap)
    else .ok (.put, update M key (some value))
  | .get key => .ok (.get (M key), M)
  | .delete key => .ok (.delete (M key).isSome, update M key none)

def mapTrace (cap : ℕ) (M : Key → Option ℤ) : List Op → Except Stop (List (Answer × ℕ))
  | [] => .ok []
  | op :: ops => do
    let (answer, M) ← mapExec cap M op
    return (answer, keyCount M) :: (← mapTrace cap M ops)

end Map

variable {cap : ℕ} {l l' pre post : List (Key × ℤ)} {s : Ora} {M : Key → Option ℤ} {key : Key}
  {v : ℤ}

def pair (e : Key × ℤ) : OraPair := ⟨e.1.val, e.2⟩

/-- The list has the pairs of the map, in some order. -/
structure Lists (l : List (Key × ℤ)) (M : Key → Option ℤ) : Prop where
  nodup : (l.map Prod.fst).Nodup
  pairs : ∀ key v, M key = some v ↔ (key, v) ∈ l

structure Stores (cap : ℕ) (l : List (Key × ℤ)) (s : Ora) : Prop where
  size : s.opairs.length = cap
  used : l.map pair <+: s.opairs
  olen : s.olen = l.length

theorem Lists.count (h : Lists l M) : keyCount M = l.length := by
  have hkeys : {key | M key ≠ none} = ((l.map Prod.fst).toFinset : Set Key) := by
    ext key
    rw [Set.mem_ofPred_eq, List.coe_toFinset, Set.mem_ofPred_eq, Option.ne_none_iff_exists',
      List.mem_map]
    constructor
    · rintro ⟨v, hv⟩
      exact ⟨(key, v), (h.pairs key v).mp hv, rfl⟩
    · rintro ⟨⟨key, v⟩, hmem, rfl⟩
      exact ⟨v, (h.pairs key v).mpr hmem⟩
  rw [keyCount, hkeys, Set.ncard_coe_finset, List.toFinset_card_of_nodup h.nodup,
    List.length_map]

theorem Lists.none_iff (h : Lists l M) : M key = none ↔ key ∉ l.map Prod.fst := by
  rw [Option.eq_none_iff_forall_ne_some, List.mem_map]
  constructor
  · rintro hnone ⟨⟨key, v⟩, hmem, rfl⟩
    exact hnone v ((h.pairs key v).mpr hmem)
  · intro hnot v hv
    exact hnot ⟨(key, v), (h.pairs key v).mp hv, rfl⟩

theorem Lists.perm (h : Lists l M) (hperm : l'.Perm l) : Lists l' M where
  nodup := (hperm.map Prod.fst).nodup_iff.mpr h.nodup
  pairs key v := (h.pairs key v).trans hperm.mem_iff.symm

/-- The pair at the key of the map, and the others. -/
theorem Lists.split (h : Lists (pre ++ (key, v) :: post) M) :
    M key = some v ∧ key ∉ (pre ++ post).map Prod.fst ∧ (∀ w, Lists (pre ++ (key, w) :: post)
      (update M key (some w))) ∧ Lists (pre ++ post) (update M key none) := by
  have hnodup := h.nodup
  have hmid : (pre.map Prod.fst ++ key :: post.map Prod.fst).Perm
      (key :: (pre.map Prod.fst ++ post.map Prod.fst)) := List.perm_middle
  rw [List.map_append, List.map_cons] at hnodup
  have hrest := List.nodup_cons.mp (hmid.nodup_iff.mp hnodup)
  rw [← List.map_append] at hrest
  have hother : ∀ key' w, (key', w) ∈ pre ++ post → key' ≠ key := by
    rintro key' w hmem rfl
    exact hrest.1 (List.mem_map_of_mem (f := Prod.fst) hmem)
  have hpairs : ∀ key' w, key' ≠ key → (M key' = some w ↔ (key', w) ∈ pre ++ post) := by
    intro key' w hne
    rw [h.pairs key' w]
    simp [hne]
  refine ⟨(h.pairs key v).mpr (by simp), hrest.1, fun w ↦ ⟨?_, ?_⟩, ⟨hrest.2, ?_⟩⟩
  · rw [List.map_append, List.map_cons]
    exact hnodup
  · intro key' w'
    rcases eq_or_ne key' key with rfl | hne
    · rw [update_self, Option.some_inj]
      constructor
      · rintro rfl
        simp
      · intro hmem
        rcases List.mem_append.mp hmem with hpre | hcons
        · exact absurd rfl (hother key' w' (List.mem_append_left _ hpre))
        · rcases List.mem_cons.mp hcons with heq | hpost
          · exact (Prod.mk.inj heq).2.symm
          · exact absurd rfl (hother key' w' (List.mem_append_right _ hpost))
    · rw [update_of_ne hne, hpairs key' w' hne]
      simp [hne]
  · intro key' w'
    rcases eq_or_ne key' key with rfl | hne
    · rw [update_self]
      exact iff_of_false (by simp) (fun hmem ↦ hother key' w' hmem rfl)
    · rw [update_of_ne hne, hpairs key' w' hne]

theorem Lists.concat (h : Lists l M) (hkey : key ∉ l.map Prod.fst) (v : ℤ) :
    Lists (l ++ [(key, v)]) (update M key (some v)) := by
  have hcons : Lists ((key, v) :: l) (update M key (some v)) := by
    refine ⟨List.nodup_cons.mpr ⟨hkey, h.nodup⟩, fun key' w ↦ ?_⟩
    rcases eq_or_ne key' key with rfl | hne
    · have hnot : (key', w) ∉ l := fun hmem ↦ hkey (List.mem_map_of_mem (f := Prod.fst) hmem)
      rw [update_self, Option.some_inj]
      simp [hnot, eq_comm]
    · rw [update_of_ne hne, h.pairs key' w]
      simp [hne]
  exact hcons.perm (List.perm_append_singleton _ l)

theorem Stores.find (h : Stores cap l s) (key : Key) :
    (s.find key.val = .ok none ∧ key ∉ l.map Prod.fst) ∨
      ∃ pre v post, l = pre ++ (key, v) :: post ∧ s.find key.val = .ok (some pre.length) := by
  have hscan := scan_eq (p := fun p : OraPair ↦ p.key == key.val) h.used
  rw [List.length_map, List.findIdx?_map] at hscan
  rw [Ora.find, h.olen, hscan]
  rcases findIdx?_split ((fun p : OraPair ↦ p.key == key.val) ∘ pair) l with
    ⟨hnone, hall⟩ | ⟨pre, e, post, hl, he, hsome⟩
  · refine .inl ⟨by rw [hnone], fun hmem ↦ ?_⟩
    obtain ⟨e, he, rfl⟩ := List.mem_map.mp hmem
    exact absurd (hall e he) (by simp [pair])
  · have hkey : e.1 = key := Subtype.ext (by simpa [pair] using he)
    exact .inr ⟨pre, e.2, post, by rw [hl, ← hkey], by rw [hsome]⟩

theorem Stores.pair_at (h : Stores cap (pre ++ (key, v) :: post) s) :
    read s.opairs pre.length = .ok ⟨key.val, v⟩ := by
  rw [read_within h.used (by simp)]
  simp [pair]

theorem Stores.put (h : Stores cap l s) (hM : Lists l M) (key : Key) (v : ℤ) :
    (∃ s' l', s.put key.val v = .ok s' ∧ Stores cap l' s' ∧
      Lists l' (update M key (some v)) ∧ ¬ (M key = none ∧ keyCount M = cap)) ∨
      s.put key.val v = .error (.store cap) ∧ M key = none ∧ keyCount M = cap := by
  rcases h.find key with ⟨hfind, hkey⟩ | ⟨pre, old, post, rfl, hfind⟩
  · have hnone := hM.none_iff.mpr hkey
    have hsize := hM.count
    have hle := h.used.length_le
    have hshort : key.val.take 15 = key.val := List.take_of_length_le (by
      have hlen := key.property.2
      omega)
    rw [List.length_map, h.size] at hle
    rw [Ora.put, hfind, ok_bind, h.olen]
    dsimp only
    rcases Nat.lt_or_ge l.length cap with hroom | hfull
    · have hused := prefix_concat h.used (by rw [List.length_map, h.size]; exact hroom)
        (pair (key, v))
      rw [List.length_map] at hused
      refine .inl ⟨⟨s.opairs.set l.length (pair (key, v)), l.length + 1⟩, l ++ [(key, v)], ?_,
        ⟨?_, ?_, ?_⟩, hM.concat hkey v, by omega⟩
      · rw [assign_eq (by rw [h.size]; exact hroom), hshort]
        rfl
      · exact List.length_set.trans h.size
      · rw [List.map_append]
        exact hused
      · rw [List.length_append, List.length_singleton]
    · have hcap : l.length = cap := by omega
      refine .inr ⟨?_, hnone, by omega⟩
      rw [assign, if_neg (by rw [h.size]; omega), hcap]
      rfl
  · obtain ⟨hsome, -, hset, -⟩ := hM.split
    have hused := prefix_set (i := pre.length) h.used (pair (key, v))
    have hlt : pre.length < s.opairs.length := by
      have hle := h.used.length_le
      simp only [List.length_map, List.length_append, List.length_cons] at hle
      omega
    refine .inl ⟨⟨s.opairs.set pre.length (pair (key, v)), s.olen⟩, pre ++ (key, v) :: post, ?_,
      ⟨List.length_set.trans h.size, ?_, ?_⟩, hset v, fun hboth ↦ ?_⟩
    · rw [Ora.put, hfind, ok_bind]
      dsimp only
      rw [h.pair_at, ok_bind, assign_eq hlt]
      rfl
    · simpa using hused
    · simpa using h.olen
    · rw [hsome] at hboth
      cases hboth.1

theorem Stores.get (h : Stores cap l s) (hM : Lists l M) (key : Key) :
    s.get key.val = .ok (M key) := by
  rcases h.find key with ⟨hfind, hkey⟩ | ⟨pre, v, post, rfl, hfind⟩
  · rw [Ora.get, hfind, hM.none_iff.mpr hkey]
    rfl
  · rw [Ora.get, hfind, ok_bind, hM.split.1]
    dsimp only
    rw [h.pair_at]
    rfl

theorem Stores.delete (h : Stores cap l s) (hM : Lists l M) (key : Key) :
    ∃ s' l', s.delete key.val = .ok ((M key).isSome, s') ∧ Stores cap l' s' ∧
      Lists l' (update M key none) := by
  rcases h.find key with ⟨hfind, hkey⟩ | ⟨pre, v, post, rfl, hfind⟩
  · have hnone := hM.none_iff.mpr hkey
    refine ⟨s, l, ?_, h, ?_⟩
    · rw [Ora.delete, hfind, hnone]
      rfl
    · rwa [← hnone, update_eq_self]
  · obtain ⟨hsome, -, -, hrest⟩ := hM.split
    have hlt : pre.length < ((pre ++ (key, v) :: post).map pair).length := by simp
    obtain ⟨opairs, hassign, hsize, hused⟩ := assign_last h.used hlt
    have hperm := swapRemove_perm pre post (key, v)
    have hlen := length_swapRemove (l := pre ++ (key, v) :: post) (i := pre.length) (by simp)
    rw [List.length_map, ← h.olen] at hassign
    refine ⟨⟨opairs, s.olen - 1⟩, swapRemove (pre ++ (key, v) :: post) pre.length, ?_,
      ⟨hsize.trans h.size, ?_, ?_⟩, hrest.perm hperm⟩
    · rw [Ora.delete, hfind, ok_bind, hsome]
      dsimp only
      rw [hassign]
      rfl
    · rwa [← map_swapRemove]
    · rw [hlen, ← h.olen]

theorem Stores.exec (h : Stores cap l s) (hM : Lists l M) (op : Op) :
    (∃ answer s' l' M', s.exec op = .ok (answer, s') ∧ mapExec cap M op = .ok (answer, M') ∧
      Stores cap l' s' ∧ Lists l' M') ∨
      s.exec op = .error (.store cap) ∧ mapExec cap M op = .error (.store cap) := by
  cases op with
  | put key v =>
    rcases h.put hM key v with ⟨s', l', hrun, hs', hl', hroom⟩ | ⟨hrun, hfull⟩
    · exact .inl ⟨.put, s', l', _, by rw [Ora.exec, hrun]; rfl, if_neg hroom, hs', hl'⟩
    · exact .inr ⟨by rw [Ora.exec, hrun]; rfl, if_pos hfull⟩
  | get key => exact .inl ⟨_, s, l, M, by rw [Ora.exec, h.get hM]; rfl, rfl, h, hM⟩
  | delete key =>
    obtain ⟨s', l', hrun, hs', hl'⟩ := h.delete hM key
    exact .inl ⟨_, s', l', _, by rw [Ora.exec, hrun]; rfl, rfl, hs', hl'⟩

theorem Stores.trace (h : Stores cap l s) (hM : Lists l M) (ops : List Op) :
    s.trace ops = mapTrace cap M ops := by
  induction ops generalizing l s M with
  | nil => rfl
  | cons op ops ih =>
    rw [Ora.trace, mapTrace]
    rcases h.exec hM op with ⟨answer, s', l', M', hrun, hmap, hs', hl'⟩ | ⟨hrun, hmap⟩
    · rw [hrun, hmap, ok_bind, ok_bind]
      dsimp only
      rw [ih hs' hl', hl'.count, hs'.olen]
    · rw [hrun, hmap]
      rfl

/-- Over every run on keys that a `char[16]` holds, the flat array is a finite
map, though a deletion moves the last pair. It writes past its end exactly when
a new key comes to a full map. -/
theorem flat_array_is_map (cap : ℕ) (ops : List Op) :
    (Ora.mk (List.replicate cap ⟨[], 0⟩) 0).trace ops = mapTrace cap (fun _ ↦ none) ops :=
  Stores.trace (l := []) ⟨List.length_replicate, List.nil_prefix, rfl⟩
    ⟨List.nodup_nil, by simp⟩ ops

end LowLevel.ProperDS.MapOracle
