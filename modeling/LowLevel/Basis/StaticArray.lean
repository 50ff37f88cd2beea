import LowLevel.Basis.AddressSpace
import LowLevel.Basis.Loop

namespace LowLevel.Basis.StaticArray

open AddressSpace Loop

variable {α : Type*} {a l : List α} {i n : ℕ} {x : α}

/-- `a[i]`, for an array `a` of as many elements as the list has. -/
def read (a : List α) (i : ℕ) : Except Stop α :=
  match a[i]? with
  | none => .error (.load i)
  | some v => .ok v

def assign (a : List α) (i : ℕ) (v : α) : Except Stop (List α) :=
  if i < a.length then .ok (a.set i v) else .error (.store i)

/-- `memmove(a + dst, a + src, n * sizeof(*a));` -/
def memmove (a : List α) (dst src n : ℕ) : Except Stop (List α) :=
  if src + n ≤ a.length then
    if dst + n ≤ a.length then .ok (a.take dst ++ (a.drop src).take n ++ a.drop (dst + n))
    else .error (.store a.length)
  else .error (.load a.length)

theorem read_eq (h : a[i]? = some x) : read a i = .ok x := by rw [read, h]

theorem read_lt (h : i < a.length) : read a i = .ok a[i] := read_eq (List.getElem?_eq_getElem h)

theorem assign_eq (h : i < a.length) (v : α) : assign a i v = .ok (a.set i v) := if_pos h

theorem prefix_getElem? (h : l <+: a) (hi : i < l.length) : a[i]? = l[i]? := by
  rw [List.prefix_iff_getElem?.mp h i hi, List.getElem?_eq_getElem]

theorem prefix_of_getElem? (h : ∀ (i : ℕ) v, l[i]? = some v → a[i]? = some v) : l <+: a :=
  List.prefix_iff_getElem?.mpr (fun i hi ↦ h i l[i] (List.getElem?_eq_getElem hi))

theorem read_within (h : l <+: a) (hi : i < l.length) : read a i = .ok l[i] :=
  read_eq (List.prefix_iff_getElem?.mp h i hi)

theorem prefix_set (h : l <+: a) (v : α) : l.set i v <+: a.set i v := by
  obtain ⟨rest, rfl⟩ := h
  rcases Nat.lt_or_ge i l.length with hi | hi
  · rw [List.set_append_left i v hi]
    exact List.prefix_append _ _
  · rw [List.set_eq_of_length_le hi, List.set_append_right i v hi]
    exact List.prefix_append _ _

/-- An element stored behind the prefix extends it. -/
theorem prefix_concat (h : l <+: a) (hlen : l.length < a.length) (v : α) :
    l ++ [v] <+: a.set l.length v := by
  obtain ⟨rest, rfl⟩ := h
  obtain ⟨b, rest, rfl⟩ := List.exists_cons_of_length_pos
    (l := rest) (by rw [List.length_append] at hlen; omega)
  rw [List.set_append_right _ v (Nat.le_refl _), Nat.sub_self, List.set_cons_zero]
  exact ⟨rest, by simp⟩

theorem memmove_eq {dst src : ℕ} (hsrc : src + n ≤ a.length) (hdst : dst + n ≤ a.length) :
    memmove a dst src n = .ok (a.take dst ++ (a.drop src).take n ++ a.drop (dst + n)) := by
  rw [memmove, if_pos hsrc, if_pos hdst]

theorem memmove_length {dst src : ℕ} (hsrc : src + n ≤ a.length) (hdst : dst + n ≤ a.length) :
    (a.take dst ++ (a.drop src).take n ++ a.drop (dst + n)).length = a.length := by
  rw [List.length_append, List.length_append, List.length_take, List.length_take,
    List.length_drop, List.length_drop]
  omega

/-- Room for one element more at the front. -/
theorem memmove_up (h : l <+: a) (hlen : l.length < a.length) (x : α) :
    ∃ a' a'', memmove a 1 0 l.length = .ok a' ∧ assign a' 0 x = .ok a'' ∧
      a''.length = a.length ∧ x :: l <+: a'' := by
  have hsrc : 0 + l.length ≤ a.length := by omega
  have hdst : 1 + l.length ≤ a.length := by omega
  refine ⟨_, _, memmove_eq hsrc hdst, assign_eq ?_ x, ?_, ?_⟩
  · rw [memmove_length hsrc hdst]
    omega
  · rw [List.length_set, memmove_length hsrc hdst]
  · obtain ⟨b, rest, rfl⟩ := List.exists_cons_of_length_pos (l := a) (by omega)
    rw [List.drop_zero, ← List.prefix_iff_eq_take.mp h]
    exact ⟨_, rfl⟩

theorem memmove_down {x : α} (h : x :: l <+: a) :
    ∃ a', memmove a 0 1 l.length = .ok a' ∧ a'.length = a.length ∧ l <+: a' := by
  have hlen := h.length_le
  rw [List.length_cons] at hlen
  have hsrc : 1 + l.length ≤ a.length := by omega
  have hdst : 0 + l.length ≤ a.length := by omega
  refine ⟨_, memmove_eq hsrc hdst, memmove_length hsrc hdst, ?_⟩
  obtain ⟨rest, rfl⟩ := h
  rw [List.take_zero, List.nil_append, List.cons_append, List.drop_succ_cons, List.drop_zero,
    List.take_left]
  exact List.prefix_append _ _

/-- `for (i = 0; i < n; i++) if (p(a[i])) return i;` -/
def scanFrom (p : α → Bool) (a : List α) (i : ℕ) : ℕ → Except Stop (Option ℕ)
  | 0 => .ok none
  | n + 1 => (read a i).bind (fun v ↦ if p v then .ok (some i) else scanFrom p a (i + 1) n)

def scan (p : α → Bool) (a : List α) (n : ℕ) : Except Stop (Option ℕ) := scanFrom p a 0 n

theorem scanFrom_eq {p : α → Bool} {pre : List α} (h : pre ++ l <+: a) :
    scanFrom p a pre.length l.length = .ok ((l.findIdx? p).map (· + pre.length)) := by
  induction l generalizing pre with
  | nil => rfl
  | cons x l ih =>
    have hread : read a pre.length = .ok x := by
      rw [read_within h (by simp)]
      simp
    have hrest : scanFrom p a (pre ++ [x]).length l.length =
        .ok ((l.findIdx? p).map (· + (pre ++ [x]).length)) := ih (by rwa [List.append_assoc])
    rw [List.length_cons, scanFrom, hread]
    dsimp only [Except.bind]
    rw [List.findIdx?_cons]
    split
    · simp
    · rw [List.length_append, List.length_singleton] at hrest
      rw [hrest, Option.map_map]
      congr 2
      funext j
      simp
      omega

theorem scan_eq {p : α → Bool} (h : l <+: a) : scan p a l.length = .ok (l.findIdx? p) := by
  have hscan : scanFrom p a ([] : List α).length l.length =
      .ok ((l.findIdx? p).map (· + ([] : List α).length)) := scanFrom_eq (by simpa using h)
  simpa [scan] using hscan

/-- `while (i < n && p(a[i])) i++;` from `i` on, with `n - i` cells to go. -/
def advanceFrom (p : α → Bool) (a : List α) (i : ℕ) : ℕ → Except Stop ℕ
  | 0 => .ok i
  | n + 1 => (read a i).bind (fun v ↦ if p v then advanceFrom p a (i + 1) n else .ok i)

def advance (p : α → Bool) (a : List α) (n : ℕ) : Except Stop ℕ := advanceFrom p a 0 n

theorem advanceFrom_eq {p : α → Bool} {pre : List α} (h : pre ++ l <+: a) :
    advanceFrom p a pre.length l.length = .ok (pre.length + (l.takeWhile p).length) := by
  induction l generalizing pre with
  | nil => rfl
  | cons x l ih =>
    have hread : read a pre.length = .ok x := by
      rw [read_within h (by simp)]
      simp
    have hrest : advanceFrom p a (pre ++ [x]).length l.length =
        .ok ((pre ++ [x]).length + (l.takeWhile p).length) := ih (by rwa [List.append_assoc])
    rw [List.length_append, List.length_singleton] at hrest
    rw [List.length_cons, advanceFrom, hread]
    dsimp only [Except.bind]
    rw [List.takeWhile_cons]
    split
    · rw [hrest, List.length_cons, Nat.add_assoc, Nat.add_comm 1]
    · rfl

theorem advance_eq {p : α → Bool} (h : l <+: a) :
    advance p a l.length = .ok (l.takeWhile p).length := by
  have hadvance : advanceFrom p a ([] : List α).length l.length =
      .ok (([] : List α).length + (l.takeWhile p).length) := advanceFrom_eq (by simpa using h)
  simpa [advance] using hadvance

/-- A loop that replaces `a[i]` by its image. -/
theorem forRange_map {ε : Type*} {body : ℕ → List α → Except ε (List α)} (g : α → α)
    (hbody : ∀ i (a : List α) v, a[i]? = some v → body i a = .ok (a.set i (g v))) (a : List α) :
    forRange body 0 a.length a = .ok (a.map g) := by
  have hloop : ∃ a', forRange body 0 a.length a = .ok a' ∧
      ∀ j, a'[j]? = if j < a.length then a[j]?.map g else a[j]? := by
    refine forRange_ok (fun i (a' : List α) ↦
      ∀ j, a'[j]? = if j < i then a[j]?.map g else a[j]?) (Nat.zero_le _) (fun j ↦ by simp) ?_
    intro i _ hi a' hcells
    have hread : a'[i]? = some a[i] := by
      rw [hcells, if_neg (Nat.lt_irrefl i), List.getElem?_eq_getElem]
    refine ⟨a'.set i (g a[i]), hbody i a' a[i] hread, fun j ↦ ?_⟩
    rcases eq_or_ne j i with rfl | hne
    · obtain ⟨hlt, -⟩ := List.getElem?_eq_some_iff.mp hread
      rw [List.getElem?_set_self hlt, if_pos (Nat.lt_succ_self j), List.getElem?_eq_getElem hi,
        Option.map_some]
    · rw [List.getElem?_set_ne hne.symm, hcells]
      exact if_congr (by omega) rfl rfl
  obtain ⟨a', hrun, hcells⟩ := hloop
  rw [hrun]
  congr 1
  apply List.ext_getElem?
  intro j
  rw [hcells, List.getElem?_map]
  split_ifs with hj
  · rfl
  · rw [List.getElem?_eq_none (by omega), Option.map_none]

def swapPass (n k : ℕ) (a : List α) : Except Stop (List α) := do
  let t ← read a k
  let u ← read a (n - 1 - k)
  let a ← assign a k u
  assign a (n - 1 - k) t

/-- The elements at `k` and `n - 1 - k` change places, for `k < n / 2`. -/
def reverse (a : List α) (n : ℕ) : Except Stop (List α) := forRange (swapPass n) 0 (n / 2) a

theorem reverse_spec (hn : n ≤ a.length) :
    ∃ a', reverse a n = .ok a' ∧ a'.length = a.length ∧
      ∀ j < n, a'[j]? = a[n - 1 - j]? := by
  have hloop : ∃ a', reverse a n = .ok a' ∧ a'.length = a.length ∧
      ∀ j < n, a'[j]? = if j < n / 2 ∨ n - n / 2 ≤ j then a[n - 1 - j]? else a[j]? := by
    refine forRange_ok (fun k (a' : List α) ↦ a'.length = a.length ∧
      ∀ j < n, a'[j]? = if j < k ∨ n - k ≤ j then a[n - 1 - j]? else a[j]?) (Nat.zero_le _)
      ⟨rfl, fun j hj ↦ ?_⟩ ?_
    · rw [if_neg (by omega)]
    · intro k _ hk a' hall
      obtain ⟨hlen, hcells⟩ := hall
      have hleft : read a' k = .ok a[k] := by
        apply read_eq
        rw [hcells k (by omega), if_neg (by omega), List.getElem?_eq_getElem]
      have hright : read a' (n - 1 - k) = .ok a[n - 1 - k] := by
        apply read_eq
        rw [hcells _ (by omega), if_neg (by omega), List.getElem?_eq_getElem]
      refine ⟨(a'.set k a[n - 1 - k]).set (n - 1 - k) a[k], ?_, ?_, fun j hj ↦ ?_⟩
      · rw [swapPass, hleft, ok_bind, hright, ok_bind, assign_eq (by omega), ok_bind]
        exact assign_eq (by rw [List.length_set]; omega) _
      · rw [List.length_set, List.length_set, hlen]
      · rcases eq_or_ne j (n - 1 - k) with rfl | hne
        · have hback : n - 1 - (n - 1 - k) = k := by omega
          rw [List.getElem?_set_self (by rw [List.length_set]; omega), if_pos (by omega), hback,
            List.getElem?_eq_getElem]
        · rw [List.getElem?_set_ne hne.symm]
          rcases eq_or_ne j k with rfl | hne'
          · rw [List.getElem?_set_self (by omega), if_pos (by omega), List.getElem?_eq_getElem]
          · rw [List.getElem?_set_ne hne'.symm, hcells j hj]
            exact if_congr (by omega) rfl rfl
  obtain ⟨a', hrun, hlen, hcells⟩ := hloop
  refine ⟨a', hrun, hlen, fun j hj ↦ ?_⟩
  rw [hcells j hj]
  split_ifs with hmoved
  · rfl
  · -- the middle element stays
    congr 1
    omega

theorem reverse_prefix (h : l <+: a) :
    ∃ a', reverse a l.length = .ok a' ∧ a'.length = a.length ∧ l.reverse <+: a' := by
  obtain ⟨a', hrun, hlen, hcells⟩ := reverse_spec h.length_le
  refine ⟨a', hrun, hlen, prefix_of_getElem? (fun j v hv ↦ ?_)⟩
  obtain ⟨hj, -⟩ := List.getElem?_eq_some_iff.mp hv
  rw [List.length_reverse] at hj
  rw [hcells j hj, prefix_getElem? h (by omega), ← hv, List.getElem?_reverse hj]

/-- `for (k = n; k > i; k--) a[k] = a[k - 1];` -/
def shiftUp (a : List α) (i n : ℕ) : Except Stop (List α) :=
  forDown (fun k a ↦ (read a (k - 1)).bind (assign a k)) n i a

def downPass (k : ℕ) (a : List α) : Except Stop (List α) := (read a (k + 1)).bind (assign a k)

/-- `for (k = i; k + 1 < n; k++) a[k] = a[k + 1];` -/
def shiftDown (a : List α) (i n : ℕ) : Except Stop (List α) := forRange downPass i (n - 1) a

theorem shiftUp_spec (hi : i ≤ n) (hn : n < a.length) :
    ∃ a', shiftUp a i n = .ok a' ∧ a'.length = a.length ∧
      ∀ j, a'[j]? = if i < j ∧ j ≤ n then a[j - 1]? else a[j]? := by
  refine forDown_ok (fun k (a' : List α) ↦ a'.length = a.length ∧
    ∀ j, a'[j]? = if k < j ∧ j ≤ n then a[j - 1]? else a[j]?) hi ⟨rfl, fun j ↦ ?_⟩ ?_
  · rw [if_neg (by omega)]
  · intro k _ hk a' hall
    obtain ⟨hlen, hcells⟩ := hall
    have hread : read a' k = .ok a[k] := by
      apply read_eq
      rw [hcells, if_neg (by omega), List.getElem?_eq_getElem]
    refine ⟨a'.set (k + 1) a[k], ?_, by rw [List.length_set, hlen], fun j ↦ ?_⟩
    · rw [Nat.add_sub_cancel, hread]
      exact assign_eq (by omega) _
    · rcases eq_or_ne j (k + 1) with rfl | hne
      · rw [List.getElem?_set_self (by omega), if_pos (by omega), Nat.add_sub_cancel,
          List.getElem?_eq_getElem]
      · rw [List.getElem?_set_ne hne.symm, hcells]
        split_ifs with h₁ h₂ h₂
        · rfl
        · omega
        · omega
        · rfl

theorem shiftDown_spec (hn : n ≤ a.length) :
    ∃ a', shiftDown a i n = .ok a' ∧ a'.length = a.length ∧
      ∀ j, a'[j]? = if i ≤ j ∧ j + 1 < n then a[j + 1]? else a[j]? := by
  rcases Nat.lt_or_ge (n - 1) i with hlt | hle
  · refine ⟨a, forRange_empty (Nat.le_of_lt hlt), rfl, fun j ↦ ?_⟩
    rw [if_neg (by omega)]
  · have hloop : ∃ a', shiftDown a i n = .ok a' ∧ a'.length = a.length ∧
        ∀ j, a'[j]? = if i ≤ j ∧ j < n - 1 then a[j + 1]? else a[j]? := by
      refine forRange_ok (fun k (a' : List α) ↦ a'.length = a.length ∧
        ∀ j, a'[j]? = if i ≤ j ∧ j < k then a[j + 1]? else a[j]?) hle ⟨rfl, fun j ↦ ?_⟩ ?_
      · rw [if_neg (by omega)]
      · intro k _ hk a' hall
        obtain ⟨hlen, hcells⟩ := hall
        have hread : read a' (k + 1) = .ok a[k + 1] := by
          apply read_eq
          rw [hcells, if_neg (by omega), List.getElem?_eq_getElem]
        refine ⟨a'.set k a[k + 1], ?_, by rw [List.length_set, hlen], fun j ↦ ?_⟩
        · rw [downPass, hread]
          exact assign_eq (by omega) _
        · rcases eq_or_ne j k with rfl | hne
          · rw [List.getElem?_set_self (by omega), if_pos (by omega), List.getElem?_eq_getElem]
          · rw [List.getElem?_set_ne hne.symm, hcells]
            split_ifs with h₁ h₂ h₂
            · rfl
            · omega
            · omega
            · rfl
    obtain ⟨a', hrun, hlen, hcells⟩ := hloop
    refine ⟨a', hrun, hlen, fun j ↦ ?_⟩
    rw [hcells]
    exact if_congr (and_congr Iff.rfl (by omega)) rfl rfl

theorem shiftUp_insert (h : l <+: a) (hi : i ≤ l.length) (hn : l.length < a.length) (x : α) :
    ∃ a', (shiftUp a i l.length).bind (fun a' ↦ assign a' i x) = .ok a' ∧ a'.length = a.length ∧
      l.insertIdx i x <+: a' := by
  obtain ⟨a', hrun, hlen, hcells⟩ := shiftUp_spec hi hn
  refine ⟨a'.set i x, ?_, by rw [List.length_set, hlen], ?_⟩
  · rw [hrun]
    exact assign_eq (by omega) x
  · apply prefix_of_getElem?
    intro j v hv
    rw [List.getElem?_insertIdx] at hv
    split_ifs at hv with hlt heq hle
    · rw [List.getElem?_set_ne (by omega), hcells, if_neg (by omega), prefix_getElem? h (by omega),
        hv]
    · rw [← hv, heq, List.getElem?_set_self (by omega)]
    · obtain ⟨hj, -⟩ := List.getElem?_eq_some_iff.mp hv
      rw [List.getElem?_set_ne (by omega), hcells, if_pos (by omega), prefix_getElem? h hj, hv]

theorem shiftUp_full (hi : i < n) (hn : n = a.length) : shiftUp a i n = .error (.store n) := by
  have hread : read a (n - 1) = .ok a[n - 1] := read_lt (by omega)
  rw [shiftUp, forDown, forRange_step (by omega), Nat.sub_zero, hread]
  dsimp only [Except.bind]
  rw [assign, if_neg (by omega)]

theorem shiftDown_erase (h : l <+: a) (i : ℕ) :
    ∃ a', shiftDown a i l.length = .ok a' ∧ a'.length = a.length ∧ l.eraseIdx i <+: a' := by
  obtain ⟨a', hrun, hlen, hcells⟩ := shiftDown_spec (i := i) h.length_le
  refine ⟨a', hrun, hlen, prefix_of_getElem? (fun j v hv ↦ ?_)⟩
  rw [List.getElem?_eraseIdx] at hv
  rw [hcells]
  split_ifs at hv with hlt
  · obtain ⟨hj, -⟩ := List.getElem?_eq_some_iff.mp hv
    rw [if_neg (by omega), prefix_getElem? h hj, hv]
  · obtain ⟨hj, -⟩ := List.getElem?_eq_some_iff.mp hv
    rw [if_pos (by omega), prefix_getElem? h hj, hv]

end LowLevel.Basis.StaticArray
