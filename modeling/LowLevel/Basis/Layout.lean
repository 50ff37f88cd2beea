import LowLevel.Basis.AddressSpace
import LowLevel.Basis.Loop

namespace LowLevel.Basis.Layout

open AddressSpace Loop

variable {α V ε : Type*} {width : ℕ} {enc : Memory α → V → ℕ → Except ε (Memory α)}
  {image : V → List α}

/-- An encoder that writes `width` cells at an address, and no others. -/
structure Encodes (width : ℕ) (enc : Memory α → V → ℕ → Except ε (Memory α))
    (image : V → List α) : Prop where
  length : ∀ v, (image v).length = width
  run : ∀ m v p, (∀ i < width, (m.cell (p + i)).isSome) →
    ∃ m', enc m v p = .ok m' ∧ m'.Holds p (image v) ∧ Memory.Outside p (p + width) m m'

/-- Values written into the slots of a buffer, in the order given. -/
def writeAll (width : ℕ) (enc : Memory α → V → ℕ → Except ε (Memory α)) (base : ℕ)
    (writes : List (V × ℕ)) (m : Memory α) : Except ε (Memory α) :=
  writes.foldlM (fun m w ↦ enc m w.1 (base + width * w.2)) m

variable {m : Memory α} {base : ℕ}

theorem slots_disjoint {i k a : ℕ} (hne : i ≠ k) (hlo : base + width * i ≤ a)
    (hhi : a < base + width * i + width) :
    a < base + width * k ∨ base + width * k + width ≤ a := by
  rcases Nat.lt_or_gt_of_ne hne with hlt | hgt
  · have hle := Nat.mul_le_mul_left width (show i + 1 ≤ k from hlt)
    rw [Nat.mul_succ] at hle
    omega
  · have hle := Nat.mul_le_mul_left width (show k + 1 ≤ i from hgt)
    rw [Nat.mul_succ] at hle
    omega

theorem writeAll_spec (h : Encodes width enc image) {writes : List (V × ℕ)}
    (hnd : (writes.map Prod.snd).Nodup)
    (hroom : ∀ w ∈ writes, ∀ i < width, (m.cell (base + width * w.2 + i)).isSome) :
    ∃ m', writeAll width enc base writes m = .ok m' ∧
      (∀ w ∈ writes, m'.Holds (base + width * w.2) (image w.1)) ∧
      ∀ a, (∀ w ∈ writes, a < base + width * w.2 ∨ base + width * w.2 + width ≤ a) →
        m'.cell a = m.cell a := by
  induction writes generalizing m with
  | nil => exact ⟨m, rfl, fun w hw ↦ absurd hw List.not_mem_nil, fun _ _ ↦ rfl⟩
  | cons w writes ih =>
    rw [List.map_cons, List.nodup_cons] at hnd
    have hne : ∀ w' ∈ writes, w'.2 ≠ w.2 := by
      intro w' hw' heq
      exact hnd.1 (heq ▸ List.mem_map_of_mem hw')
    obtain ⟨m₁, hrun, hholds, hout⟩ := h.run m w.1 (base + width * w.2)
      (hroom w List.mem_cons_self)
    obtain ⟨m', hrest, hwritten, hframe⟩ := ih hnd.2 (m := m₁) (by
      intro w' hw' i hi
      rw [hout _ (slots_disjoint (hne w' hw') (by omega) (by omega))]
      exact hroom w' (List.mem_cons_of_mem w hw') i hi)
    refine ⟨m', ?_, ?_, ?_⟩
    · rw [writeAll, List.foldlM_cons, hrun, ok_bind]
      exact hrest
    · intro w' hw'
      rcases List.mem_cons.mp hw' with rfl | hw'
      · apply hholds.congr
        intro i hi
        rw [h.length] at hi
        apply hframe
        intro w'' hw''
        exact slots_disjoint (hne w'' hw'').symm (by omega) (by omega)
      · exact hwritten w' hw'
    · intro a ha
      rw [hframe a (fun w' hw' ↦ ha w' (List.mem_cons_of_mem w hw')),
        hout a (ha w List.mem_cons_self)]

/-- A list of values written in any order ends up in its place. -/
theorem writeAll_perm (h : Encodes width enc image) {vs : List V} {writes : List (V × ℕ)}
    (hperm : writes.Perm vs.zipIdx)
    (hroom : ∀ i < width * vs.length, (m.cell (base + i)).isSome) :
    ∃ m', writeAll width enc base writes m = .ok m' ∧
      (∀ k v, vs[k]? = some v → m'.Holds (base + width * k) (image v)) ∧
      Memory.Outside base (base + width * vs.length) m m' := by
  have hnd : (writes.map Prod.snd).Nodup := by
    rw [(hperm.map Prod.snd).nodup_iff, List.zipIdx_map_snd]
    exact List.nodup_range'
  have hslot : ∀ w ∈ writes, width * w.2 + width ≤ width * vs.length := by
    intro w hw
    have hget := List.mem_zipIdx_iff_getElem?.mp (hperm.mem_iff.mp hw)
    obtain ⟨hlt, -⟩ := List.getElem?_eq_some_iff.mp hget
    exact Nat.mul_le_mul_left width hlt
  have hcells : ∀ w ∈ writes, ∀ i < width, (m.cell (base + width * w.2 + i)).isSome := by
    intro w hw i hi
    have hle := hslot w hw
    rw [Nat.add_assoc]
    exact hroom _ (by omega)
  obtain ⟨m', hrun, hwritten, hframe⟩ := writeAll_spec h hnd hcells
  refine ⟨m', hrun, ?_, ?_⟩
  · intro k v hv
    have hmem : (v, k) ∈ vs.zipIdx := List.mem_zipIdx_iff_getElem?.mpr hv
    exact hwritten (v, k) (hperm.mem_iff.mpr hmem)
  · intro a ha
    apply hframe
    intro w hw
    have hle := hslot w hw
    omega

end LowLevel.Basis.Layout
