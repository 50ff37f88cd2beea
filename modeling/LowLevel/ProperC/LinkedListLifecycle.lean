import LowLevel.ProperC.LinkedList

namespace LowLevel.ProperC.LinkedListLifecycle

open Basis.AddressSpace Basis.Loop LinkedList

/-- A call of the client, with the address and the junk its `malloc` answers. -/
inductive Op
  | pushFront (answer : ℕ) (junk : Node) (val : Int32)
  | reverse

def exec (fuel : ℕ) (head : ℕ) (m : Memory Node) : Op → Except Stop (ℕ × Memory Node)
  | .pushFront answer junk val => listPushFront m answer junk head val
  | .reverse => listReverse fuel m head

def run (fuel : ℕ) (head : ℕ) (m : Memory Node) : List Op → Except Stop (ℕ × Memory Node)
  | [] => .ok (head, m)
  | op :: ops => (exec fuel head m op).bind (fun s ↦ run fuel s.1 s.2 ops)

def lifecycle (fuel : ℕ) (m : Memory Node) (ops : List Op) : Except Stop (List ℕ × Memory Node) :=
  (run fuel 0 m ops).bind (fun s ↦ listFree fuel s.2 s.1)

def pushed : List Op → List ℕ
  | [] => []
  | .pushFront answer _ _ :: ops => answer :: pushed ops
  | .reverse :: ops => pushed ops

/-- Every `malloc` of the run is answered by a cell that is free at that time. -/
def Allocating (fuel : ℕ) (head : ℕ) (m : Memory Node) : List Op → Prop
  | [] => True
  | op :: ops => (∀ answer junk val, op = .pushFront answer junk val → m.Fresh answer) ∧
      ∀ head' m', exec fuel head m op = .ok (head', m') → Allocating fuel head' m' ops

variable {m m₀ : Memory Node} {head fuel : ℕ} {ps : List ℕ} {ops : List Op}

theorem run_owned (h : Owned m₀ head ps m) (hfuel : ps.length + (pushed ops).length ≤ fuel)
    (halloc : Allocating fuel head m ops) :
    ∃ head' m' ps', run fuel head m ops = .ok (head', m') ∧ Owned m₀ head' ps' m' ∧
      ps'.Perm (ps ++ pushed ops) := by
  induction ops generalizing head m ps with
  | nil => exact ⟨head, m, ps, rfl, h, by simp [pushed]⟩
  | cons op ops ih =>
    obtain ⟨hanswer, hnext⟩ := halloc
    cases op with
    | pushFront answer junk val =>
      obtain ⟨m₁, hrun, howned⟩ := listPushFront_owned h (hanswer answer junk val rfl) junk val
      have hfuel' : (answer :: ps).length + (pushed ops).length ≤ fuel := by
        simp only [pushed, List.length_cons] at hfuel ⊢
        omega
      obtain ⟨head', m', ps', hruns, howned', hperm⟩ := ih howned hfuel' (hnext _ _ hrun)
      refine ⟨head', m', ps', ?_, howned', hperm.trans List.perm_middle.symm⟩
      rw [run, exec, hrun]
      exact hruns
    | reverse =>
      obtain ⟨head₁, m₁, hrun, howned⟩ := listReverse_owned h fuel (by omega)
      obtain ⟨head', m', ps', hruns, howned', hperm⟩ := ih howned
        (by simpa [pushed] using hfuel) (hnext _ _ hrun)
      refine ⟨head', m', ps', ?_, howned', hperm.trans ((List.reverse_perm ps).append_right _)⟩
      rw [run, exec, hrun]
      exact hruns

/-- Pushes and reversals from the empty list, then `listFree`: no access
faults, each pushed node is freed once, and the memory is as before. -/
theorem lifecycle_restores (m : Memory Node) (ops : List Op) (fuel : ℕ)
    (hfuel : (pushed ops).length ≤ fuel) (halloc : Allocating fuel 0 m ops) :
    ∃ freed, lifecycle fuel m ops = .ok (freed, m) ∧ freed.Perm (pushed ops) ∧ freed.Nodup := by
  have hempty : Owned m 0 [] m := ⟨List.nodup_nil, .nil, by simp, fun _ _ ↦ rfl⟩
  obtain ⟨head, m', ps, hrun, howned, hperm⟩ := run_owned hempty (by simpa using hfuel) halloc
  have hlen := hperm.length_eq
  refine ⟨ps, ?_, hperm, howned.nodup⟩
  rw [lifecycle, hrun]
  exact listFree_owned howned fuel (by simpa [hlen] using hfuel)

def empty : Memory Node := ⟨fun _ ↦ none, rfl, fun _ _ ↦ rfl⟩

theorem lifecycle_restores_two :
    ∃ freed, lifecycle 2 empty [.pushFront 100 ⟨0, 0⟩ 1, .pushFront 200 ⟨0, 0⟩ 2, .reverse] =
      .ok (freed, empty) ∧ freed.Perm [100, 200] ∧ freed.Nodup := by
  refine lifecycle_restores empty _ 2 (by simp [pushed]) ?_
  have hfresh : empty.Fresh 100 := ⟨by omega, by omega, rfl⟩
  obtain ⟨m₁, hpush, hcell⟩ := listPushFront_fresh hfresh ⟨0, 0⟩ 0 1
  refine ⟨fun answer junk val hop ↦ by cases hop; exact hfresh, fun head' m' hrun ↦ ?_⟩
  rw [exec, hpush] at hrun
  cases hrun
  have hfresh' : m₁.Fresh 200 := ⟨by omega, by omega, by rw [hcell]; rfl⟩
  refine ⟨fun answer junk val hop ↦ by cases hop; exact hfresh', fun _ _ _ ↦ ?_⟩
  exact ⟨fun answer junk val hop ↦ (by cases hop), fun _ _ _ ↦ trivial⟩

end LowLevel.ProperC.LinkedListLifecycle
