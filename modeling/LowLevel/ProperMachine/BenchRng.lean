import LowLevel.Basis.BitMatrix
import Mathlib.Data.Finset.Card
import Mathlib.Order.Interval.Finset.Nat
import Mathlib.Tactic.NormNum.Prime

namespace LowLevel.ProperMachine.BenchRng

open Function Basis.BitMatrix

/-- `rng_next`: the state after the call is also its result. -/
def rngNext (x : UInt32) : UInt32 :=
  let x := x ^^^ x <<< 13
  let x := x ^^^ x >>> 17
  x ^^^ x <<< 5

def rngSeed : UInt32 := 0x12345678

/-- The same on numbers. -/
def next (x : ℕ) : ℕ :=
  let x := x ^^^ x * 2 ^ 13 % 2 ^ 32
  let x := x ^^^ x / 2 ^ 17
  x ^^^ x * 2 ^ 5 % 2 ^ 32

theorem toNat_rngNext (x : UInt32) : (rngNext x).toNat = next x.toNat := by
  simp [rngNext, next, Nat.shiftLeft_eq, Nat.shiftRight_eq_div_pow]

theorem toNat_iterate (n : ℕ) (x : UInt32) : (rngNext^[n] x).toNat = next^[n] x.toNat := by
  induction n with
  | zero => rfl
  | succ n ih => rw [iterate_succ_apply', iterate_succ_apply', toNat_rngNext, ih]

theorem shifted_additive (k : ℕ) : Additive (fun x ↦ x ^^^ x * 2 ^ k % 2 ^ 32) := by
  intro x y
  dsimp only
  rw [← Nat.shiftLeft_eq, Nat.shiftLeft_xor_distrib, Nat.xor_mod_two_pow, Nat.shiftLeft_eq,
    Nat.shiftLeft_eq, Nat.xor_assoc, Nat.xor_assoc, Nat.xor_left_comm y]

theorem halved_additive (k : ℕ) : Additive (fun x ↦ x ^^^ x / 2 ^ k) := by
  intro x y
  dsimp only
  rw [Nat.xor_div_two_pow, Nat.xor_assoc, Nat.xor_assoc, Nat.xor_left_comm y]

theorem next_additive : Additive next :=
  (shifted_additive 5).comp ((halved_additive 17).comp (shifted_additive 13))

theorem next_lt {x : ℕ} (hx : x < 2 ^ 32) : next x < 2 ^ 32 := by
  have hword := toNat_rngNext (UInt32.ofNat x)
  rw [UInt32.toNat_ofNat', Nat.mod_eq_of_lt hx] at hword
  exact hword ▸ (rngNext (UInt32.ofNat x)).toNat_lt

def nextMatrix : List ℕ := columns next 32

theorem next_represents : Represents 32 nextMatrix next :=
  ⟨fun _ ↦ next_lt, fun _ ↦ apply_columns next_additive⟩

/-- The number of the states that are not zero. -/
def period : ℕ := 2 ^ 32 - 1

theorem period_primes {p : ℕ} (hp : p.Prime) (hdvd : p ∣ period) :
    p ∈ [3, 5, 17, 257, 65537] := by
  have hfactors : period = 3 * (5 * (17 * (257 * 65537))) := by decide
  rw [hfactors, hp.dvd_mul, hp.dvd_mul, hp.dvd_mul, hp.dvd_mul] at hdvd
  rcases hdvd with h | h | h | h | h
  · simp [(Nat.prime_dvd_prime_iff_eq hp (by norm_num)).mp h]
  · simp [(Nat.prime_dvd_prime_iff_eq hp (by norm_num)).mp h]
  · simp [(Nat.prime_dvd_prime_iff_eq hp (by norm_num)).mp h]
  · simp [(Nat.prime_dvd_prime_iff_eq hp (by norm_num)).mp h]
  · simp [(Nat.prime_dvd_prime_iff_eq hp (by norm_num)).mp h]

theorem power_seed : power 32 nextMatrix period 0x12345678 = 0x12345678 ∧
    ∀ p ∈ [3, 5, 17, 257, 65537], power 32 nextMatrix (period / p) 0x12345678 ≠ 0x12345678 := by
  decide +kernel

theorem minimalPeriod_seed : minimalPeriod next 0x12345678 = period := by
  have hpower : ∀ n, n < 2 ^ 32 → power 32 nextMatrix n 0x12345678 = next^[n] 0x12345678 :=
    fun n hn ↦ power_eq next_represents hn (by decide)
  obtain ⟨hperiod, hpart⟩ := power_seed
  apply minimalPeriod_eq
  · rw [← hpower period (by decide), hperiod]
  · intro p hp hdvd
    rw [← hpower _ ((Nat.div_le_self _ _).trans_lt (by decide))]
    exact hpart p (period_primes hp hdvd)

theorem iterate_seed_pos (n : ℕ) : 0 < next^[n] 0x12345678 := by
  rw [Nat.pos_iff_ne_zero]
  intro hzero
  have hfixed : ∀ k, next^[k] 0 = 0 := fun k ↦ iterate_fixed next_additive.zero k
  have hback : next^[n * period] 0x12345678 = 0x12345678 := by
    rw [← minimalPeriod_seed]
    exact (isPeriodicPt_minimalPeriod next 0x12345678).const_mul n
  have hlater : n * period = n * (period - 1) + n := by
    rw [← Nat.mul_succ, Nat.succ_eq_add_one, Nat.sub_add_cancel (by decide)]
  rw [hlater, iterate_add_apply, hzero, hfixed] at hback
  exact absurd hback (by decide)

theorem iterate_seed_lt (n : ℕ) : next^[n] 0x12345678 < 2 ^ 32 := by
  have hword := toNat_iterate n rngSeed
  exact hword ▸ (rngNext^[n] rngSeed).toNat_lt

/-- A state of the full period runs through all the states that are not zero. -/
theorem orbit_eq {x : ℕ} (hx : minimalPeriod next x = period)
    (hmem : ∀ n, next^[n] x ∈ Finset.Ico 1 (2 ^ 32)) :
    (Finset.range period).image (fun n ↦ next^[n] x) = Finset.Ico 1 (2 ^ 32) := by
  apply Finset.eq_of_subset_of_card_le
  · intro y hy
    obtain ⟨n, -, rfl⟩ := Finset.mem_image.mp hy
    exact hmem n
  · rw [Finset.card_image_of_injOn, Finset.card_range, Nat.card_Ico]
    · exact Nat.le_refl _
    · intro i hi j hj heq
      rw [Finset.coe_range, ← hx] at hi hj
      exact iterate_injOn_Iio_minimalPeriod hi hj heq

theorem iterate_seed_mem (n : ℕ) : next^[n] 0x12345678 ∈ Finset.Ico 1 (2 ^ 32) :=
  Finset.mem_Ico.mpr ⟨iterate_seed_pos n, iterate_seed_lt n⟩

theorem toNat_mem {x : UInt32} (hx : x ≠ 0) : x.toNat ∈ Finset.Ico 1 (2 ^ 32) := by
  have hpos : x.toNat ≠ 0 := fun h ↦ hx (UInt32.toNat_inj.mp h)
  exact Finset.mem_Ico.mpr ⟨Nat.one_le_iff_ne_zero.mpr hpos, x.toNat_lt⟩

/-- The generator has the full period: between any two states that are not zero
there is one number of calls below `2 ^ 32 - 1`. -/
theorem rng_full_period (x y : UInt32) (hx : x ≠ 0) (hy : y ≠ 0) :
    ∃! n, n < 2 ^ 32 - 1 ∧ rngNext^[n] x = y := by
  have hseed := orbit_eq minimalPeriod_seed iterate_seed_mem
  have hfrom := toNat_mem hx
  rw [← hseed] at hfrom
  obtain ⟨a, -, ha⟩ := Finset.mem_image.mp hfrom
  have hperiodic : (0x12345678 : ℕ) ∈ periodicPts next :=
    minimalPeriod_pos_iff_mem_periodicPts.mp (minimalPeriod_seed ▸ by decide)
  have hminimal : minimalPeriod next x.toNat = period := by
    rw [← ha, minimalPeriod_apply_iterate hperiodic, minimalPeriod_seed]
  have hmem : ∀ n, next^[n] x.toNat ∈ Finset.Ico 1 (2 ^ 32) := by
    intro n
    rw [← ha, ← iterate_add_apply]
    exact iterate_seed_mem (n + a)
  have hto := toNat_mem hy
  rw [← orbit_eq hminimal hmem] at hto
  obtain ⟨n, hn, hny⟩ := Finset.mem_image.mp hto
  refine ⟨n, ⟨Finset.mem_range.mp hn, ?_⟩, ?_⟩
  · rw [← UInt32.toNat_inj, toNat_iterate]
    exact hny
  · rintro k ⟨hk, rfl⟩
    rw [toNat_iterate] at hny
    apply iterate_injOn_Iio_minimalPeriod (f := next) (x := x.toNat)
    · exact hminimal ▸ hk
    · exact hminimal ▸ Finset.mem_range.mp hn
    · exact hny.symm

theorem rng_full_period_seed : ∃! n, n < 2 ^ 32 - 1 ∧ rngNext^[n] rngSeed = 1 :=
  rng_full_period rngSeed 1 (by decide) (by decide)

end LowLevel.ProperMachine.BenchRng
