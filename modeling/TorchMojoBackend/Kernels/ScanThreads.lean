/-
  `Kernels.ScanThreads`: the shape of a block of the Sklansky scan.

  Source: tmb/kernels/scan/entry.mojo (`_cuda_log_threads_x`, `_scan`).

  Sizes are converted to 32 bits, and all arithmetic is in 32 bits.  A bit that is shifted out is
  lost, so that no power of two exceeds 2 ^ 31.
-/
import TorchMojoBackend.Kernels.Scan

set_option autoImplicit false

namespace TorchMojoBackend.Kernels.Scan

/-- `while (UInt32(1) << l) < size: l += 1`, if it ends within `fuel` tests. -/
def countBits (size : BitVec 32) : Nat → BitVec 32 → Option (BitVec 32)
  | 0, _ => none
  | fuel + 1, l => if 1#32 <<< l < size then countBits size fuel (l + 1) else some l

/-- `_cuda_log_threads_x`, if both loops end within `fuel` tests. -/
def _cuda_log_threads_x (fuel : Nat) (num_rows row_size : Int) : Option Nat := do
  let lx ← countBits (BitVec.ofInt 32 row_size) fuel 0
  let ly ← countBits (BitVec.ofInt 32 num_rows) fuel 0
  let diff := lx - ly
  let l := (9#32 + diff) / 2#32
  some (min (max l.toNat 4) 9)

/-! ## The loops -/

theorem shift_toNat (l : BitVec 32) : (1#32 <<< l).toNat = 2 ^ l.toNat % 2 ^ 32 := by
  rw [BitVec.shiftLeft_eq', BitVec.toNat_shiftLeft, BitVec.toNat_ofNat, Nat.shiftLeft_eq,
    Nat.one_mod_two_pow (by decide), Nat.one_mul]

/-- No power of two is larger. -/
theorem shift_le (l : BitVec 32) : (1#32 <<< l).toNat ≤ 2 ^ 31 := by
  rw [shift_toNat]
  by_cases hl : l.toNat < 32
  · exact Nat.le_trans (Nat.mod_le _ _) (Nat.pow_le_pow_right (by decide) (by omega))
  · have hdvd : 2 ^ 32 ∣ 2 ^ l.toNat := Nat.pow_dvd_pow 2 (by omega)
    rw [Nat.mod_eq_zero_of_dvd hdvd]
    exact Nat.zero_le _

/-- A loop up to a size that a power of two reaches. -/
theorem countBits_ends {size : BitVec 32} (hsize : size.toNat ≤ 2 ^ 31) (fuel : Nat) (l : BitVec 32)
    (hl : l.toNat < 32) (hfuel : 32 ≤ l.toNat + fuel) : ∃ r, countBits size fuel l = some r := by
  induction fuel generalizing l with
  | zero => omega
  | succ fuel ih =>
      unfold countBits
      split
      · rename_i hlt
        -- the last power of two is not below the size
        have hne : l.toNat ≠ 31 := fun h => by
          rw [BitVec.lt_def, shift_toNat, h] at hlt
          omega
        have hnext : (l + 1).toNat = l.toNat + 1 := by
          rw [BitVec.toNat_add, show (1 : BitVec 32).toNat = 1 from rfl]
          exact Nat.mod_eq_of_lt (by omega)
        exact ih (l + 1) (by omega) (by omega)
      · exact ⟨l, rfl⟩

/-- A loop up to a size that no power of two reaches. -/
theorem countBits_none {size : BitVec 32} (hsize : 2 ^ 31 < size.toNat) (fuel : Nat) (l : BitVec 32) :
    countBits size fuel l = none := by
  induction fuel generalizing l with
  | zero => rfl
  | succ fuel ih =>
      have hlt : 1#32 <<< l < size := BitVec.lt_def.mpr (Nat.lt_of_le_of_lt (shift_le l) hsize)
      rw [countBits, if_pos hlt]
      exact ih (l + 1)

/-! ## The shape -/

theorem cuda_log_threads_x_eq {fuel : Nat} {num_rows row_size : Int} {l : Nat}
    (h : _cuda_log_threads_x fuel num_rows row_size = some l) :
    ∃ lx ly : BitVec 32, countBits (BitVec.ofInt 32 row_size) fuel 0 = some lx ∧
      countBits (BitVec.ofInt 32 num_rows) fuel 0 = some ly ∧ l = cudaLogThreadsX lx.toNat ly.toNat := by
  obtain ⟨lx, hx, h⟩ := Option.bind_eq_some_iff.mp h
  obtain ⟨ly, hy, h⟩ := Option.bind_eq_some_iff.mp h
  refine ⟨lx, ly, hx, hy, ?_⟩
  rw [← Option.some.inj h, cudaLogThreadsX, BitVec.toNat_udiv, BitVec.toNat_add, BitVec.toNat_sub]
  have hly := ly.isLt
  have hlx := lx.isLt
  rw [show (9#32).toNat = 9 from rfl, show (2#32).toNat = 2 from rfl]
  omega

/-- A block of `2 ^ l` by `512 / 2 ^ l` threads. -/
theorem block_threads {l : Nat} (hl : l ≤ 9) : 2 ^ l * (512 / 2 ^ l) = 512 :=
  Nat.mul_div_cancel' (Nat.pow_dvd_pow 2 hl)

/-- The loops end if and only if the sizes are at most 2 ^ 31 in 32 bits. -/
theorem cuda_log_threads_x_ends (num_rows row_size : Int) :
    (∃ fuel l, _cuda_log_threads_x fuel num_rows row_size = some l ∧ 4 ≤ l ∧ l ≤ 9 ∧ 2 ^ l * (512 / 2 ^ l) = 512) ↔
      num_rows % 2 ^ 32 ≤ 2 ^ 31 ∧ row_size % 2 ^ 32 ≤ 2 ^ 31 := by
  have hsize : ∀ n : Int, ((BitVec.ofInt 32 n).toNat : Int) = n % 2 ^ 32 := fun n => by
    rw [BitVec.toNat_ofInt]
    omega
  have hrow := hsize row_size
  have hnum := hsize num_rows
  constructor
  · rintro ⟨fuel, l, h, -⟩
    obtain ⟨lx, ly, hx, hy, -⟩ := cuda_log_threads_x_eq h
    refine ⟨Int.not_lt.mp fun hlarge => ?_, Int.not_lt.mp fun hlarge => ?_⟩
    · have hover : 2 ^ 31 < (BitVec.ofInt 32 num_rows).toNat := by omega
      exact nomatch (countBits_none hover fuel 0).symm.trans hy
    · have hover : 2 ^ 31 < (BitVec.ofInt 32 row_size).toNat := by omega
      exact nomatch (countBits_none hover fuel 0).symm.trans hx
  · rintro ⟨hr, hs⟩
    have hx32 : (BitVec.ofInt 32 row_size).toNat ≤ 2 ^ 31 := by omega
    have hy32 : (BitVec.ofInt 32 num_rows).toNat ≤ 2 ^ 31 := by omega
    obtain ⟨lx, hx⟩ := countBits_ends hx32 32 0 (by decide) (by decide)
    obtain ⟨ly, hy⟩ := countBits_ends hy32 32 0 (by decide) (by decide)
    refine ⟨32, min (max ((9#32 + (lx - ly)) / 2#32).toNat 4) 9, ?_, by omega, by omega, block_threads (by omega)⟩
    unfold _cuda_log_threads_x
    rw [hx, hy]
    rfl

/-- A row of 2 ^ 31 + 1 elements: the first loop never ends. -/
theorem cuda_log_threads_x_hangs : ¬ ∀ num_rows row_size : Int, 1 ≤ num_rows → 1 ≤ row_size →
    ∃ fuel l, _cuda_log_threads_x fuel num_rows row_size = some l := fun h => by
  obtain ⟨fuel, l, hl⟩ := h 1 2147483649 (by decide) (by decide)
  obtain ⟨lx, -, hx, -⟩ := cuda_log_threads_x_eq hl
  have hover : 2 ^ 31 < (BitVec.ofInt 32 2147483649).toNat := by decide
  exact nomatch (countBits_none hover fuel 0).symm.trans hx

end TorchMojoBackend.Kernels.Scan
