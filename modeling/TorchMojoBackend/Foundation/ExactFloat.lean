/-
  `Foundation.ExactFloat`: floats as exact numbers, infinities and NaN.

  Everything in this file is independent of the modelled program.  Comparisons are
  false at NaN, as in IEEE 754, and an integer is rounded to the nearest float, ties to
  even.
-/
import Mathlib.Data.Rat.Floor
import Mathlib.Data.Nat.Log

set_option autoImplicit false

namespace TorchMojoBackend.Foundation

inductive ExactFloat where
  | fin (q : ℚ)
  | inf (negative : Bool)
  | nan
  deriving DecidableEq, Repr

namespace ExactFloat

def le : ExactFloat → ExactFloat → Bool
  | fin a, fin b => decide (a ≤ b)
  | inf n, inf m => n || !m
  | inf n, fin _ => n
  | fin _, inf n => !n
  | _, _ => false

def lt : ExactFloat → ExactFloat → Bool
  | fin a, fin b => decide (a < b)
  | inf n, inf m => n && !m
  | inf n, fin _ => n
  | fin _, inf n => !n
  | _, _ => false

/-- `x - x == 0.0`. -/
def isFinite : ExactFloat → Bool
  | fin _ => true
  | _ => false

def abs : ExactFloat → ExactFloat
  | fin q => fin |q|
  | inf _ => inf false
  | nan => nan

@[simp] theorem le_fin (a b : ℚ) : le (fin a) (fin b) = decide (a ≤ b) := rfl
@[simp] theorem lt_fin (a b : ℚ) : lt (fin a) (fin b) = decide (a < b) := rfl
@[simp] theorem le_nan (x : ExactFloat) : le x nan = false := by cases x <;> rfl
@[simp] theorem nan_le (x : ExactFloat) : le nan x = false := by cases x <;> rfl
@[simp] theorem lt_nan (x : ExactFloat) : lt x nan = false := by cases x <;> rfl
@[simp] theorem nan_lt (x : ExactFloat) : lt nan x = false := by cases x <;> rfl
@[simp] theorem inf_le_fin (n : Bool) (a : ℚ) : le (inf n) (fin a) = n := rfl
@[simp] theorem fin_le_inf (n : Bool) (a : ℚ) : le (fin a) (inf n) = !n := rfl
@[simp] theorem inf_lt_fin (n : Bool) (a : ℚ) : lt (inf n) (fin a) = n := rfl
@[simp] theorem fin_lt_inf (n : Bool) (a : ℚ) : lt (fin a) (inf n) = !n := rfl
@[simp] theorem isFinite_fin (q : ℚ) : isFinite (fin q) = true := rfl
@[simp] theorem isFinite_inf (n : Bool) : isFinite (inf n) = false := rfl
@[simp] theorem isFinite_nan : isFinite nan = false := rfl

/-- Only numbers lie between two numbers. -/
theorem between_of_isFinite {f : ExactFloat} (hf : f.isFinite = false) (a b : ℚ) :
    (le (fin a) f && le f (fin b)) = false := by
  cases f with
  | fin q => exact nomatch hf
  | inf n => cases n <;> rfl
  | nan => rfl

/-! ## Integers as floats -/

/-- The nearest number of at most `p` significant bits, ties to even. -/
def roundBits (p n : Nat) : Nat :=
  let drop := Nat.log2 n + 1 - p
  let q := n / 2 ^ drop
  let r := n % 2 ^ drop
  (if 2 ^ drop < 2 * r ∨ 2 * r = 2 ^ drop ∧ q % 2 = 1 then q + 1 else q) * 2 ^ drop

/-- Numbers of `p` bits stay as they are. -/
theorem roundBits_of_lt {p n : Nat} (hp : 0 < p) (h : n < 2 ^ p) : roundBits p n = n := by
  have hdrop : Nat.log2 n + 1 - p = 0 := by
    by_cases hn : n = 0
    · subst hn
      have hlog : Nat.log2 0 = 0 := by decide
      omega
    · have := (Nat.log2_lt hn).mpr h
      omega
  unfold roundBits
  simp [hdrop, Nat.mod_one]

/-- Larger numbers stay larger. -/
theorem le_roundBits {p n : Nat} (hp : 0 < p) (h : 2 ^ p ≤ n) : 2 ^ p ≤ roundBits p n := by
  have hn : n ≠ 0 := by
    have := Nat.two_pow_pos p
    omega
  have hlog : p ≤ Nat.log2 n := (Nat.le_log2 hn).mpr h
  have hsplit : 2 ^ Nat.log2 n = 2 ^ (p - 1) * 2 ^ (Nat.log2 n + 1 - p) := by
    rw [← Nat.pow_add]
    congr 1
    omega
  have hquot : 2 ^ (p - 1) ≤ n / 2 ^ (Nat.log2 n + 1 - p) := by
    rw [Nat.le_div_iff_mul_le (Nat.two_pow_pos _), ← hsplit]
    exact Nat.log2_self_le hn
  unfold roundBits
  dsimp only
  calc 2 ^ p ≤ 2 ^ Nat.log2 n := Nat.pow_le_pow_right (by decide) hlog
    _ = 2 ^ (p - 1) * 2 ^ (Nat.log2 n + 1 - p) := hsplit
    _ ≤ _ := Nat.mul_le_mul_right _ (by split <;> omega)

/-- An integer as a float of 53 significant bits. -/
def ofInt (n : Int) : ExactFloat :=
  fin (if n < 0 then -(roundBits 53 n.natAbs : ℚ) else roundBits 53 n.natAbs)

/-- An integer's float is the integer, or both are beyond `2 ^ 53` on one side. -/
theorem ofInt_cases (n : Int) : ∃ m : Int, ofInt n = fin m ∧
    (m = n ∨ (2 ^ 53 ≤ m ∧ 2 ^ 53 ≤ n) ∨ (m ≤ -2 ^ 53 ∧ n ≤ -2 ^ 53)) := by
  refine ⟨if n < 0 then -(roundBits 53 n.natAbs : Int) else roundBits 53 n.natAbs, ?_, ?_⟩
  · unfold ofInt
    split <;> push_cast <;> rfl
  · by_cases hlt : n.natAbs < 2 ^ 53
    · rw [roundBits_of_lt (by decide) hlt]
      refine Or.inl ?_
      split <;> omega
    · have hle := le_roundBits (p := 53) (n := n.natAbs) (by decide) (by omega)
      refine Or.inr ?_
      split <;> omega

/-- A small integer is its float. -/
theorem ofInt_of_lt {n : Int} (hlo : -2 ^ 53 < n) (hhi : n < 2 ^ 53) : ofInt n = fin n := by
  obtain ⟨m, hm, hcases⟩ := ofInt_cases n
  rw [hm]
  obtain rfl : m = n := by omega
  rfl

/-! ## Floats as integers -/

/-- A number without its fraction. -/
def truncate (q : ℚ) : Int := if 0 ≤ q then ⌊q⌋ else ⌈q⌉

@[simp] theorem truncate_intCast (n : Int) : truncate n = n := by
  unfold truncate
  split
  · exact Int.floor_intCast n
  · exact Int.ceil_intCast n

theorem le_truncate {q : ℚ} {a : Int} (h : (a : ℚ) ≤ q) : a ≤ truncate q := by
  unfold truncate
  split
  · exact Int.le_floor.mpr h
  · exact Int.cast_le.mp (h.trans (Int.le_ceil q))

theorem truncate_lt {q : ℚ} {b : Int} (hb : 0 < b) (h : q < b) : truncate q < b := by
  unfold truncate
  split
  · exact Int.floor_lt.mpr h
  · rename_i hneg
    exact lt_of_le_of_lt (Int.ceil_le.mpr (by push_cast; exact (not_le.mp hneg).le)) hb

theorem truncate_le {q : ℚ} {b : Int} (h : q ≤ b) : truncate q ≤ b := by
  unfold truncate
  split
  · exact Int.cast_le.mp ((Int.floor_le q).trans h)
  · exact Int.ceil_le.mpr h

end ExactFloat

end TorchMojoBackend.Foundation
