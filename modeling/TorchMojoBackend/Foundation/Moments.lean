/-
  `Foundation.Moments`: means and sums of squared deviations, merged exactly.

  Everything in this file is independent of the modelled program.  A state of a count, a
  mean and a sum of squared deviations describes the values it was made of, in any order.
  States are made by adding one value or by merging two states, and a state of no value
  is neutral.
-/
import Mathlib.Algebra.BigOperators.Ring.Multiset
import Mathlib.Algebra.CharZero.Defs
import Mathlib.Algebra.Field.Basic
import Mathlib.Tactic.FieldSimp
import Mathlib.Tactic.LinearCombination
import Mathlib.Tactic.Ring

set_option autoImplicit false

namespace TorchMojoBackend.Foundation

universe u

@[ext]
structure Moments (K : Type u) where
  mean : K
  m2 : K
  count : K

namespace Moments

variable {K : Type u} [Field K]

/-- No value. -/
def zero : Moments K := ⟨0, 0, 0⟩

/-- The mean of some values. -/
def meanOf (l : Multiset K) : K := l.sum / l.card

/-- The sum of the squared deviations from the mean. -/
def deviations (l : Multiset K) : K := (l.map fun x => (x - meanOf l) ^ 2).sum

/-- A state that was made of some values; the mean of no values is anything. -/
structure Describes (s : Moments K) (l : Multiset K) : Prop where
  count_eq : s.count = l.card
  mean_eq : s.count * s.mean = l.sum
  m2_eq : s.m2 + s.count * s.mean ^ 2 = (l.map (· ^ 2)).sum

theorem describes_zero : Describes (zero : Moments K) 0 := by
  refine ⟨?_, ?_, ?_⟩ <;> simp [zero]

variable {s a b : Moments K} {l A B : Multiset K}

theorem Describes.m2_of_empty (h : Describes s 0) : s.count = 0 ∧ s.m2 = 0 := by
  have hcount : s.count = 0 := by simpa using h.count_eq
  have hm2 := h.m2_eq
  rw [hcount, zero_mul, add_zero] at hm2
  exact ⟨hcount, by simpa using hm2⟩

section
variable [CharZero K]

theorem card_ne_zero (hl : l ≠ 0) : (l.card : K) ≠ 0 :=
  Nat.cast_ne_zero.mpr fun hzero => hl (Multiset.card_eq_zero.mp hzero)

theorem Describes.count_eq_zero_iff (h : Describes s l) : s.count = 0 ↔ l = 0 := by
  rw [h.count_eq, Nat.cast_eq_zero, Multiset.card_eq_zero]

theorem Describes.mean_of (h : Describes s l) (hl : l ≠ 0) : s.mean = meanOf l := by
  have hmean := h.mean_eq
  rw [h.count_eq] at hmean
  rw [meanOf, eq_div_iff (card_ne_zero hl), mul_comm, hmean]

omit [CharZero K] in
/-- The squares of deviations, multiplied out. -/
theorem sum_sq_sub (l : Multiset K) (c : K) : (l.map fun x => (x - c) ^ 2).sum =
    (l.map (· ^ 2)).sum - 2 * c * l.sum + l.card * c ^ 2 := by
  induction l using Multiset.induction_on with
  | empty => simp
  | cons x l ih =>
      rw [Multiset.map_cons, Multiset.sum_cons, ih, Multiset.map_cons, Multiset.sum_cons,
        Multiset.sum_cons, Multiset.card_cons, Nat.cast_add, Nat.cast_one]
      ring

theorem Describes.m2_of (h : Describes s l) : s.m2 = deviations l := by
  by_cases hl : l = 0
  · subst hl
    rw [h.m2_of_empty.2]
    simp [deviations]
  · rw [deviations, sum_sq_sub, ← h.m2_eq, ← h.mean_of hl, ← h.mean_eq, h.count_eq]
    ring

/-- The exact state of some values. -/
theorem describes_exact (hl : l ≠ 0) : Describes ⟨meanOf l, deviations l, l.card⟩ l := by
  have hsum : (l.card : K) * meanOf l = l.sum := by
    rw [meanOf, mul_div_cancel₀ _ (card_ne_zero hl)]
  refine ⟨rfl, hsum, ?_⟩
  rw [deviations, sum_sq_sub, ← hsum]
  ring

/-! ## Merging -/

/-- The equations of a merge, without divisions. -/
theorem Describes.merge (ha : Describes a A) (hb : Describes b B)
    (hcount : s.count = a.count + b.count)
    (hmean : s.count * s.mean = a.count * a.mean + b.count * b.mean)
    (hm2 : s.count * s.m2 = s.count * (a.m2 + b.m2) + (a.mean - b.mean) ^ 2 * a.count * b.count)
    (hempty : s.count = 0 → s.m2 = 0) : Describes s (A + B) := by
  refine ⟨?_, ?_, ?_⟩
  · rw [hcount, ha.count_eq, hb.count_eq, Multiset.card_add, Nat.cast_add]
  · rw [hmean, ha.mean_eq, hb.mean_eq, Multiset.sum_add]
  · rw [Multiset.map_add, Multiset.sum_add, ← ha.m2_eq, ← hb.m2_eq]
    by_cases hzero : s.count = 0
    · -- neither side has a value
      have hcards : ((A.card + B.card : Nat) : K) = 0 := by
        rw [Nat.cast_add, ← ha.count_eq, ← hb.count_eq, ← hcount, hzero]
      rw [Nat.cast_eq_zero, Nat.add_eq_zero_iff, Multiset.card_eq_zero,
        Multiset.card_eq_zero] at hcards
      obtain ⟨rfl, rfl⟩ := hcards
      rw [hempty hzero, hzero, ha.m2_of_empty.1, ha.m2_of_empty.2, hb.m2_of_empty.1,
        hb.m2_of_empty.2]
      ring
    · refine mul_left_cancel₀ hzero ?_
      have hsq : (s.count * s.mean) ^ 2 = (a.count * a.mean + b.count * b.mean) ^ 2 := by rw [hmean]
      linear_combination hm2 + hsq - (a.count * a.mean ^ 2 + b.count * b.mean ^ 2) * hcount

omit [CharZero K] in
/-- One more value. -/
theorem Describes.add_value (ha : Describes a A) (x : K)
    (hcount : s.count = a.count + 1) (hmean : s.count * (s.mean - a.mean) = x - a.mean)
    (hm2 : s.m2 = a.m2 + (x - a.mean) * (x - s.mean)) : Describes s (x ::ₘ A) := by
  refine ⟨?_, ?_, ?_⟩
  · rw [hcount, ha.count_eq, Multiset.card_cons, Nat.cast_add, Nat.cast_one]
  · rw [Multiset.sum_cons, ← ha.mean_eq]
    linear_combination hmean + a.mean * hcount
  · rw [Multiset.map_cons, Multiset.sum_cons, ← ha.m2_eq, hm2]
    linear_combination (s.mean + a.mean) * hmean + a.mean ^ 2 * hcount

end

end Moments

end TorchMojoBackend.Foundation
