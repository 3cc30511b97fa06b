/-
  `Foundation.Scalar`: scalars as their comparisons see them.

  Everything in this file is independent of the modelled program.  A scalar has a
  value in a linear order or is not a number; scalars that compare equal, such as the
  two zeros of a float, share a value.  The comparisons are those of IEEE floats, and
  of integers where every scalar has a value.
-/
import Mathlib.Order.Basic
import Mathlib.Order.Lattice
import Mathlib.Order.WithBot

set_option autoImplicit false

namespace TorchMojoBackend.Foundation

universe u v

/-- Scalars with values in `V`; `none` is not a number. -/
class Scalar (α : Type u) (V : outParam (Type v)) where
  value : α → Option V

namespace Scalar

variable {α : Type u} {V : Type v} [LinearOrder V] [Scalar α V]

/-- `a != a` -/
def isNaN (a : α) : Bool := (value a).isNone

/-- `a < b` -/
def lt (a b : α) : Bool :=
  match value a, value b with
  | some x, some y => decide (x < y)
  | _, _ => false

/-- `a > b` -/
def gt (a b : α) : Bool := lt b a

/-- `a == b` -/
def eq (a b : α) : Bool :=
  match value a, value b with
  | some x, some y => decide (x = y)
  | _, _ => false

/-- `a <= b` -/
def le (a b : α) : Bool :=
  match value a, value b with
  | some x, some y => decide (x ≤ y)
  | _, _ => false

/-- `a >= b` -/
def ge (a b : α) : Bool := le b a

/-- Numbers in order, then what is none. -/
def rank (a : α) : WithTop V :=
  match value a with
  | some x => x
  | none => ⊤

omit [LinearOrder V] in
theorem isNaN_iff {a : α} : isNaN a = true ↔ value a = none := Option.isNone_iff_eq_none

omit [LinearOrder V] in
theorem not_isNaN_iff {a : α} : isNaN a = false ↔ ∃ x, value a = some x := by
  rw [isNaN, Option.isNone_eq_false_iff]
  exact Option.isSome_iff_exists

theorem eq_iff {a b : α} : eq a b = true ↔ ∃ x, value a = some x ∧ value b = some x := by
  unfold eq
  cases value a <;> cases value b <;> simp [eq_comm]

theorem rank_lt_iff {a b : α} : rank a < rank b ↔
    (isNaN a = false ∧ isNaN b = true) ∨ lt a b = true := by
  unfold rank isNaN lt
  cases value a <;> cases value b <;> simp

theorem rank_eq_iff {a b : α} : rank a = rank b ↔
    (isNaN a = true ∧ isNaN b = true) ∨ eq a b = true := by
  unfold rank isNaN eq
  cases value a <;> cases value b <;> simp

/-- Numbers and one that is none. -/
instance : Scalar (Option V) V := ⟨id⟩

end Scalar

end TorchMojoBackend.Foundation
