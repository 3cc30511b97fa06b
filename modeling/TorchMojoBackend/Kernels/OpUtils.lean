/-
  `Kernels.OpUtils`: what the data-movement kernels share.

  Elements are moved as bit patterns, so a kernel is chosen by the size of its elements
  alone.  A vector is at most 16 bytes wide and is aligned to its width.
-/
import Mathlib.Algebra.Group.Nat.Defs
import Mathlib.Data.Nat.Notation

set_option autoImplicit false

namespace TorchMojoBackend.Kernels.OpUtils

def MAX_RANK : Nat := 8
def BW_MAX_BLOCKS : Nat := 2 ^ 22
def MAX_GRID_Y : Nat := 65535

/-- The integer type a bit pattern is moved through. -/
inductive BitsType where
  | uint8 | uint16 | uint32 | uint64
  deriving DecidableEq

def BitsType.sizeOf : BitsType → Nat
  | .uint8 => 1
  | .uint16 => 2
  | .uint32 => 4
  | .uint64 => 8

/-- `ALIGN` of a kernel. -/
def ALIGN (dtype : BitsType) (width : Nat) : Nat := min 16 (width * dtype.sizeOf)

/-- The widest vector. -/
def WIDEST (dtype : BitsType) : Nat := 16 / dtype.sizeOf

def ceildiv (a b : Nat) : Nat := (a + b - 1) / b

theorem sizeOf_pos (dtype : BitsType) : 0 < dtype.sizeOf := by
  cases dtype <;> decide

theorem WIDEST_mul (dtype : BitsType) : WIDEST dtype * dtype.sizeOf = 16 := by
  cases dtype <;> rfl

theorem ALIGN_one (dtype : BitsType) : ALIGN dtype 1 = dtype.sizeOf := by
  cases dtype <;> rfl

theorem ALIGN_WIDEST (dtype : BitsType) : ALIGN dtype (WIDEST dtype) = 16 := by
  unfold ALIGN
  rw [WIDEST_mul, Nat.min_self]

theorem ceildiv_mul_ge {n b : Nat} (hb : 0 < b) : n ≤ ceildiv n b * b := by
  unfold ceildiv
  have hsplit := Nat.div_add_mod' (n + b - 1) b
  have hlt := Nat.mod_lt (n + b - 1) hb
  omega

theorem ceildiv_mul_lt {n b : Nat} (hb : 0 < b) : ceildiv n b * b < n + b :=
  Nat.lt_of_le_of_lt (Nat.div_mul_le_self _ _) (by omega)

theorem ceildiv_pos {n b : Nat} (hn : 0 < n) (hb : 0 < b) : 0 < ceildiv n b :=
  Nat.pos_of_mul_pos_right (Nat.lt_of_lt_of_le hn (ceildiv_mul_ge hb))

/-- The quotient is the least factor that covers. -/
theorem ceildiv_le {n b q : Nat} (hb : 0 < b) (h : n ≤ q * b) : ceildiv n b ≤ q := by
  unfold ceildiv
  refine Nat.le_of_lt_succ (Nat.div_lt_of_lt_mul ?_)
  rw [Nat.mul_succ, Nat.mul_comm]
  omega

end TorchMojoBackend.Kernels.OpUtils
