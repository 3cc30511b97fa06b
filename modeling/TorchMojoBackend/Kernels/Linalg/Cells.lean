/-
  `Kernels.Linalg.Cells`: the memory of the linear algebra kernels.

  Source: tmb/kernels/linalg/entry.mojo (pointer arguments, shared arrays).

  Float arguments hold elements of a type `K`, integer arguments and arrays hold integers.  A
  matrix operand is addressed through a row, a column and a batch stride.
-/
import TorchMojoBackend.Foundation.ThreadCode

set_option autoImplicit false

namespace TorchMojoBackend.Kernels.Linalg

open TorchMojoBackend.Foundation

inductive FloatArg where
  | a | b
  deriving DecidableEq

inductive IntArg where
  | piv | info
  deriving DecidableEq

/-- A cell: of a float or an integer argument, or of a shared array of a block. -/
inductive Cell where
  | float (arg : FloatArg) (addr : Int)
  | int (arg : IntArg) (addr : Int)
  | sv (block tid : Nat)
  | si (block tid : Nat)
  deriving DecidableEq

namespace Cell

@[match_pattern] abbrev a (addr : Int) : Cell := .float .a addr
@[match_pattern] abbrev b (addr : Int) : Cell := .float .b addr
@[match_pattern] abbrev piv (addr : Int) : Cell := .int .piv addr
@[match_pattern] abbrev info (addr : Int) : Cell := .int .info addr

abbrev Val (K : Type) : Cell → Type
  | .float _ _ => K
  | .int _ _ => Int
  | .sv _ _ => K
  | .si _ _ => Int

end Cell

section
variable {K : Type}

abbrev loadA (addr : Int) : Code (Cell.Val K) K := Code.get (Cell.a addr)
abbrev storeA (addr : Int) (x : K) : Code (Cell.Val K) Unit := Code.put (Cell.a addr) x
abbrev loadB (addr : Int) : Code (Cell.Val K) K := Code.get (Cell.b addr)
abbrev storeB (addr : Int) (x : K) : Code (Cell.Val K) Unit := Code.put (Cell.b addr) x
abbrev storePiv (addr x : Int) : Code (Cell.Val K) Unit := Code.put (Cell.piv addr) x
abbrev storeInfo (addr x : Int) : Code (Cell.Val K) Unit := Code.put (Cell.info addr) x
abbrev loadPiv (addr : Int) : Code (Cell.Val K) Int := Code.get (Cell.piv addr)

end

/-- The address of the element `(i, j)` of a matrix. -/
def el (rs cs base : Int) (i j : Nat) : Int := base + i * rs + j * cs

/-- The addresses of the elements of a matrix. -/
def InMatrix (rows cols : Nat) (rs cs base addr : Int) : Prop :=
  ∃ i j : Nat, i < rows ∧ j < cols ∧ addr = base + i * rs + j * cs

/-- The addresses of the elements of a contiguous vector. -/
def InVector (n : Nat) (base addr : Int) : Prop := ∃ i : Nat, i < n ∧ addr = base + i

/-- `for i in range(start, stop)` -/
def rangeFrom (start stop : Nat) : List Nat := List.range' start (stop - start)

theorem mem_rangeFrom {start stop i : Nat} : i ∈ rangeFrom start stop ↔ start ≤ i ∧ i < stop := by
  rw [rangeFrom, List.mem_range'_1]
  omega

end TorchMojoBackend.Kernels.Linalg
