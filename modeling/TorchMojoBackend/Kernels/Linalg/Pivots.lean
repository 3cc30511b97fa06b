/-
  `Kernels.Linalg.Pivots`: row interchanges, and solves with a Bunch-Kaufman factorization.

  Source: tmb/kernels/linalg/entry.mojo (`_laswp_kernel`, `_sytrs_kernel`).

  A thread does the columns of its grid stride; no two threads share a column.
-/
import TorchMojoBackend.Foundation.Launch
import TorchMojoBackend.Kernels.Linalg.Cells

set_option autoImplicit false

namespace TorchMojoBackend.Kernels.Linalg

open TorchMojoBackend.Foundation
open TorchMojoBackend.Foundation.Code (each)

variable {K : Type}

/-! ## Row interchanges -/

/-- The column `t` of `_laswp_kernel`. -/
def laswpColumn (k nrows ncols : Nat) (bRs bCs bBs pivBs : Int) (forward : Bool) (t : Nat) :
    Code (Cell.Val K) Unit :=
  let bb := t / ncols
  let c := t % ncols
  let base : Int := bb * bBs + c * bCs
  each (List.range k) fun step => do
    let i := if forward then step else k - 1 - step
    let v ← loadPiv (bb * pivBs + i)
    let p := v - 1
    -- an out-of-range pivot is skipped
    if p ≠ i ∧ 0 ≤ p ∧ p < nrows ∧ i < nrows then do
      let x ← loadB (base + i * bRs)
      let y ← loadB (base + p * bRs)
      storeB (base + i * bRs) y
      storeB (base + p * bRs) x
    else pure ()

/-- The columns of a thread: `t` from its index on, by the number of threads. -/
def threadColumns (threads total thread : Nat) : List Nat := strided total threads total thread

/-- A thread of `_laswp_kernel`. -/
def _laswp_kernel (k nrows ncols batch : Nat) (bRs bCs bBs pivBs : Int) (forward : Bool)
    (threads thread : Nat) : Code (Cell.Val K) Unit :=
  each (threadColumns threads (batch * ncols) thread)
    (laswpColumn k nrows ncols bRs bCs bBs pivBs forward)

/-! ## The solve -/

section Solve

variable [One K] [Zero K] [Add K] [Sub K] [Mul K] [Div K]

section Column

variable (n : Nat) (aRs aCs bRs ab pb cb : Int)

/-- `swap(i, j)` -/
def sytrsSwap (i j : Int) : Code (Cell.Val K) Unit :=
  if i ≠ j ∧ 0 ≤ j ∧ j < n then do
    let x ← loadB (cb + i * bRs)
    let y ← loadB (cb + j * bRs)
    storeB (cb + i * bRs) y
    storeB (cb + j * bRs) x
  else pure ()

/-- `for i in range(start, n)`: B(i) -= A(i, j) * x -/
def sytrsUpdate (start : Nat) (j : Int) (x : K) : Code (Cell.Val K) Unit :=
  each (rangeFrom start n) fun i => do
    let b ← loadB (cb + i * bRs)
    let l ← loadA (ab + i * aRs + j * aCs)
    storeB (cb + i * bRs) (b - l * x)

/-- `for i in range(start, n)`: acc += B(i) * A(i, j) -/
def sytrsDot (start : Nat) (j : Int) : Code (Cell.Val K) K :=
  Code.fold (fun (acc : K) (i : Nat) => do
    let b ← loadB (cb + i * bRs)
    let l ← loadA (ab + i * aRs + j * aCs)
    pure (acc + b * l)) 0 (rangeFrom start n)

/-- L D Y = B -/
def sytrsForward (k : Nat) : Code (Cell.Val K) Unit :=
  if k < n then do
    let p ← loadPiv (pb + k)
    if 0 < p then do
      sytrsSwap n bRs cb k (p - 1)
      let bk ← loadB (cb + k * bRs)
      sytrsUpdate n aRs aCs bRs ab cb (k + 1) k bk
      let d ← loadA (ab + k * aRs + k * aCs)
      storeB (cb + k * bRs) (bk * (1 / d))
      sytrsForward (k + 1)
    else do
      sytrsSwap n bRs cb (k + 1) (-p - 1)
      let bk ← loadB (cb + k * bRs)
      let bk1 ← loadB (cb + (k + 1) * bRs)
      sytrsUpdate n aRs aCs bRs ab cb (k + 2) k bk
      sytrsUpdate n aRs aCs bRs ab cb (k + 2) (k + 1) bk1
      let akm1k ← loadA (ab + (k + 1) * aRs + k * aCs)
      let a00 ← loadA (ab + k * aRs + k * aCs)
      let akm1 := a00 / akm1k
      let a11 ← loadA (ab + (k + 1) * aRs + (k + 1) * aCs)
      let ak := a11 / akm1k
      let denom := akm1 * ak - 1
      let bkm1 := bk / akm1k
      let bkk := bk1 / akm1k
      storeB (cb + k * bRs) ((ak * bkm1 - bkk) / denom)
      storeB (cb + (k + 1) * bRs) ((akm1 * bkk - bkm1) / denom)
      sytrsForward (k + 2)
  else pure ()
termination_by n - k

/-- L^T X = Y, from the row `k` up. -/
def sytrsBackward (k : Int) : Code (Cell.Val K) Unit :=
  if 0 ≤ k then do
    let p ← loadPiv (pb + k)
    let acc ← sytrsDot n aRs aCs bRs ab cb (k + 1).toNat k
    if 0 < p then do
      let bk ← loadB (cb + k * bRs)
      storeB (cb + k * bRs) (bk - acc)
      sytrsSwap n bRs cb k (p - 1)
      sytrsBackward (k - 1)
    else do
      let acc1 ← sytrsDot n aRs aCs bRs ab cb (k + 1).toNat (k - 1)
      let bk ← loadB (cb + k * bRs)
      storeB (cb + k * bRs) (bk - acc)
      let bk1 ← loadB (cb + (k - 1) * bRs)
      storeB (cb + (k - 1) * bRs) (bk1 - acc1)
      sytrsSwap n bRs cb k (-p - 1)
      sytrsBackward (k - 2)
  else pure ()
termination_by (k + 1).toNat

end Column

/-- The column `t` of `_sytrs_kernel`. -/
def sytrsColumn (n ncols : Nat) (aRs aCs aBs pivBs bRs bCs bBs : Int) (t : Nat) :
    Code (Cell.Val K) Unit := do
  let bb := t / ncols
  let col := t % ncols
  let ab : Int := bb * aBs
  let pb : Int := bb * pivBs
  let cb : Int := bb * bBs + col * bCs
  sytrsForward n aRs aCs bRs ab pb cb 0
  sytrsBackward n aRs aCs bRs ab pb cb (n - 1)

/-- A thread of `_sytrs_kernel`. -/
def _sytrs_kernel (n ncols batch : Nat) (aRs aCs aBs pivBs bRs bCs bBs : Int)
    (threads thread : Nat) : Code (Cell.Val K) Unit :=
  each (threadColumns threads (batch * ncols) thread)
    (sytrsColumn n ncols aRs aCs aBs pivBs bRs bCs bBs)

end Solve

end TorchMojoBackend.Kernels.Linalg
