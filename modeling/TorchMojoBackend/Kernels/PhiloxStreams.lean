/-
  `Kernels.PhiloxStreams`: the counter blocks that the calls on a generator read.

  A call reserves an interval of a generator's offsets on the host and launches a kernel
  with its start.  A thread of the kernel reads the blocks of its subsequence from there
  on; how far it gets is decided by the kernel's own loop.
-/
import TorchMojoBackend.Foundation.Counters
import TorchMojoBackend.Kernels.RandomFillExact

set_option autoImplicit false

namespace TorchMojoBackend.Kernels.PhiloxStreams

open TorchMojoBackend.Foundation TorchMojoBackend.Kernels.OpUtils
  TorchMojoBackend.Kernels.RandomFill

/-! ## Counters -/

/-- The 128-bit counter of a block, in 32-bit words. -/
structure Ctr where
  x : Nat
  y : Nat
  z : Nat
  w : Nat
  deriving DecidableEq

def curandCtr (offset subsequence : Nat) : Ctr :=
  let n := offset / 4
  ⟨u32 n, u32 (n / 2 ^ 32), u32 subsequence, u32 (subsequence / 2 ^ 32)⟩

/-- `ctr_add`. -/
def ctrAdd (ctr : Ctr) (n : Nat) : Ctr :=
  let nlo := u32 n
  let nhi := u32 (n / 2 ^ 32)
  let x := u32 (ctr.x + nlo)
  let nhi := if x < nlo then u32 (nhi + 1) else nhi
  let y := u32 (ctr.y + nhi)
  if ¬ nhi ≤ y then
    let z := u32 (ctr.z + 1)
    ⟨x, y, z, if z = 0 then u32 (ctr.w + 1) else ctr.w⟩
  else ⟨x, y, ctr.z, ctr.w⟩

/-- `tmb_philox_reserve`: the offset after the reservation; none if it would wrap. -/
def philoxReserve (offset increment : Nat) : Option Nat :=
  let increment := (increment + 3) % 2 ^ 64 / 4 * 4
  if increment ≤ 2 ^ 64 - 1 - offset then some (offset + increment) else none

/-! ## Kernels -/

def APPLY_BLOCK : Nat := 512
def MN_THREADS : Nat := 256
def MN_MAX_BLOCKS : Nat := 65535

/-- A launch, without the data it works on. -/
inductive Kernel where
  | dist (numel grid N : Nat)
  | dropoutVec (VEC numel grid : Nat)
  | dropoutStrided (numel grid : Nat)
  | bernoulliTensor (numel grid : Nat)
  | multinomialDraw (rows nSample : Nat)
  deriving DecidableEq

/-- The rounds of the thread `idx` of `_dropout_vec_kernel`. -/
def dropoutRounds (VEC numel grid idx : Nat) : List (Nat × Nat) :=
  drawLoop numel (grid * BLOCK * VEC) ((VEC + 3) / 4) numel (idx * VEC) 0

/-- The blocks of the launch of a kernel: subsequences with the calls of `curand4`. -/
def Kernel.blocks : Kernel → List (Nat × Nat)
  | .dist numel grid N =>
    (List.range (grid * BLOCK)).flatMap fun idx =>
      (distRounds numel grid N idx).map fun round => (idx, round.2)
  | .dropoutVec VEC numel grid =>
    (List.range (grid * BLOCK)).flatMap fun idx =>
      (dropoutRounds VEC numel grid idx).flatMap fun round =>
        (List.range ((VEC + 3) / 4)).map fun jj => (idx, round.2 + jj)
  | .dropoutStrided numel grid =>
    -- the rounds of a distribution with four values
    (List.range (grid * BLOCK)).flatMap fun idx =>
      (distRounds numel grid 4 idx).map fun round => (idx, round.2)
  | .bernoulliTensor numel grid =>
    (List.range (grid * APPLY_BLOCK)).flatMap fun t =>
      -- each round draws the same block again
      (drawLoop numel (grid * APPLY_BLOCK * 4) 0 numel (t * 4) 0).map fun round => (t, round.2)
  | .multinomialDraw rows nSample =>
    let blocks := max 1 (min rows MN_MAX_BLOCKS)
    (List.range blocks).flatMap fun block =>
      (strided rows blocks rows block).flatMap fun row =>
        (List.range MN_THREADS).flatMap fun tid =>
          (strided nSample MN_THREADS nSample tid).map fun s => (0, (row * nSample + s) / 4)

/-! ## Calls -/

inductive DropoutType where
  | float16 | bfloat16 | float32 | float64
  deriving DecidableEq

def DropoutType.itemsize : DropoutType → Nat
  | .float16 | .bfloat16 => 2
  | .float32 => 4
  | .float64 => 8

/-- `while vec > 1 and numel % vec != 0: vec //= 2`. -/
def halveVec (numel : Nat) : Nat → Nat → Nat
  | 0, vec => vec
  | fuel + 1, vec => if vec > 1 ∧ numel % vec ≠ 0 then halveVec numel fuel (vec / 2) else vec

/-- The width of a dropout of a tensor at `ptr`. -/
def dropoutVecSize (dtype : DropoutType) (ptr numel : Nat) (dense : Bool) : Nat :=
  if dense then
    let isz := dtype.itemsize
    let byAlign := if ptr % (8 * isz) = 0 then 8 else if ptr % (4 * isz) = 0 then 4
      else if ptr % (2 * isz) = 0 then 2 else 1
    let vec := min (16 / isz) byAlign
    halveVec numel vec vec
  else 1

/-- The kernel of a dropout. -/
def dropoutKernel (vec numel grid : Nat) : Kernel :=
  if vec = 8 then .dropoutVec 8 numel grid
  else if vec = 4 then .dropoutVec 4 numel grid
  else if vec = 2 then .dropoutVec 2 numel grid
  else .dropoutStrided numel grid

/-- A call on the generator that gets as far as its first reservation. `draw` has the plan and
the pieces of the output. -/
inductive Call where
  | draw (p : Plan) (ps : List Plan) (dist : Dist) (double : Bool)
  | dropout (dtype : DropoutType) (ptr numel : Nat) (dense : Bool)
  | bernoulliTensor (numel : Nat)
  | multinomial (rows nSample : Nat)
  deriving DecidableEq

/-- A reservation with the kernel launched from it, if there is one. -/
structure Reservation where
  increment : Nat
  kernel : Option Kernel
  deriving DecidableEq

/-- What a call reserves and launches, in order; `cap` is the blocks the device holds at once. -/
def Call.reservations (cap : Nat) : Call → List Reservation
  | .draw p ps dist double =>
    let unroll := distUnroll dist double
    -- the unsplit call reserves before it discovers it must split
    (if ps.length > 1 then [⟨counterOffset p.numel (gridOf cap p.numel) unroll, none⟩] else []) ++
      ps.map fun piece =>
        let grid := gridOf cap piece.numel
        ⟨counterOffset piece.numel grid unroll, some (.dist piece.numel grid unroll)⟩
  | .dropout dtype ptr numel dense =>
    let grid := gridOf cap numel
    [⟨counterOffset numel grid 4,
      some (dropoutKernel (dropoutVecSize dtype ptr numel dense) numel grid)⟩]
  | .bernoulliTensor numel =>
    [⟨10, some (.bernoulliTensor numel (ceildiv numel (512 * 4)))⟩]
  | .multinomial rows nSample =>
    [⟨(rows * nSample + 3) / 4 * 4, some (.multinomialDraw rows nSample)⟩]

/-- A kernel in flight, with the interval of offsets that was reserved for it. -/
structure Launch where
  offset : Nat
  limit : Nat
  kernel : Kernel
  deriving DecidableEq

/-- The launches of a call, and the generator's offset after it. A refused reservation raises. -/
def runCall (offset : Nat) : List Reservation → List Launch × Nat
  | [] => ([], offset)
  | r :: rest =>
    match philoxReserve offset r.increment with
    | none => ([], offset)
    | some limit =>
      let (launches, last) := runCall limit rest
      (match r.kernel with
        | some kernel => ⟨offset, limit, kernel⟩ :: launches
        | none => launches, last)

/-- The launches of each call of a sequence. -/
def runCalls (cap offset : Nat) : List Call → List (List Launch)
  | [] => []
  | call :: calls =>
    let (launches, last) := runCall offset (call.reservations cap)
    launches :: runCalls cap last calls

/-- The subsequences and counters that the threads of a launch read. -/
def Launch.reads (l : Launch) : List (Nat × Ctr) :=
  l.kernel.blocks.map fun (idx, k) => (idx, ctrAdd (curandCtr l.offset idx) k)

end TorchMojoBackend.Kernels.PhiloxStreams
