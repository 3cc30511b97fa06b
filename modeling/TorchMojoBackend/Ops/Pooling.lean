/-
  `Ops.Pooling`: the argument checks of the pooling operations and the geometry they launch.

  Source: tmb/ops/pooling.mojo.

  The source's parameter `n`, 2 or 3, is `three`.  A tensor is its shape here, and an
  `int[n]` argument is a list.
-/
import Mathlib.Data.Fin.VecNotation
import TorchMojoBackend.Kernels.PoolWindows

set_option autoImplicit false

namespace TorchMojoBackend.Ops.Pooling

open TorchMojoBackend.Kernels.Pool (Geom)

attribute [local instance] Foundation.neZero_three

/-- The source's `n`. -/
def spatialRank (three : Bool) : Nat := if three then 3 else 2

/-- `range(3 - n, 3)` -/
def dims (three : Bool) : List (Fin 3) := if three then [0, 1, 2] else [1, 2]

/-- `_sizes` -/
def sizes (x : List Nat) : String := "[" ++ ", ".intercalate (x.map toString) ++ "]"

/-- `_trunc_div` -/
def truncDiv (a b : Int) : Int :=
  let q := a.fdiv b
  if q < 0 ∧ q * b ≠ a then q + 1 else q

/-- `_spatial`: one entry broadcasts, and the depth of a 2-D argument is `fill`. -/
def spatial (l : List Int) (three : Bool) (what : String) (fill : Int) :
    Except String (Fin 3 → Int) :=
  if l.length = 1 then .ok fun i => if i ∈ dims three then l.getD 0 0 else fill
  else if l.length = spatialRank three then
    .ok fun i => if i ∈ dims three then l.getD (spatialRank three + i - 3) 0 else fill
  else .error what

/-- `_in_spatial` -/
def inSpatial (x : List Nat) (three : Bool) : Fin 3 → Int := fun i =>
  if i ∈ dims three then x.getD (x.length + i - 3) 0 else 1

/-- `_planes` -/
def planes (x : List Nat) (three : Bool) : Int := ((x.take (x.length - spatialRank three)).prod : Nat)

/-! ## Windows -/

/-- `_pool_out_size` -/
def poolOutSize (isz k pad s dil : Int) (ceilMode : Bool) : Except String Int :=
  if s = 0 then .error "stride should not be zero"
  else if pad < 0 then .error ("pad must be non-negative, but got pad: " ++ toString pad)
  else if pad > truncDiv ((k - 1) * dil + 1) 2 then
    .error ("pad should be at most half of effective kernel size, but got pad=" ++ toString pad ++
      ", kernel_size=" ++ toString k ++ " and dilation=" ++ toString dil)
  else
    let num := isz + 2 * pad - dil * (k - 1) - 1
    let num := if ceilMode then num + (s - 1) else num
    let o := num.fdiv s + 1
    .ok (if ceilMode ∧ (o - 1) * s ≥ isz + pad then o - 1 else o)

/-- The parsed arguments of a windowed operation. -/
structure Window where
  k : Fin 3 → Int
  s : Fin 3 → Int
  p : Fin 3 → Int
  d : Fin 3 → Int
  ceilMode : Bool

namespace Window

/-- `Window.__init__` -/
def init (three : Bool) (name : String) (kernel stride padding dilation : List Int)
    (hasDilation ceilMode : Bool) : Except String Window := do
  let either := if name = "avg_pool3d" then "" else "either "
  let many := if three then "a tuple of three ints" else "a tuple of two ints"
  let lead := name ++ ": "
  let k ← spatial kernel three
    (lead ++ "kernel_size must " ++ either ++ "be a single int, or " ++ many) 1
  let strideOr : Except String (Fin 3 → Int) :=
    if stride.length = 0 then .ok k
    else
      spatial stride three
        (lead ++ "stride must " ++ either ++ "be omitted, a single int, or " ++ many) 1
  let s ← strideOr
  let p ← spatial padding three
    (lead ++ "padding must " ++ either ++ "be a single int, or " ++ many) 0
  let dilationOr : Except String (Fin 3 → Int) :=
    if hasDilation then
      spatial dilation three (lead ++ "dilation must be either a single int, or " ++ many) 1
    else .ok fun _ => 1
  let d ← dilationOr
  pure ⟨k, s, p, d, ceilMode⟩

/-- `out_spatial` -/
def outSpatial (w : Window) (ins : Fin 3 → Int) (three : Bool) :
    Except String (Fin 3 → Int) := do
  let size := fun i => poolOutSize (ins i) (w.k i) (w.p i) (w.s i) (w.d i) w.ceilMode
  let depth : Except String Int := if three then size 0 else .ok 1
  let o0 ← depth
  let o1 ← size 1
  let o2 ← size 2
  pure ![o0, o1, o2]

/-- `_fmt` -/
def fmt (v : Fin 3 → Int) (three : Bool) (tag : String) : String :=
  " ".intercalate ((dims three).map fun i : Fin 3 => tag ++ ["T", "H", "W"].getD i "" ++ ": " ++
    toString (v i))

/-- `_planes_str` -/
def planesStr (x : List Nat) (three : Bool) : String :=
  "x".intercalate ((x.drop (x.length - spatialRank three - 1)).map toString)

/-- `_out_str` -/
def outStr (x : List Nat) (three : Bool) (outs : Fin 3 → Int) : String :=
  "x".intercalate (toString (x.getD (x.length - spatialRank three - 1) 0) ::
    (dims three).map fun i => toString (outs i))

/-- The shapes that `shape_check` takes. -/
def shapeError (x : List Nat) (three : Bool) (fnName : String) : Option String :=
  if three = false then
    let valid := x.getD 1 0 ≠ 0 ∧ x.getD 2 0 ≠ 0
    if (x.length = 3 ∧ x.getD 0 0 ≠ 0 ∧ valid) ∨ (x.length = 4 ∧ valid ∧ x.getD 3 0 ≠ 0) then none
    else some ("Expected 3D or 4D (batch mode) tensor with optional 0" ++
      " dim batch size for input, but got:" ++ sizes x)
  else if x.length ≠ 4 ∧ x.length ≠ 5 then
    some (fnName ++ ": Expected 4D or 5D tensor for input, but got: " ++ sizes x)
  else
    match (List.range x.length).find? fun i => ¬(x.length = 5 ∧ i = 0) ∧ x.getD i 0 = 0 with
    | some i => some (fnName ++ ": Expected input's non-batch dimensions to have" ++
        " positive length, but input has a shape of " ++ sizes x ++ " and non-batch dimension " ++
        toString (x.getD i 0) ++ " has length zero!")
    | none => none

/-- `shape_check` -/
def shapeCheck (w : Window) (x : List Nat) (three : Bool) (ins outs : Fin 3 → Int)
    (fnName : String) (checkInputSize : Bool) : Except String Unit :=
  if ∃ i ∈ dims three, w.k i ≤ 0 then
    .error ("kernel size should be greater than zero, but got " ++ fmt w.k three "k")
  else if ∃ i ∈ dims three, w.s i ≤ 0 then
    .error ("stride should be greater than zero, but got " ++ fmt w.s three "d")
  else if ∃ i ∈ dims three, w.d i ≤ 0 then
    .error ("dilation should be greater than zero, but got " ++ fmt w.d three "dilation")
  else
    match shapeError x three fnName with
    | some message => .error message
    | none =>
        if three = true ∧ checkInputSize = true ∧ ∃ i, ins i < w.k i then
          .error ("input image (T: " ++ toString (ins 0) ++ " H: " ++ toString (ins 1) ++ " W: " ++
            toString (ins 2) ++ ") smaller than kernel size (kT: " ++ toString (w.k 0) ++ " kH: " ++
            toString (w.k 1) ++ " kW: " ++ toString (w.k 2) ++ ")")
        else if ∃ i ∈ dims three, w.k i / 2 < w.p i then
          .error ("pad should be smaller than or equal to half of kernel" ++ " size, but got " ++
            fmt w.p three "pad")
        else if ∃ i ∈ dims three, outs i < 1 then
          .error ("Given input size: (" ++ planesStr x three ++ "). Calculated output size: (" ++
            outStr x three outs ++ "). Output size is too small")
        else .ok ()

end Window

/-- `_max_pool_name` -/
def maxPoolName (three : Bool) : String :=
  if three then "max_pool3d_with_indices_out_cuda_template()" else "max_pool2d"

/-- `_max_pool_check` -/
def maxPoolCheck (three : Bool) (x : List Nat) (w : Window) (name : String) :
    Except String (Fin 3 → Int) :=
  if three = false ∧ x.length ≠ 3 ∧ x.length ≠ 4 then
    .error "non-empty 3D or 4D (batch mode) tensor expected for input"
  else if three = true ∧ x.length ≠ 4 ∧ x.length ≠ 5 then
    .error (name ++ ": Expected 4D or 5D tensor for input, but got: " ++ sizes x)
  else do
    let ins := inSpatial x three
    let outs ← w.outSpatial ins three
    w.shapeCheck x three ins outs name false
    pure outs

/-- `_avg_check` -/
def avgCheck (three : Bool) (x : List Nat) (w : Window) (divisor : Option Int) :
    Except String (Fin 3 → Int) :=
  if three = true ∧ x.length ≠ 4 ∧ x.length ≠ 5 then
    .error "non-empty 4D or 5D (batch mode) tensor expected for input"
  else if divisor = some 0 then .error "divisor must be not zero"
  else if three = false ∧ x.length < 3 then
    .error ("Expected 3D or 4D (batch mode) tensor with optional 0 dim" ++
      " batch size for input, but got:" ++ sizes x)
  else do
    let ins := inSpatial x three
    let outs ← w.outSpatial ins three
    w.shapeCheck x three ins outs "avg_pool3d()" true
    pure outs

/-- `_max_window` -/
def maxWindowArgs (three : Bool) (kernel stride padding dilation : List Int) (ceilMode : Bool) :
    Except String Window :=
  Window.init three (if three then "max_pool3d" else "max_pool2d") kernel stride padding dilation
    true ceilMode

/-- `_avg_args` -/
def avgWindowArgs (three : Bool) (kernel stride padding : List Int) (ceilMode : Bool) :
    Except String Window :=
  Window.init three (if three then "avg_pool3d" else "avg_pool2d") kernel stride padding kernel
    false ceilMode

/-- The geometry of a windowed launch. -/
def windowGeom (three : Bool) (x : List Nat) (outs : Fin 3 → Int) (w : Window)
    (countIncludePad : Bool) (divisor : Int) : Geom where
  planes := planes x three
  in_ := inSpatial x three
  out := outs
  k := w.k
  s := w.s
  p := w.p
  dil := w.d
  countIncludePad := countIncludePad
  divisorOverride := divisor
  three := three

/-! ## Adaptive pooling -/

/-- `_adaptive_size` -/
def adaptiveSize (three : Bool) (x : List Nat) (l : List Int) (name : String) (maxPool : Bool) :
    Except String (Fin 3 → Int) :=
  let lo := spatialRank three + 1
  let expected := name ++ "(): Expected " ++ toString lo ++ "D or " ++ toString (lo + 1) ++
    "D tensor, but got" ++ (if maxPool then ": " else " ") ++ sizes x
  let first := if maxPool = false ∧ three = false then x.length - spatialRank three else 1
  let empty := (List.range x.length).find? fun i => first ≤ i ∧ x.getD i 0 = 0
  let emptyText := fun i => name ++ "(): Expected input to have non-zero size for non-batch" ++
    " dimensions, but input has sizes " ++ sizes x ++ " with dimension " ++ toString (i : Nat) ++
    " being empty"
  let result : Except String (Fin 3 → Int) :=
    match l.find? fun v => v < 0 with
    | some v => .error ("Trying to create tensor with negative dimension " ++ toString v)
    | none => .ok fun i => if i ∈ dims three then l.getD (spatialRank three + i - 3) 0 else 1
  if maxPool = false ∧ l.length ≠ spatialRank three then
    .error (name ++ ": output_size must be " ++ toString (spatialRank three))
  else if x.length ≠ lo ∧ x.length ≠ lo + 1 then .error expected
  else
    match empty with
    | some i => .error (emptyText i)
    | none =>
        if l.length ≠ spatialRank three then
          .error (name ++ "(): internal error: output_size.size() must be " ++
            toString (spatialRank three))
        else result

/-- `_adaptive_geom` -/
def adaptiveGeom (three : Bool) (x : List Nat) (outs : Fin 3 → Int) : Geom where
  planes := planes x three
  in_ := inSpatial x three
  out := outs
  k := fun _ => 1
  s := fun _ => 1
  p := fun _ => 0
  dil := fun _ => 1
  countIncludePad := false
  divisorOverride := 0
  three := three

end TorchMojoBackend.Ops.Pooling
