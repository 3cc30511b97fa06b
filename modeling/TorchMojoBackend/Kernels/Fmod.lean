/-
  `Kernels.Fmod`: the bit-serial `fmod`.

  Source: tmb/kernels/common/op_utils.mojo (`_fmod_narrow_float_exact_scalar`,
  `_fmod_f64_exact_scalar`).

  A float is its bit pattern.  Every number that should fit its word, and every shift that
  should lose nothing, goes through the operations of a machine: the code's words wrap and
  drop, and a checked machine stops there.  Where the code itself drops bits (a sign or an
  exponent field shifted out, a difference taken for its sign) the model does so as well.
-/
import TorchMojoBackend.Foundation.FloatRemainder

set_option autoImplicit false

namespace TorchMojoBackend.Kernels.Fmod

open TorchMojoBackend.Foundation

/-! ## Machine words -/

structure Machine where
  shl : Nat → Nat → Option Nat
  shr : Nat → Nat → Option Nat
  sub : Nat → Nat → Option Nat
  int : Int → Option Int

/-- Words of `bits` bits that wrap, and shifts that drop what leaves the word. -/
def wrapping (bits : Nat) : Machine where
  shl a k := some (a * 2 ^ k % 2 ^ bits)
  shr a k := some (a / 2 ^ k)
  sub a b := some ((a + 2 ^ bits - b) % 2 ^ bits)
  int n := some ((n + 2 ^ (bits - 1)) % 2 ^ bits - 2 ^ (bits - 1))

/-- Words that hold what they should, and shifts that lose nothing. -/
def checked (bits : Nat) : Machine where
  shl a k := if k < bits ∧ a * 2 ^ k < 2 ^ bits then some (a * 2 ^ k) else none
  shr a k := if k < bits ∧ 2 ^ k ∣ a then some (a / 2 ^ k) else none
  sub a b := if b ≤ a then some (a - b) else none
  int n := if -2 ^ (bits - 1) ≤ n ∧ n < 2 ^ (bits - 1) then some n else none

/-- A machine that is right where nothing is lost. -/
structure Machine.Exact (W : Machine) (bits : Nat) : Prop where
  shl_eq : ∀ {a k}, k < bits → a * 2 ^ k < 2 ^ bits → W.shl a k = some (a * 2 ^ k)
  shr_eq : ∀ {a k}, k < bits → W.shr (a * 2 ^ k) k = some a
  sub_eq : ∀ {a b}, b ≤ a → a < 2 ^ bits → W.sub a b = some (a - b)
  int_eq : ∀ {n : Int}, -2 ^ (bits - 1) ≤ n → n < 2 ^ (bits - 1) → W.int n = some n

/-- A number of a few thousands is one of a word of 32 or 64 bits. -/
theorem Machine.Exact.int_small {W : Machine} {bits : Nat} (hW : W.Exact bits) (hbits : 32 ≤ bits)
    {n : Int} (hlo : -10000 ≤ n) (hhi : n ≤ 10000) : W.int n = some n := by
  have hpow : (2 : Int) ^ 31 ≤ 2 ^ (bits - 1) := pow_le_pow_right₀ (by decide) (by omega)
  exact hW.int_eq (by omega) (by omega)

theorem wrapping_exact {bits : Nat} (hbits : 0 < bits) : (wrapping bits).Exact bits where
  shl_eq _ hlt := congrArg some (Nat.mod_eq_of_lt hlt)
  shr_eq _ := congrArg some (Nat.mul_div_cancel _ (Nat.two_pow_pos _))
  sub_eq hle hlt := congrArg some (by
    rw [Nat.sub_add_comm hle, Nat.add_mod_right, Nat.mod_eq_of_lt (by omega)])
  int_eq hlo hhi := congrArg some (by
    have hpow : (2 : Int) ^ bits = 2 ^ (bits - 1) + 2 ^ (bits - 1) := by
      rw [← Int.two_mul, ← Int.pow_succ', Nat.sub_add_cancel hbits]
    rw [Int.emod_eq_of_lt (by omega) (by omega)]
    omega)

theorem checked_exact (bits : Nat) : (checked bits).Exact bits where
  shl_eq hk hlt := if_pos ⟨hk, hlt⟩
  shr_eq hk := (if_pos ⟨hk, Nat.dvd_mul_left _ _⟩).trans
    (congrArg some (Nat.mul_div_cancel _ (Nat.two_pow_pos _)))
  sub_eq hle _ := if_pos hle
  int_eq hlo hhi := if_pos ⟨hlo, hhi⟩

section
variable (W : Machine)

/-- A loop that doubles a word while it is low, and counts down; the first number is fuel. -/
def raise (low : Nat → Bool) : Nat → Nat → Int → Option (Nat × Int)
  | 0, _, _ => none
  | fuel + 1, h, e =>
    if low h = true then do
      let h ← W.shl h 1
      let e ← W.int (e - 1)
      raise low fuel h e
    else some (h, e)

/-! ## `_fmod_narrow_float_exact_scalar` -/

/-- The loops that bring the leading bit into its place. -/
def normalizeNarrow : Nat → Nat → Int → Option (Nat × Int) := raise W fun h => h < 0x00800000

/-- A mantissa of 24 bits and its exponent. -/
def unpackNarrow (fuel : Nat) (h : Nat) : Option (Nat × Int) :=
  if h < 0x00800000 then normalizeNarrow W fuel h (-126)
  else do
    let e ← W.int ((h >>> 23 : Nat) - 127)
    return (h &&& 0x007FFFFF ||| 0x00800000, e)

/-- The division loop; `some none` is its early return. -/
def divideNarrow (hy : Nat) : Nat → Nat → Option (Option Nat)
  | 0, hx => some (some hx)
  | steps + 1, hx =>
    if hy ≤ hx then do
      let hz ← W.sub hx hy
      if hz = 0 then return none
      else do
        let hx ← W.shl hz 1
        divideNarrow hy steps hx
    else do
      let hx ← W.shl hx 1
      divideNarrow hy steps hx

/-- A float32 from a mantissa of 24 bits. -/
def packNarrow (hx : Nat) (e : Int) (sx : Nat) : Option Nat :=
  if -126 ≤ e then do
    let m ← W.sub hx 0x00800000
    let field ← W.shl (e + 127).toNat 23
    return m &&& 0x007FFFFF ||| field ||| sx
  else do
    let shift ← W.int (-126 - e)
    if 24 ≤ shift then return sx
    else do
      let h ← W.shr hx shift.toNat
      return h &&& 0x007FFFFF ||| sx

/-- What follows the division loop. -/
def finishNarrow (fuel hx hy : Nat) (iyExp : Int) (sx : Nat) : Option Nat := do
  let hx ← (if hy ≤ hx then W.sub hx hy else some hx : Option Nat)
  if hx = 0 then return sx
  else do
    let (hx, iyExp) ← normalizeNarrow W fuel hx iyExp
    packNarrow W hx iyExp sx

/-- `_fmod_narrow_float_exact_scalar`. -/
def fmodNarrowFloatExactScalar (fuel x y : Nat) : Option Nat :=
  let sx := x &&& 0x80000000
  let ix := x &&& 0x7FFFFFFF
  let iy := y &&& 0x7FFFFFFF
  if iy = 0 ∨ 0x7F800000 ≤ ix ∨ 0x7F800000 < iy then some 0x7FC00000
  else if ix < iy then some x
  else if ix = iy then some sx
  else do
    let (hx, ixExp) ← unpackNarrow W fuel ix
    let (hy, iyExp) ← unpackNarrow W fuel iy
    let n ← W.int (ixExp - iyExp)
    match ← divideNarrow W hy n.toNat hx with
    | none => return sx
    | some hx => finishNarrow W fuel hx hy iyExp sx

/-! ## `_fmod_f64_exact_scalar` -/

/-- The loop that counts the leading zeros of a subnormal. -/
def leadF64 : Nat → Nat → Int → Option (Nat × Int) := raise W fun i => i >>> 63 == 0

/-- A mantissa of 53 bits and its exponent. -/
def unpackF64 (fuel u : Nat) (e : Int) : Option (Nat × Int) :=
  if e = 0 then do
    let (_, e) ← leadF64 W fuel (u <<< 12 % 2 ^ 64) e
    let k ← W.int (-e + 1)
    return (u <<< k.toNat % 2 ^ 64, e)
  else return (u &&& 0x000FFFFFFFFFFFFF ||| 0x0010000000000000, e)

/-- One subtraction, taken back where the difference is negative; none where it is zero. -/
def restoreF64 (mx my : Nat) : Option Nat :=
  let d := (mx + 2 ^ 64 - my) % 2 ^ 64
  if d >>> 63 = 0 then if d = 0 then none else some d
  else some mx

/-- A division loop with its subtraction; `some none` is its early return. -/
def divideLoop (restore : Nat → Option Nat) (ey : Int) :
    Nat → Nat → Int → Option (Option (Nat × Int))
  | 0, _, _ => none
  | fuel + 1, mx, ex =>
    if ey < ex then
      match restore mx with
      | none => some none
      | some mx => do
        let mx ← W.shl mx 1
        let ex ← W.int (ex - 1)
        divideLoop restore ey fuel mx ex
    else some (some (mx, ex))

/-- The division loop. -/
def divideF64 (my : Nat) (ey : Int) : Nat → Nat → Int → Option (Option (Nat × Int)) :=
  divideLoop W (fun mx => restoreF64 mx my) ey

/-- The loop that brings the leading bit of the remainder into its place. -/
def normalizeF64 : Nat → Nat → Int → Option (Nat × Int) := raise W fun mx => mx >>> 52 == 0

/-- A float64 from a mantissa of 53 bits. -/
def packF64 (mx : Nat) (ex : Int) (sx : Nat) : Option Nat :=
  if 0 < ex then do
    let m ← W.sub mx 0x0010000000000000
    let field ← W.shl ex.toNat 52
    return m ||| field ||| sx
  else do
    let k ← W.int (-ex + 1)
    let m ← W.shr mx k.toNat
    return m ||| sx

/-- What follows the last subtraction. -/
def finishF64 (fuel : Nat) (ex : Int) (sx : Nat) : Option Nat → Option Nat
  | none => some sx
  | some mx => do
    let (mx, ex) ← normalizeF64 W fuel mx ex
    packF64 W mx ex sx

/-- `_fmod_f64_exact_scalar`. -/
def fmodF64ExactScalar (fuel ux uy : Nat) : Option Nat :=
  let ex := ux >>> 52 &&& 0x7FF
  let ey := uy >>> 52 &&& 0x7FF
  let sx := ux &&& 0x8000000000000000
  let ax := ux <<< 1 % 2 ^ 64
  let ay := uy <<< 1 % 2 ^ 64
  if ay = 0 ∨ 0xFFE0000000000000 < ay ∨ ex = 0x7FF then some 0x7FF8000000000000
  else if ax ≤ ay then if ax = ay then some sx else some ux
  else do
    let (mx, ex) ← unpackF64 W fuel ux ex
    let (my, ey) ← unpackF64 W fuel uy ey
    match ← divideF64 W my ey fuel mx ex with
    | none => return sx
    | some (mx, ex) => finishF64 W fuel ex sx (restoreF64 mx my)

end

/-! ## What is to be returned -/

def float32 : FloatFormat := ⟨8, 23⟩

def float64 : FloatFormat := ⟨11, 52⟩

/-- `r` is the remainder of `x` by `y`, with the sign of `x`; NaN where there is none. -/
def IsFmod (f : FloatFormat) (x y r : Nat) : Prop :=
  if f.isFinite x = true ∧ f.isNaN y = false ∧ f.low y ≠ 0 then
    f.sign r = f.sign x ∧
    (f.isFinite y = false → r = x) ∧
    (f.isFinite y = true →
      f.isFinite r = true ∧
      f.toRat r = f.toRat x - ExactFloat.truncate (f.toRat x / f.toRat y) * f.toRat y ∧
      (|f.toRat x| < |f.toRat y| → r = x))
  else f.isNaN r = true

/-! ## Loops -/

theorem shiftRight_eq_zero_iff (h k : Nat) : (h >>> k == 0) = decide (h < 2 ^ k) := by
  rw [Nat.shiftRight_eq_div_pow, Bool.eq_iff_iff, beq_iff_eq, decide_eq_true_iff,
    Nat.div_eq_zero_iff_lt (Nat.two_pow_pos k)]

/-- The loop ends at the shift that brings the leading bit to place `M`. -/
theorem raise_eq {W : Machine} {bits M : Nat} (hW : W.Exact bits) (hbits : 32 ≤ bits) (hM : M < bits)
    {low : Nat → Bool} (hlow : ∀ h, low h = decide (h < 2 ^ M)) {j h fuel : Nat} {e : Int}
    (hlo : 2 ^ M ≤ h * 2 ^ j) (hhi : h * 2 ^ j < 2 ^ (M + 1)) (hfuel : j < fuel)
    (helo : -10000 ≤ e - j) (hehi : e ≤ 10000) :
    raise W low fuel h e = some (h * 2 ^ j, e - j) := by
  induction j generalizing h e fuel with
  | zero =>
      obtain ⟨fuel, rfl⟩ := Nat.exists_eq_succ_of_ne_zero (Nat.ne_of_gt hfuel)
      rw [Nat.pow_zero, Nat.mul_one] at hlo ⊢
      have hstop : ¬low h = true := by
        rw [hlow, decide_eq_true_iff]
        exact Nat.not_lt_of_le hlo
      rw [raise, if_neg hstop, Int.ofNat_zero, Int.sub_zero]
  | succ j ih =>
      obtain ⟨fuel, rfl⟩ := Nat.exists_eq_succ_of_ne_zero (Nat.ne_of_gt (Nat.zero_lt_of_lt hfuel))
      have hdouble : h * 2 ^ (j + 1) = h * 2 ^ 1 * 2 ^ j := by
        rw [Nat.mul_assoc, ← Nat.pow_add, Nat.add_comm]
      rw [hdouble] at hlo hhi ⊢
      have hlt : h * 2 ^ 1 < 2 ^ (M + 1) :=
        Nat.lt_of_le_of_lt (Nat.le_mul_of_pos_right _ (Nat.two_pow_pos j)) hhi
      have hgo : low h = true := by
        rw [hlow, decide_eq_true_iff]
        rw [Nat.pow_succ] at hlt
        omega
      have hword : 2 ^ (M + 1) ≤ 2 ^ bits := Nat.pow_le_pow_right (by decide) hM
      have hstep : raise W low fuel (h * 2 ^ 1) (e - 1) = some (h * 2 ^ 1 * 2 ^ j, e - 1 - j) :=
        ih hlo hhi (by omega) (by push_cast at helo; omega) (by omega)
      rw [raise, if_pos hgo, hW.shl_eq (by omega) (by omega),
        hW.int_small hbits (by push_cast at helo; omega) (by omega)]
      refine hstep.trans ?_
      rw [Nat.cast_add, Nat.cast_one, Int.sub_sub, Int.add_comm]

theorem normalizeNarrow_eq {W : Machine} (hW : W.Exact 32) {j h fuel : Nat} {e : Int}
    (hlo : 2 ^ 23 ≤ h * 2 ^ j) (hhi : h * 2 ^ j < 2 ^ 24) (hfuel : j < fuel)
    (helo : -10000 ≤ e - j) (hehi : e ≤ 10000) :
    normalizeNarrow W fuel h e = some (h * 2 ^ j, e - j) := by
  have hlow : ∀ h : Nat, decide (h < 0x00800000) = decide (h < 2 ^ 23) := fun _ => rfl
  exact raise_eq hW (by decide) (by decide) hlow hlo hhi hfuel helo hehi

theorem leadF64_eq {W : Machine} (hW : W.Exact 64) {j h fuel : Nat} {e : Int}
    (hlo : 2 ^ 63 ≤ h * 2 ^ j) (hhi : h * 2 ^ j < 2 ^ 64) (hfuel : j < fuel)
    (helo : -10000 ≤ e - j) (hehi : e ≤ 10000) :
    leadF64 W fuel h e = some (h * 2 ^ j, e - j) :=
  raise_eq hW (by decide) (by decide) (fun i => shiftRight_eq_zero_iff i 63) hlo hhi hfuel helo hehi

theorem normalizeF64_eq {W : Machine} (hW : W.Exact 64) {j h fuel : Nat} {e : Int}
    (hlo : 2 ^ 52 ≤ h * 2 ^ j) (hhi : h * 2 ^ j < 2 ^ 53) (hfuel : j < fuel)
    (helo : -10000 ≤ e - j) (hehi : e ≤ 10000) :
    normalizeF64 W fuel h e = some (h * 2 ^ j, e - j) :=
  raise_eq hW (by decide) (by decide) (fun i => shiftRight_eq_zero_iff i 52) hlo hhi hfuel helo hehi

/-- The division loop leaves the remainder of the dividend shifted up, less one subtraction. -/
theorem divideNarrow_eq {W : Machine} (hW : W.Exact 32) {hy : Nat} (hhy : hy < 2 ^ 24)
    (steps : Nat) {hx : Nat} (hlt : hx < 2 * hy) :
    ∃ r, divideNarrow W hy steps hx = some r ∧
      match r with
      | none => hx * 2 ^ steps % hy = 0
      | some h => h < 2 * hy ∧ h % hy = hx * 2 ^ steps % hy := by
  induction steps generalizing hx with
  | zero => exact ⟨some hx, rfl, hlt, by rw [Nat.pow_zero, Nat.mul_one]⟩
  | succ steps ih =>
      have hred := reduceOnce_lt hlt
      have hshl : W.shl (reduceOnce hy hx) 1 = some (reduceOnce hy hx * 2) :=
        hW.shl_eq (by decide) (by omega)
      rw [divideNarrow, ← reduceOnce_double_mod]
      by_cases hle : hy ≤ hx
      · have hsub : W.sub hx hy = some (reduceOnce hy hx) := by
          rw [hW.sub_eq hle (by omega), reduceOnce, if_pos hle]
        rw [if_pos hle, hsub]
        by_cases hzero : reduceOnce hy hx = 0
        · refine ⟨none, if_pos hzero, ?_⟩
          rw [hzero, Nat.zero_mul]
          exact Nat.zero_mod hy
        · obtain ⟨r, hr, hspec⟩ := ih (by omega : reduceOnce hy hx * 2 < 2 * hy)
          refine ⟨r, (if_neg hzero).trans ?_, hspec⟩
          rw [hshl]
          exact hr
      · have hstay : reduceOnce hy hx = hx := if_neg hle
        obtain ⟨r, hr, hspec⟩ := ih (by omega : reduceOnce hy hx * 2 < 2 * hy)
        refine ⟨r, (if_neg hle).trans ?_, hspec⟩
        rw [hstay] at hshl hr
        rw [hshl]
        exact hr

theorem restoreF64_eq {mx my : Nat} (hlt : mx < 2 * my) (hmy : my < 2 ^ 53) :
    restoreF64 mx my = if mx = my then none else some (reduceOnce my mx) := by
  rw [restoreF64, Nat.shiftRight_eq_div_pow]
  by_cases hle : my ≤ mx
  · have hd : (mx + 2 ^ 64 - my) % 2 ^ 64 = mx - my := by omega
    rw [hd, if_pos (by omega), reduceOnce, if_pos hle]
    exact if_congr (by omega) rfl rfl
  · have hd : (mx + 2 ^ 64 - my) % 2 ^ 64 = mx + 2 ^ 64 - my := Nat.mod_eq_of_lt (by omega)
    rw [hd, if_neg (by omega), if_neg (by omega), reduceOnce, if_neg hle]

/-- The same of a loop whose subtraction is exact and ends it at zero. -/
theorem divideLoop_eq {W : Machine} (hW : W.Exact 64) {my : Nat} {ey : Int} (hmy : my < 2 ^ 53)
    {restore : Nat → Option Nat} (hrestore : ∀ mx, mx < 2 * my →
      restore mx = if mx = my then none else some (reduceOnce my mx))
    (hey : -5000 ≤ ey) {n fuel mx : Nat} (hfuel : n < fuel) (hn : ey + n ≤ 5000)
    (hpos : 0 < mx) (hlt : mx < 2 * my) :
    ∃ r, divideLoop W restore ey fuel mx (ey + n) = some r ∧
      match r with
      | none => mx * 2 ^ n % my = 0
      | some (m, ex) => ex = ey ∧ 0 < m ∧ m < 2 * my ∧ m % my = mx * 2 ^ n % my := by
  induction n generalizing fuel mx with
  | zero =>
      obtain ⟨fuel, rfl⟩ := Nat.exists_eq_succ_of_ne_zero (Nat.ne_of_gt hfuel)
      refine ⟨some (mx, ey), ?_, rfl, hpos, hlt, by rw [Nat.pow_zero, Nat.mul_one]⟩
      rw [Int.ofNat_zero, Int.add_zero, divideLoop, if_neg (Int.lt_irrefl ey)]
  | succ n ih =>
      obtain ⟨fuel, rfl⟩ := Nat.exists_eq_succ_of_ne_zero (Nat.ne_of_gt (Nat.zero_lt_of_lt hfuel))
      have hred := reduceOnce_lt hlt
      rw [divideLoop, if_pos (by omega), hrestore mx hlt, ← reduceOnce_double_mod]
      by_cases heq : mx = my
      · refine ⟨none, by rw [if_pos heq], ?_⟩
        rw [reduceOnce, if_pos (Nat.le_of_eq heq.symm), heq, Nat.sub_self, Nat.zero_mul]
        exact Nat.zero_mod my
      · have hredpos : 0 < reduceOnce my mx := by
          unfold reduceOnce
          split <;> omega
        have hshl : W.shl (reduceOnce my mx) 1 = some (reduceOnce my mx * 2) :=
          hW.shl_eq (by decide) (by omega)
        have hint : W.int (ey + (n + 1 : Nat) - 1) = some (ey + n) := by
          rw [hW.int_small (by decide) (by omega) (by omega)]
          exact congrArg some (by omega)
        obtain ⟨r, hr, hspec⟩ := ih (Nat.lt_of_succ_lt_succ hfuel) (by omega)
          (by omega : 0 < reduceOnce my mx * 2) (by omega)
        refine ⟨r, ?_, hspec⟩
        rw [if_neg heq]
        dsimp only
        rw [hshl, hint]
        exact hr

/-! ## Fields -/

/-- A finite pattern of a sign and a magnitude. -/
def IsPattern (f : FloatFormat) (s : Bool) (Z r : Nat) : Prop :=
  ∃ e m, e < 2 ^ f.exponentBits - 1 ∧ m < 2 ^ f.mantissaBits ∧ r = f.pack s e m ∧ f.units r = Z

section
variable {f : FloatFormat}

theorem isPattern_zero (hE : 1 < 2 ^ f.exponentBits) (s : Bool) : IsPattern f s 0 (f.pack s 0 0) :=
  ⟨0, 0, by omega, Nat.two_pow_pos _, rfl, FloatFormat.units_pack_subnormal (Nat.two_pow_pos _) s⟩

theorem abs_toRat_lt_iff {x y : Nat} : |f.toRat x| < |f.toRat y| ↔ f.units x < f.units y := by
  have hsign : ∀ b, |f.signRat b| = 1 := fun b => by
    unfold FloatFormat.signRat
    split
    · rw [abs_neg, abs_one]
    · exact abs_one
  have hpos : (0 : ℚ) < 2 ^ f.leastPlace := pow_pos two_pos _
  unfold FloatFormat.toRat
  rw [abs_div, abs_div, abs_mul, abs_mul, hsign, hsign, one_mul, one_mul, Nat.abs_cast,
    Nat.abs_cast, abs_of_pos hpos, div_lt_div_iff_of_pos_right hpos, Nat.cast_lt]

/-- The units decide the remainder of two numbers. -/
theorem isFmod_of_isPattern {x y r : Nat} (hx : f.isFinite x = true) (hy : f.isFinite y = true)
    (hne : f.low y ≠ 0) (hr : IsPattern f (f.sign x) (f.units x % f.units y) r)
    (hself : f.units x < f.units y → r = x) : IsFmod f x y r := by
  obtain ⟨e, m, he, hm, hpack, hunits⟩ := hr
  have hnan : f.isNaN y = false := by
    rw [FloatFormat.isNaN, Bool.and_eq_false_iff]
    exact .inl (beq_eq_false_iff_ne.mpr (bne_iff_ne.mp hy))
  have hsign : f.sign r = f.sign x := by rw [hpack, FloatFormat.sign_pack (by omega) hm]
  have hy0 : f.units y ≠ 0 := fun h => hne (FloatFormat.units_eq_zero_iff.mp h)
  rw [IsFmod, if_pos ⟨hx, hnan, hne⟩]
  refine ⟨hsign, fun h => absurd hy (by rw [h]; exact Bool.false_ne_true), fun _ => ⟨?_, ?_, ?_⟩⟩
  · rw [FloatFormat.isFinite, bne_iff_ne, hpack, FloatFormat.exponent_pack (by omega) hm]
    omega
  · exact FloatFormat.toRat_mod hy0 hsign hunits
  · exact fun hlt => hself (abs_toRat_lt_iff.mp hlt)

theorem IsPattern.unique {s : Bool} {Z r r' : Nat} (hr : IsPattern f s Z r)
    (hr' : IsPattern f s Z r') : r = r' := by
  obtain ⟨e, m, he, hm, rfl, hunits⟩ := hr
  obtain ⟨e', m', he', hm', rfl, hunits'⟩ := hr'
  have hlow := FloatFormat.units_eq_iff.mp (hunits.trans hunits'.symm)
  rw [FloatFormat.low_pack (by omega) hm, FloatFormat.low_pack (by omega) hm'] at hlow
  rw [FloatFormat.pack, FloatFormat.pack, Nat.add_assoc, hlow, Nat.add_assoc]

theorem IsPattern.lt {s : Bool} {Z r : Nat} (hr : IsPattern f s Z r) : r < 2 ^ (f.lowBits + 1) := by
  obtain ⟨e, m, he, hm, rfl, -⟩ := hr
  have hlt := FloatFormat.pack_low (f := f) (by omega : e < 2 ^ f.exponentBits) hm
  rw [FloatFormat.pack, Nat.pow_succ, Nat.add_assoc]
  split <;> omega

end

/-! ## float32 -/

theorem unpackNarrow_eq {W : Machine} (hW : W.Exact 32) {b : Nat} (hfin : float32.isFinite b = true)
    (hne : float32.low b ≠ 0) {fuel : Nat} (hfuel : 24 ≤ fuel) :
    ∃ m a : Nat, unpackNarrow W fuel (float32.low b) = some (m, (a : Int) - 149) ∧
      Normalised 23 (float32.units b) m a ∧ a ≤ 276 := by
  have hexp : float32.exponent b = float32.low b / 2 ^ 23 := rfl
  have hman : float32.mantissa b = float32.low b % 2 ^ 23 := rfl
  have hmax : float32.exponent b ≠ 255 := bne_iff_ne.mp hfin
  have hlt : float32.exponent b < 256 := float32.exponent_lt b
  by_cases he : float32.exponent b = 0
  · have hlow : float32.low b = float32.mantissa b := by omega
    have hpos : 0 < float32.mantissa b := by omega
    have hman := float32.mantissa_lt b
    change _ < 2 ^ 23 at hman
    obtain ⟨j, hj, hlo, hhi⟩ := exists_shift (M := 23) hpos (by omega)
    refine ⟨_, 23 - j, ?_, (FloatFormat.normalised_of_subnormal he hlo hhi).2, by omega⟩
    rw [unpackNarrow, if_pos (by omega), hlow,
      normalizeNarrow_eq hW hlo hhi (by omega) (by omega) (by decide)]
    exact congrArg (fun e => some (_, e)) (by omega)
  · refine ⟨_, _, ?_, FloatFormat.normalised_of_normal he, ?_⟩
    · have hmask : float32.low b &&& 0x007FFFFF = float32.mantissa b :=
        Nat.and_two_pow_sub_one_eq_mod _ 23
      have hor : float32.mantissa b ||| 0x00800000 = float32.mantissa b + 2 ^ 23 := by
        have hadd := Nat.two_pow_add_eq_or_of_lt (float32.mantissa_lt b) 1
        rw [Nat.or_comm, Nat.add_comm]
        exact hadd.symm
      have hshift : float32.low b >>> 23 = float32.exponent b := Nat.shiftRight_eq_div_pow _ 23
      rw [unpackNarrow, if_neg (by omega), hshift, hW.int_small (by decide) (by omega) (by omega),
        hmask, hor]
      refine congrArg (fun e => some (_, e)) ?_
      change _ = ((float32.exponent b - 1 + 23 : Nat) : Int) - 149
      omega
    · change float32.exponent b - 1 + 23 ≤ 276
      omega

theorem packNarrow_eq {W : Machine} (hW : W.Exact 32) {s : Bool} {Z r a : Nat}
    (h : Normalised 23 Z r a) (ha : a ≤ 276) :
    ∃ p, packNarrow W r ((a : Int) - 149) (float32.pack s 0 0) = some p ∧
      IsPattern float32 s Z p := by
  have hlo := h.lo
  have hhi := h.hi
  have hmask : ∀ m, m < 2 ^ 23 → m &&& 0x007FFFFF = m := fun m hm =>
    (Nat.and_two_pow_sub_one_eq_mod m 23).trans (Nat.mod_eq_of_lt hm)
  by_cases hnormal : 23 ≤ a
  · have he : a - 23 + 1 < 2 ^ 8 - 1 := by omega
    have hm : r - 2 ^ 23 < 2 ^ 23 := by omega
    refine ⟨float32.pack s (a - 23 + 1) (r - 2 ^ 23), ?_, a - 23 + 1, r - 2 ^ 23, he, hm, rfl,
      FloatFormat.units_pack_normal (f := float32) h hnormal s (Nat.lt_of_lt_of_le he (by decide))⟩
    have hexp : ((a : Int) - 149 + 127).toNat = a - 23 + 1 := by omega
    have hsub : W.sub r 0x00800000 = some (r - 2 ^ 23) := hW.sub_eq hlo (by omega)
    rw [packNarrow, if_pos (by omega), hexp, hsub, hW.shl_eq (by decide) (by omega)]
    refine congrArg some ?_
    rw [hmask _ hm]
    exact FloatFormat.pack_eq_or (f := float32) (Nat.lt_of_lt_of_le he (by decide)) hm
  · obtain ⟨hr, hZ⟩ := h.shift_eq (by omega)
    refine ⟨float32.pack s 0 Z, ?_, 0, Z, by decide, hZ, rfl,
      FloatFormat.units_pack_subnormal (f := float32) hZ s⟩
    have hshift : -126 - ((a : Int) - 149) = (23 - a : Nat) := by omega
    rw [packNarrow, if_neg (by omega), hshift, hW.int_small (by decide) (by omega) (by omega)]
    refine (if_neg (by omega)).trans ?_
    rw [Int.toNat_natCast, hr, hW.shr_eq (by omega)]
    refine congrArg some ?_
    rw [hmask _ hZ, ← FloatFormat.pack_eq_or (f := float32) (by decide) hZ, Nat.zero_mul,
      Nat.or_zero]

theorem finishNarrow_eq {W : Machine} (hW : W.Exact 32) {h hy b Z : Nat} {s : Bool}
    (hlt : h < 2 * hy) (hhy : hy < 2 ^ 24) (hb : b ≤ 276) (hmod : h % hy * 2 ^ b = Z * 2 ^ 23)
    {fuel : Nat} (hfuel : 24 ≤ fuel) :
    ∃ p, finishNarrow W fuel h hy ((b : Int) - 149) (float32.pack s 0 0) = some p ∧
      IsPattern float32 s Z p := by
  rw [← reduceOnce_eq hlt] at hmod
  have hred : (if hy ≤ h then W.sub h hy else some h) = some (reduceOnce hy h) := by
    unfold reduceOnce
    split
    · exact hW.sub_eq ‹_› (by omega)
    · rfl
  have hsmall : reduceOnce hy h < 2 ^ 24 := Nat.lt_trans (reduceOnce_lt hlt) hhy
  rw [finishNarrow, hred]
  dsimp only [Option.bind_eq_bind, Option.bind_some]
  generalize reduceOnce hy h = R at hmod hsmall
  by_cases hz : R = 0
  · have hZ : Z = 0 := by
      rw [hz, Nat.zero_mul] at hmod
      exact (Nat.mul_eq_zero.mp hmod.symm).resolve_right (Nat.ne_of_gt (Nat.two_pow_pos 23))
    refine ⟨float32.pack s 0 0, ?_, ?_⟩
    · rw [if_pos hz]
      rfl
    · rw [hZ]
      exact isPattern_zero (by decide) s
  · have hZ : 0 < Z := by
      refine Nat.pos_of_ne_zero fun hZ => ?_
      rw [hZ, Nat.zero_mul] at hmod
      exact absurd hmod (Nat.mul_ne_zero hz (Nat.ne_of_gt (Nat.two_pow_pos b)))
    obtain ⟨c, hc, hlo, hhi⟩ := exists_shift (M := 23) (Nat.pos_of_ne_zero hz) hsmall
    obtain ⟨hcb, hnorm⟩ := Normalised.of_shift hZ hmod hlo hhi
    obtain ⟨p, hp, hpat⟩ := packNarrow_eq hW (s := s) hnorm (by omega)
    have hexp : (b : Int) - 149 - c = (b - c : Nat) - 149 := by omega
    have hnormal : normalizeNarrow W fuel R ((b : Int) - 149) =
        some (R * 2 ^ c, ((b - c : Nat) : Int) - 149) := by
      rw [← hexp]
      exact normalizeNarrow_eq hW hlo hhi (by omega) (by omega) (by omega)
    refine ⟨p, ?_, hpat⟩
    rw [if_neg hz, hnormal]
    exact hp

/-- The division of two numbers of which the first is not the smaller one. -/
theorem fmodNarrow_isPattern {W : Machine} (hW : W.Exact 32) {x y : Nat} (hx : x < 2 ^ 32)
    (hfx : float32.isFinite x = true) (hfy : float32.isFinite y = true) (hy : float32.low y ≠ 0)
    (hle : float32.low y ≤ float32.low x) {fuel : Nat} (hfuel : 24 ≤ fuel) :
    ∃ r, fmodNarrowFloatExactScalar W fuel x y = some r ∧
      IsPattern float32 (float32.sign x) (float32.units x % float32.units y) r := by
  have hsx : x &&& 0x80000000 = float32.pack (float32.sign x) 0 0 :=
    FloatFormat.signBit_eq_and (f := float32) hx
  have hix : x &&& 0x7FFFFFFF = float32.low x := FloatFormat.low_eq_and (f := float32) x
  have hiy : y &&& 0x7FFFFFFF = float32.low y := FloatFormat.low_eq_and (f := float32) y
  have hxinf : float32.low x < 0x7F800000 := FloatFormat.isFinite_iff.mp hfx
  have hzero := isPattern_zero (f := float32) (by decide) (float32.sign x)
  rw [fmodNarrowFloatExactScalar]
  dsimp only
  rw [hsx, hix, hiy, if_neg (by omega), if_neg (Nat.not_lt_of_le hle)]
  by_cases heq : float32.low x = float32.low y
  · have hunits : float32.units x = float32.units y := FloatFormat.units_eq_iff.mpr heq
    refine ⟨_, if_pos heq, ?_⟩
    rw [hunits, Nat.mod_self]
    exact hzero
  rw [if_neg heq]
  obtain ⟨hx, a, hunpackx, hnx, ha⟩ := unpackNarrow_eq hW hfx (by omega) hfuel
  obtain ⟨hy, b, hunpacky, hny, hb⟩ := unpackNarrow_eq hW hfy hy hfuel
  have hba : b ≤ a := by
    refine hnx.exponent_le hny (Nat.le_of_not_lt fun hlt => ?_)
    exact absurd (FloatFormat.units_lt_iff.mp hlt) (Nat.not_lt_of_le hle)
  have hdiff : W.int ((a : Int) - 149 - (b - 149)) = some ((a - b : Nat) : Int) := by
    rw [hW.int_small (by decide) (by omega) (by omega)]
    exact congrArg some (by omega)
  have hmod := hnx.mod_eq hny hba
  obtain ⟨r, hr, hspec⟩ := divideNarrow_eq hW hny.hi (a - b) (hnx.lt_two_mul hny)
  rw [hunpackx, hunpacky]
  dsimp only [Option.bind_eq_bind, Option.bind_some]
  rw [hdiff, Option.bind_some, Int.toNat_natCast, hr, Option.bind_some]
  cases r with
  | none =>
      rw [hspec, Nat.zero_mul] at hmod
      have hZ : float32.units x % float32.units y = 0 :=
        (Nat.mul_eq_zero.mp hmod.symm).resolve_right (Nat.ne_of_gt (Nat.two_pow_pos 23))
      exact ⟨_, rfl, hZ.symm ▸ hzero⟩
  | some h =>
      obtain ⟨hlt, hrem⟩ := hspec
      rw [← hrem] at hmod
      exact finishNarrow_eq hW hlt hny.hi hb hmod hfuel

theorem isNaN_or_of_special {f : FloatFormat} {x y : Nat}
    (h : f.low y = 0 ∨ f.infBits ≤ f.low x ∨ f.infBits < f.low y) :
    ¬(f.isFinite x = true ∧ f.isNaN y = false ∧ f.low y ≠ 0) := by
  rintro ⟨hx, hnan, hy⟩
  have hx := FloatFormat.isFinite_iff.mp hx
  have hlt : ¬f.infBits < f.low y := fun h => by
    rw [FloatFormat.isNaN_iff.mpr h] at hnan
    exact Bool.false_ne_true hnan.symm
  omega

/-- A dividend that is smaller stays, also below infinity. -/
theorem isFmod_self {f : FloatFormat} {x y : Nat} (hlt : f.low x < f.low y)
    (hle : f.low y ≤ f.infBits) : IsFmod f x y x := by
  have hx : f.isFinite x = true := FloatFormat.isFinite_iff.mpr (Nat.lt_of_lt_of_le hlt hle)
  have hnan : f.isNaN y = false := by
    rw [← Bool.not_eq_true, FloatFormat.isNaN_iff]
    exact Nat.not_lt_of_le hle
  have hmod : f.units x = f.units x % f.units y :=
    (Nat.mod_eq_of_lt (FloatFormat.units_lt_iff.mpr hlt)).symm
  have hy : f.units y ≠ 0 := Nat.ne_of_gt (Nat.zero_lt_of_lt (FloatFormat.units_lt_iff.mpr hlt))
  rw [IsFmod, if_pos ⟨hx, hnan, Nat.ne_of_gt (Nat.zero_lt_of_lt hlt)⟩]
  exact ⟨rfl, fun _ => rfl, fun _ => ⟨hx, FloatFormat.toRat_mod hy rfl hmod, fun _ => rfl⟩⟩

theorem fmodNarrow_eq {x y : Nat} (hx : x < 2 ^ 32) :
    ∃ r, r < 2 ^ 32 ∧ IsFmod float32 x y r ∧ ∀ W : Machine, W.Exact 32 → ∀ fuel, 24 ≤ fuel →
      fmodNarrowFloatExactScalar W fuel x y = some r := by
  have hix : x &&& 0x7FFFFFFF = float32.low x := FloatFormat.low_eq_and (f := float32) x
  have hiy : y &&& 0x7FFFFFFF = float32.low y := FloatFormat.low_eq_and (f := float32) y
  by_cases hspecial : float32.low y = 0 ∨ 0x7F800000 ≤ float32.low x ∨ 0x7F800000 < float32.low y
  · refine ⟨0x7FC00000, by decide, ?_, fun W _ fuel _ => ?_⟩
    · rw [IsFmod, if_neg (isNaN_or_of_special hspecial)]
      decide
    · rw [fmodNarrowFloatExactScalar, hix, hiy]
      exact if_pos hspecial
  by_cases hlt : float32.low x < float32.low y
  · refine ⟨x, hx, isFmod_self hlt (Nat.le_of_not_lt fun h => hspecial (.inr (.inr h))),
      fun W _ fuel _ => ?_⟩
    rw [fmodNarrowFloatExactScalar, hix, hiy]
    exact (if_neg hspecial).trans (if_pos hlt)
  have hfx : float32.isFinite x = true :=
    FloatFormat.isFinite_iff.mpr (Nat.lt_of_not_le fun h => hspecial (.inr (.inl h)))
  have hfy : float32.isFinite y = true :=
    FloatFormat.isFinite_iff.mpr (Nat.lt_of_le_of_lt (Nat.le_of_not_lt hlt)
      (FloatFormat.isFinite_iff.mp hfx))
  have hy : float32.low y ≠ 0 := fun h => hspecial (.inl h)
  have hcode : ∀ W : Machine, W.Exact 32 → ∀ fuel, 24 ≤ fuel → ∃ r, _ := fun W hW fuel hfuel =>
    fmodNarrow_isPattern hW hx hfx hfy hy (Nat.le_of_not_lt hlt) hfuel
  obtain ⟨r, -, hr⟩ := hcode _ (checked_exact 32) 24 (Nat.le_refl 24)
  refine ⟨r, hr.lt, isFmod_of_isPattern hfx hfy hy hr fun h => ?_, fun W hW fuel hfuel => ?_⟩
  · exact absurd (FloatFormat.units_lt_iff.mp h) hlt
  · obtain ⟨r', hcode, hr'⟩ := hcode W hW fuel hfuel
    rw [hcode, hr'.unique hr]

/-! ## float64 -/

theorem unpackF64_eq {W : Machine} (hW : W.Exact 64) {b : Nat} (hfin : float64.isFinite b = true)
    (hne : float64.low b ≠ 0) {fuel : Nat} (hfuel : 53 ≤ fuel) :
    ∃ m a : Nat, unpackF64 W fuel b (float64.exponent b) = some (m, (a : Int) - 51) ∧
      Normalised 52 (float64.units b) m a ∧ a ≤ 2097 := by
  have hlow : float64.low b = b % 2 ^ 63 := rfl
  have hexp : float64.exponent b = float64.low b / 2 ^ 52 := rfl
  have hman : float64.mantissa b = float64.low b % 2 ^ 52 := rfl
  have hmax : float64.exponent b ≠ 2047 := bne_iff_ne.mp hfin
  have hlt : float64.exponent b < 2048 := float64.exponent_lt b
  by_cases he : float64.exponent b = 0
  · have hsub : float64.mantissa b = b % 2 ^ 63 := by omega
    have hpos : 0 < float64.mantissa b := by omega
    have hman : float64.mantissa b < 2 ^ 52 := float64.mantissa_lt b
    obtain ⟨j, hj, hlo, hhi⟩ := exists_shift (M := 52) hpos (by omega)
    obtain ⟨j, rfl⟩ : ∃ i, j = i + 1 := Nat.exists_eq_succ_of_ne_zero fun h => by
      rw [h, Nat.pow_zero, Nat.mul_one] at hlo
      omega
    refine ⟨_, 52 - (j + 1), ?_, (FloatFormat.normalised_of_subnormal he hlo hhi).2, by omega⟩
    -- the sign and the exponent field are shifted out
    have hfraction : b <<< 12 % 2 ^ 64 = float64.mantissa b * 2 ^ 12 := by
      rw [Nat.shiftLeft_eq]
      omega
    have hlead : float64.mantissa b * 2 ^ (j + 1) * 2 ^ 11 = float64.mantissa b * 2 ^ 12 * 2 ^ j := by
      rw [Nat.mul_assoc, Nat.mul_assoc, ← Nat.pow_add, ← Nat.pow_add]
      congr 2
      omega
    have hshift : b <<< (j + 1) % 2 ^ 64 = float64.mantissa b * 2 ^ (j + 1) := by
      have hsplit : b * 2 ^ (j + 1) =
          float64.mantissa b * 2 ^ (j + 1) + 2 ^ 64 * (b / 2 ^ 63 * 2 ^ j) := by
        calc b * 2 ^ (j + 1) = (float64.mantissa b + 2 ^ 63 * (b / 2 ^ 63)) * 2 ^ (j + 1) := by
              rw [hsub, Nat.mod_add_div]
          _ = _ := by ring
      rw [Nat.shiftLeft_eq, hsplit, Nat.add_mul_mod_self_left, Nat.mod_eq_of_lt (by omega)]
    have hcount : leadF64 W fuel (b <<< 12 % 2 ^ 64) ((0 : Nat) : Int) =
        some (float64.mantissa b * 2 ^ 12 * 2 ^ j, ((0 : Nat) : Int) - j) := by
      rw [hfraction]
      exact leadF64_eq hW (by omega) (by omega) (by omega) (by omega) (by omega)
    have hk : W.int (-(((0 : Nat) : Int) - j) + 1) = some ((j + 1 : Nat) : Int) := by
      rw [hW.int_small (by decide) (by omega) (by omega)]
      exact congrArg some (by omega)
    rw [unpackF64, he, if_pos Int.ofNat_zero, hcount]
    dsimp only [Option.bind_eq_bind, Option.bind_some]
    rw [hk, Option.bind_some, Int.toNat_natCast, hshift]
    exact congrArg (fun e => some (_, e)) (by omega)
  · refine ⟨_, _, ?_, FloatFormat.normalised_of_normal he, ?_⟩
    · have hmask : b &&& 0x000FFFFFFFFFFFFF = float64.mantissa b := by
        refine (Nat.and_two_pow_sub_one_eq_mod _ 52).trans ?_
        omega
      have hor : float64.mantissa b ||| 0x0010000000000000 = float64.mantissa b + 2 ^ 52 := by
        have hadd := Nat.two_pow_add_eq_or_of_lt (float64.mantissa_lt b) 1
        rw [Nat.or_comm, Nat.add_comm]
        exact hadd.symm
      rw [unpackF64, if_neg (by omega), hmask, hor]
      refine congrArg (fun e => some (_, e)) ?_
      change _ = ((float64.exponent b - 1 + 52 : Nat) : Int) - 51
      omega
    · change float64.exponent b - 1 + 52 ≤ 2097
      omega

theorem packF64_eq {W : Machine} (hW : W.Exact 64) {s : Bool} {Z r a : Nat}
    (h : Normalised 52 Z r a) (ha : a ≤ 2097) :
    ∃ p, packF64 W r ((a : Int) - 51) (float64.pack s 0 0) = some p ∧ IsPattern float64 s Z p := by
  have hlo := h.lo
  have hhi := h.hi
  by_cases hnormal : 52 ≤ a
  · have he : a - 52 + 1 < 2 ^ 11 - 1 := by omega
    have hm : r - 2 ^ 52 < 2 ^ 52 := by omega
    refine ⟨float64.pack s (a - 52 + 1) (r - 2 ^ 52), ?_, a - 52 + 1, r - 2 ^ 52, he, hm, rfl,
      FloatFormat.units_pack_normal (f := float64) h hnormal s (Nat.lt_of_lt_of_le he (by decide))⟩
    have hexp : ((a : Int) - 51).toNat = a - 52 + 1 := by omega
    have hsub : W.sub r 0x0010000000000000 = some (r - 2 ^ 52) := hW.sub_eq hlo (by omega)
    rw [packF64, if_pos (by omega), hexp, hsub, hW.shl_eq (by decide) (by omega)]
    refine congrArg some ?_
    exact FloatFormat.pack_eq_or (f := float64) (Nat.lt_of_lt_of_le he (by decide)) hm
  · obtain ⟨hr, hZ⟩ := h.shift_eq (by omega)
    refine ⟨float64.pack s 0 Z, ?_, 0, Z, by decide, hZ, rfl,
      FloatFormat.units_pack_subnormal (f := float64) hZ s⟩
    have hshift : -((a : Int) - 51) + 1 = (52 - a : Nat) := by omega
    rw [packF64, if_neg (by omega), hshift, hW.int_small (by decide) (by omega) (by omega)]
    dsimp only [Option.bind_eq_bind, Option.bind_some]
    rw [Int.toNat_natCast, hr, hW.shr_eq (by omega)]
    refine congrArg some ?_
    rw [← FloatFormat.pack_eq_or (f := float64) (by decide) hZ, Nat.zero_mul, Nat.or_zero]

/-- The fields that the code takes out of a pattern. -/
theorem f64_fields (b : Nat) :
    b >>> 52 &&& 0x7FF = float64.exponent b ∧ b <<< 1 % 2 ^ 64 = 2 * float64.low b := by
  have hlow : float64.low b = b % 2 ^ 63 := rfl
  have hexp : float64.exponent b = float64.low b / 2 ^ 52 := rfl
  have hmask : b >>> 52 &&& 0x7FF = b >>> 52 % 2 ^ 11 := Nat.and_two_pow_sub_one_eq_mod _ 11
  rw [hmask, Nat.shiftRight_eq_div_pow, Nat.shiftLeft_eq]
  omega

theorem finishF64_eq {W : Machine} (hW : W.Exact 64) {m my b Z : Nat} {s : Bool} (hpos : 0 < m)
    (hlt : m < 2 * my) (hmy : my < 2 ^ 53) (hb : b ≤ 2097) (hmod : m % my * 2 ^ b = Z * 2 ^ 52)
    {fuel : Nat} (hfuel : 53 ≤ fuel) :
    ∃ p, finishF64 W fuel ((b : Int) - 51) (float64.pack s 0 0) (restoreF64 m my) = some p ∧
      IsPattern float64 s Z p := by
  rw [restoreF64_eq hlt hmy]
  by_cases hsame : m = my
  · have hZ : Z = 0 := by
      rw [hsame, Nat.mod_self, Nat.zero_mul] at hmod
      exact (Nat.mul_eq_zero.mp hmod.symm).resolve_right (Nat.ne_of_gt (Nat.two_pow_pos 52))
    rw [if_pos hsame]
    refine ⟨float64.pack s 0 0, rfl, ?_⟩
    rw [hZ]
    exact isPattern_zero (by decide) s
  · rw [if_neg hsame]
    have hz : reduceOnce my m ≠ 0 := by
      unfold reduceOnce
      split <;> omega
    have hsmall : reduceOnce my m < 2 ^ 53 := Nat.lt_trans (reduceOnce_lt hlt) hmy
    rw [← reduceOnce_eq hlt] at hmod
    generalize reduceOnce my m = R at hmod hsmall hz
    have hZ : 0 < Z := by
      refine Nat.pos_of_ne_zero fun hZ => ?_
      rw [hZ, Nat.zero_mul] at hmod
      exact absurd hmod (Nat.mul_ne_zero hz (Nat.ne_of_gt (Nat.two_pow_pos b)))
    obtain ⟨c, hc, hlo, hhi⟩ := exists_shift (M := 52) (Nat.pos_of_ne_zero hz) hsmall
    obtain ⟨hcb, hnorm⟩ := Normalised.of_shift hZ hmod hlo hhi
    obtain ⟨p, hp, hpat⟩ := packF64_eq hW (s := s) hnorm (by omega)
    have hexp : (b : Int) - 51 - c = (b - c : Nat) - 51 := by omega
    have hnormal : normalizeF64 W fuel R ((b : Int) - 51) =
        some (R * 2 ^ c, ((b - c : Nat) : Int) - 51) := by
      rw [← hexp]
      exact normalizeF64_eq hW hlo hhi (by omega) (by omega) (by omega)
    refine ⟨p, ?_, hpat⟩
    rw [finishF64, hnormal]
    exact hp

theorem fmodF64_isPattern {W : Machine} (hW : W.Exact 64) {x y : Nat} (hx : x < 2 ^ 64)
    (hfx : float64.isFinite x = true) (hfy : float64.isFinite y = true) (hy : float64.low y ≠ 0)
    (hle : float64.low y ≤ float64.low x) {fuel : Nat} (hfuel : 2100 ≤ fuel) :
    ∃ r, fmodF64ExactScalar W fuel x y = some r ∧
      IsPattern float64 (float64.sign x) (float64.units x % float64.units y) r := by
  have hsx : x &&& 0x8000000000000000 = float64.pack (float64.sign x) 0 0 :=
    FloatFormat.signBit_eq_and (f := float64) hx
  have hyinf : float64.low y < 0x7FF0000000000000 := FloatFormat.isFinite_iff.mp hfy
  have hmax : float64.exponent x ≠ 2047 := bne_iff_ne.mp hfx
  have hzero := isPattern_zero (f := float64) (by decide) (float64.sign x)
  rw [fmodF64ExactScalar]
  dsimp only
  rw [hsx, (f64_fields x).1, (f64_fields x).2, (f64_fields y).1, (f64_fields y).2,
    if_neg (by omega)]
  by_cases heq : float64.low x = float64.low y
  · have hunits : float64.units x = float64.units y := FloatFormat.units_eq_iff.mpr heq
    refine ⟨float64.pack (float64.sign x) 0 0, ?_, ?_⟩
    · rw [if_pos (by omega), if_pos (by omega)]
    · rw [hunits, Nat.mod_self]
      exact hzero
  rw [if_neg (by omega)]
  obtain ⟨mx, a, hunpackx, hnx, ha⟩ := unpackF64_eq hW hfx (by omega) (by omega : 53 ≤ fuel)
  obtain ⟨my, b, hunpacky, hny, hb⟩ := unpackF64_eq hW hfy hy (by omega : 53 ≤ fuel)
  have hba : b ≤ a := by
    refine hnx.exponent_le hny (Nat.le_of_not_lt fun hlt => ?_)
    exact absurd (FloatFormat.units_lt_iff.mp hlt) (Nat.not_lt_of_le hle)
  have hdiff : (a : Int) - 51 = (b : Int) - 51 + (a - b : Nat) := by omega
  have hmod := hnx.mod_eq hny hba
  have hpos : 0 < mx := Nat.lt_of_lt_of_le (Nat.two_pow_pos 52) hnx.lo
  obtain ⟨r, hr, hspec⟩ := divideLoop_eq hW hny.hi (fun mx hlt => restoreF64_eq hlt hny.hi)
    (by omega : -5000 ≤ (b : Int) - 51) (by omega : a - b < fuel) (by omega) hpos
    (hnx.lt_two_mul hny)
  rw [← hdiff] at hr
  have hr : divideF64 W my ((b : Int) - 51) fuel mx ((a : Int) - 51) = some r := hr
  rw [hunpackx, hunpacky]
  dsimp only [Option.bind_eq_bind, Option.bind_some]
  rw [hr, Option.bind_some]
  match r, hspec with
  | none, hspec =>
      rw [hspec, Nat.zero_mul] at hmod
      have hZ : float64.units x % float64.units y = 0 :=
        (Nat.mul_eq_zero.mp hmod.symm).resolve_right (Nat.ne_of_gt (Nat.two_pow_pos 52))
      exact ⟨_, rfl, hZ.symm ▸ hzero⟩
  | some (m, ex), ⟨hex, hm, hlt, hrem⟩ =>
      rw [← hrem] at hmod
      dsimp only
      rw [hex]
      exact finishF64_eq hW hm hlt hny.hi hb hmod (by omega)

theorem fmodF64_eq {x y : Nat} (hx : x < 2 ^ 64) :
    ∃ r, r < 2 ^ 64 ∧ IsFmod float64 x y r ∧ ∀ W : Machine, W.Exact 64 → ∀ fuel, 2100 ≤ fuel →
      fmodF64ExactScalar W fuel x y = some r := by
  have hexp : float64.exponent x = float64.low x / 2 ^ 52 := rfl
  have hltx : float64.exponent x < 2048 := float64.exponent_lt x
  by_cases hspecial : float64.low y = 0 ∨ 0x7FF0000000000000 ≤ float64.low x ∨
      0x7FF0000000000000 < float64.low y
  · refine ⟨0x7FF8000000000000, by decide, ?_, fun W _ fuel _ => ?_⟩
    · rw [IsFmod, if_neg (isNaN_or_of_special hspecial)]
      decide
    · rw [fmodF64ExactScalar, (f64_fields x).1, (f64_fields y).2]
      exact if_pos (by omega)
  have hcond : ¬(2 * float64.low y = 0 ∨ 0xFFE0000000000000 < 2 * float64.low y ∨
      float64.exponent x = 0x7FF) := by omega
  by_cases hlt : float64.low x < float64.low y
  · refine ⟨x, hx, isFmod_self hlt (Nat.le_of_not_lt fun h => hspecial (.inr (.inr h))),
      fun W _ fuel _ => ?_⟩
    rw [fmodF64ExactScalar, (f64_fields x).1, (f64_fields y).2, (f64_fields x).2]
    exact (if_neg hcond).trans ((if_pos (by omega)).trans (if_neg (by omega)))
  have hfx : float64.isFinite x = true :=
    FloatFormat.isFinite_iff.mpr (Nat.lt_of_not_le fun h => hspecial (.inr (.inl h)))
  have hfy : float64.isFinite y = true :=
    FloatFormat.isFinite_iff.mpr (Nat.lt_of_le_of_lt (Nat.le_of_not_lt hlt)
      (FloatFormat.isFinite_iff.mp hfx))
  have hy : float64.low y ≠ 0 := fun h => hspecial (.inl h)
  have hcode : ∀ W : Machine, W.Exact 64 → ∀ fuel, 2100 ≤ fuel → ∃ r, _ := fun W hW fuel hfuel =>
    fmodF64_isPattern hW hx hfx hfy hy (Nat.le_of_not_lt hlt) hfuel
  obtain ⟨r, -, hr⟩ := hcode _ (checked_exact 64) 2100 (Nat.le_refl 2100)
  refine ⟨r, hr.lt, isFmod_of_isPattern hfx hfy hy hr fun h => ?_, fun W hW fuel hfuel => ?_⟩
  · exact absurd (FloatFormat.units_lt_iff.mp h) hlt
  · obtain ⟨r', hcode, hr'⟩ := hcode W hW fuel hfuel
    rw [hcode, hr'.unique hr]

/-- The bit-serial `fmod` of two patterns is their exact remainder, on words that wrap as on
    words that hold every number and lose no bit. -/
theorem fmod_exact :
    (∀ x y : BitVec 32, ∃ r : BitVec 32, IsFmod float32 x.toNat y.toNat r.toNat ∧ ∀ extra,
      fmodNarrowFloatExactScalar (wrapping 32) (24 + extra) x.toNat y.toNat = some r.toNat ∧
      fmodNarrowFloatExactScalar (checked 32) (24 + extra) x.toNat y.toNat = some r.toNat) ∧
    ∀ x y : BitVec 64, ∃ r : BitVec 64, IsFmod float64 x.toNat y.toNat r.toNat ∧ ∀ extra,
      fmodF64ExactScalar (wrapping 64) (2100 + extra) x.toNat y.toNat = some r.toNat ∧
      fmodF64ExactScalar (checked 64) (2100 + extra) x.toNat y.toNat = some r.toNat := by
  constructor
  · intro x y
    obtain ⟨r, hlt, hspec, hcode⟩ := fmodNarrow_eq (y := y.toNat) x.isLt
    refine ⟨⟨r, hlt⟩, hspec, fun extra => ⟨?_, ?_⟩⟩
    · exact hcode _ (wrapping_exact (by decide)) _ (Nat.le_add_right 24 extra)
    · exact hcode _ (checked_exact 32) _ (Nat.le_add_right 24 extra)
  · intro x y
    obtain ⟨r, hlt, hspec, hcode⟩ := fmodF64_eq (y := y.toNat) x.isLt
    refine ⟨⟨r, hlt⟩, hspec, fun extra => ⟨?_, ?_⟩⟩
    · exact hcode _ (wrapping_exact (by decide)) _ (Nat.le_add_right 2100 extra)
    · exact hcode _ (checked_exact 64) _ (Nat.le_add_right 2100 extra)

/-- 5.5 by 2 is 1.5. -/
example : fmodNarrowFloatExactScalar (checked 32) 24 0x40B00000 0x40000000 = some 0x3FC00000 := by
  decide

end TorchMojoBackend.Kernels.Fmod
