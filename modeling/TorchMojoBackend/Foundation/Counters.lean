/-
  `Foundation.Counters`: 32-bit loop counters.

  Everything in this file is independent of the modelled program.  A loop advances an
  index by a step, modulo 2^32, and may carry the remainder of a multiple of the index
  along: an addition and a conditional subtraction in place of a division.  While the
  bound and the step fit together nothing wraps, and the loop visits the values of the
  exact one with their remainders.
-/
import TorchMojoBackend.Foundation.Launch

set_option autoImplicit false

namespace TorchMojoBackend.Foundation

/-- A value as an unsigned 32-bit integer. -/
def u32 (n : Nat) : Nat := n % 2 ^ 32

theorem u32_of_lt {n : Nat} (h : n < 2 ^ 32) : u32 n = n := Nat.mod_eq_of_lt h

/-- The values of `i` in `while i < n: ...; i += step`. -/
def loop32 (n step : Nat) : Nat → Nat → List Nat
  | 0, _ => []
  | fuel + 1, i => if i < n then i :: loop32 n step fuel (u32 (i + step)) else []

theorem loop32_eq {n step : Nat} (hwrap : n + step ≤ 2 ^ 32) (fuel i : Nat) :
    loop32 n step fuel i = strided n step fuel i := by
  induction fuel generalizing i with
  | zero => rfl
  | succ fuel ih =>
      unfold loop32 strided
      split
      · rw [u32_of_lt (by omega), ih]
      · rfl

/-- `r` after `r += adv; if r >= m: r -= m`. -/
def carry (m adv r : Nat) : Nat :=
  let r := u32 (r + adv)
  if r ≥ m then r - m else r

/-- The values of `(i, r)` in `while i < n: ...; i += step; r += adv; if r >= m: r -= m`. -/
def carriedLoop (n step m adv : Nat) : Nat → Nat → Nat → List (Nat × Nat)
  | 0, _, _ => []
  | fuel + 1, i, r =>
    if i < n then (i, r) :: carriedLoop n step m adv fuel (u32 (i + step)) (carry m adv r) else []

theorem carry_eq {m w i step : Nat} (hm : 0 < m) (hwrap : 2 * m ≤ 2 ^ 32) :
    carry m (step * w % m) (i * w % m) = (i + step) * w % m := by
  have hadv := Nat.mod_lt (step * w) hm
  have hr := Nat.mod_lt (i * w) hm
  unfold carry
  rw [u32_of_lt (by omega), Nat.add_mul, Nat.add_mod (i * w)]
  generalize step * w % m = adv at hadv ⊢
  generalize i * w % m = r at hr ⊢
  dsimp only
  split
  · rw [Nat.mod_eq_sub_mod ‹_›, Nat.mod_eq_of_lt (by omega)]
  · rw [Nat.mod_eq_of_lt (by omega)]

/-- The carried value is the remainder at each round. -/
theorem carriedLoop_eq {n step m w : Nat} (hm : 0 < m) (hwrap : n + step ≤ 2 ^ 32)
    (hwrap' : 2 * m ≤ 2 ^ 32) (fuel : Nat) {i r : Nat} (hr : i < n → r = i * w % m) :
    carriedLoop n step m (step * w % m) fuel i r =
      (strided n step fuel i).map fun i => (i, i * w % m) := by
  induction fuel generalizing i r with
  | zero => rfl
  | succ fuel ih =>
      unfold carriedLoop strided
      split
      · rename_i hin
        rw [hr hin, carry_eq hm hwrap', u32_of_lt (by omega), ih fun _ => rfl, List.map_cons]
      · rfl

/-- A loop over the multiples of a width. -/
theorem strided_mul {w : Nat} (hw : 0 < w) (n step fuel i : Nat) :
    strided (n * w) (step * w) fuel (i * w) = (strided n step fuel i).map (· * w) := by
  induction fuel generalizing i with
  | zero => rfl
  | succ fuel ih =>
      unfold strided
      rw [if_congr (Nat.mul_lt_mul_right hw) rfl rfl]
      split
      · rw [List.map_cons, ← Nat.add_mul, ih]
      · rfl

/-- The threads of a grid in blocks, each with its values of a loop. -/
theorem threads_strided_perm {blocks size n : Nat} (hpos : 0 < blocks * size) :
    ((List.range blocks).flatMap fun b => (List.range size).flatMap fun t =>
      strided n (blocks * size) n (b * size + t)).Perm (List.range n) := by
  have hflat : ((List.range blocks).flatMap fun b => (List.range size).flatMap fun t =>
      strided n (blocks * size) n (b * size + t)) = gridItems (blocks * size) n := by
    rw [gridItems, range_mul, List.flatMap_assoc]
    refine List.flatMap_congr fun b _ => ?_
    rw [List.flatMap_map]
  rw [hflat]
  exact gridItems_perm n hpos

end TorchMojoBackend.Foundation
