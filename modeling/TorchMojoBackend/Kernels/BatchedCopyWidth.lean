/-
  `Kernels.BatchedCopyWidth`: heads and widths.

  In elements, the head of a rectangle for a width is what is missing at the source to
  the next multiple of the width, cut off at the row's end.  A rectangle that allows a
  width with a head that is not cut off allows every smaller one; one whose head is its
  whole row may not.
-/
import Mathlib.Data.Nat.Prime.Basic
import Mathlib.Tactic.IntervalCases
import TorchMojoBackend.Kernels.BatchedCopy

set_option autoImplicit false

namespace TorchMojoBackend.Kernels.BatchedCopy

open TorchMojoBackend.Foundation

variable {sS sD : Size}

/-! ## Widths -/

theorem dvd_sixteen_cases {n : Nat} (h : n ∣ 16) : n = 1 ∨ n = 2 ∨ n = 4 ∨ n = 8 ∨ n = 16 := by
  have hle := Nat.le_of_dvd (by decide) h
  interval_cases n
  all_goals revert h; decide

theorem size_pos (s : Size) : 0 < s.1 := Nat.pos_of_dvd_of_pos s.2 (by decide)

theorem vec_dvd (sS sD : Size) : vec sS sD ∣ 16 := by
  have hmax : max sS.1 sD.1 ∣ 16 := by
    obtain h | h := max_choice sS.1 sD.1
    · rw [h]
      exact sS.2
    · rw [h]
      exact sD.2
  exact Nat.div_dvd_of_dvd hmax

theorem vec_cases (sS sD : Size) : vec sS sD = 1 ∨ vec sS sD = 2 ∨ vec sS sD = 4 ∨
    vec sS sD = 8 ∨ vec sS sD = 16 := dvd_sixteen_cases (vec_dvd sS sD)

/-- The dispatch on the width runs one kernel. -/
theorem dispatch_width {β : Type*} {width : Nat} (h : width ∣ vec sS sD) (f : Nat → β) :
    ((List.range 5).flatMap fun step =>
      if vec sS sD / 2 ^ step ≥ 1 ∧ width = vec sS sD / 2 ^ step then [f (vec sS sD / 2 ^ step)]
      else []) = [f width] := by
  obtain hw | hw | hw | hw | hw := dvd_sixteen_cases (h.trans (vec_dvd sS sD)) <;>
  obtain hv | hv | hv | hv | hv := vec_cases sS sD <;>
  rw [hw, hv] at h <;>
  first
  | exact absurd h (by decide)
  | simp [hw, hv, List.range, List.range.loop]

/-! ## Heads -/

/-- A rectangle whose addresses are those of elements. -/
structure CopyRect.Sited (sS sD : Size) (r : CopyRect) : Prop where
  src : sS.1 ∣ r.src
  dst : sD.1 ∣ r.dst

/-- The elements missing at the source to the next multiple of the width. -/
def peel (sS : Size) (width : Nat) (r : CopyRect) : Nat :=
  (width - r.src / sS.1 % width) % width

/-- The test of the destination and of the pitches. -/
def Allows (sS sD : Size) (width : Nat) (r : CopyRect) : Prop :=
  (r.dst / sD.1 + min (peel sS width r) r.cols) % width = 0 ∧
    (r.rows > 1 → r.srcPitch % width = 0 ∧ r.dstPitch % width = 0)

theorem head_eq {r : CopyRect} (hr : r.Sited sS sD) (width : Nat) :
    head sS sD width r = min (peel sS width r) r.cols ∧ Allows sS sD width r ∨
      head sS sD width r = -1 ∧ ¬ Allows sS sD width r := by
  obtain ⟨a, ha⟩ := hr.src
  obtain ⟨d, hd⟩ := hr.dst
  have hS := size_pos sS
  have hD := size_pos sD
  have hpeel : (width * sS.1 - r.src % (width * sS.1)) % (width * sS.1) / sS.1 =
      peel sS width r := by
    unfold peel
    rw [ha, Nat.mul_div_cancel_left _ hS, Nat.mul_comm sS.1 a, Nat.mul_mod_mul_right,
      ← Nat.sub_mul, Nat.mul_mod_mul_right, Nat.mul_div_cancel _ hS]
  have hdst : (r.dst + min (peel sS width r) r.cols * sD.1) % (width * sD.1) = 0 ↔
      (r.dst / sD.1 + min (peel sS width r) r.cols) % width = 0 := by
    rw [hd, Nat.mul_div_cancel_left _ hD, Nat.mul_comm sD.1 d, ← Nat.add_mul,
      Nat.mul_mod_mul_right, Nat.mul_eq_zero]
    exact or_iff_left (Nat.ne_of_gt hD)
  unfold head Allows
  dsimp only
  rw [hpeel]
  by_cases h : (r.dst / sD.1 + min (peel sS width r) r.cols) % width = 0
  · rw [if_neg (not_not.mpr (hdst.mpr h))]
    by_cases hpitch : r.rows > 1 ∧ (r.srcPitch % width ≠ 0 ∨ r.dstPitch % width ≠ 0)
    · rw [if_pos hpitch]
      refine .inr ⟨rfl, fun hall => ?_⟩
      obtain ⟨hs, hd⟩ := hall.2 hpitch.1
      exact hpitch.2.elim (fun hne => hne hs) fun hne => hne hd
    · rw [if_neg hpitch]
      refine .inl ⟨by rfl, h, fun hrows => ?_⟩
      rw [not_and, not_or, not_not, not_not] at hpitch
      exact hpitch hrows
  · rw [if_pos (fun heq => h (hdst.mp heq))]
    exact .inr ⟨rfl, fun hall => h hall.1⟩

theorem head_nonneg_iff {r : CopyRect} (hr : r.Sited sS sD) (width : Nat) :
    0 ≤ head sS sD width r ↔ Allows sS sD width r := by
  obtain ⟨heq, h⟩ | ⟨heq, h⟩ := head_eq hr width
  · exact iff_of_true (by omega) h
  · exact iff_of_false (by omega) h

/-- Every rectangle allows accesses of one element. -/
theorem allows_one (r : CopyRect) : Allows sS sD 1 r :=
  ⟨Nat.mod_one _, fun _ => ⟨Int.emod_one _, Int.emod_one _⟩⟩

/-- A row as long as the peel allows the smaller widths with a width. -/
theorem Allows.smaller {r : CopyRect} {width width' : Nat} (h : Allows sS sD width r)
    (hdvd : width' ∣ width) (hwidth : width ∣ 16) (hlong : peel sS width r ≤ r.cols) :
    Allows sS sD width' r := by
  obtain ⟨hdst, hpitch⟩ := h
  refine ⟨?_, fun hrows => ?_⟩
  · rw [Nat.min_eq_left hlong] at hdst
    unfold peel at hdst hlong ⊢
    generalize r.src / sS.1 = a at *
    generalize r.dst / sD.1 = d at *
    obtain rfl | rfl | rfl | rfl | rfl := dvd_sixteen_cases hwidth <;>
    obtain rfl | rfl | rfl | rfl | rfl := dvd_sixteen_cases (hdvd.trans hwidth) <;>
    first
    | exact absurd hdvd (by decide)
    | omega
  · obtain ⟨hs, hd⟩ := hpitch hrows
    have hcast : (width' : Int) ∣ width := Int.natCast_dvd_natCast.mpr hdvd
    exact ⟨Int.emod_eq_zero_of_dvd (hcast.trans (Int.dvd_of_emod_eq_zero hs)),
      Int.emod_eq_zero_of_dvd (hcast.trans (Int.dvd_of_emod_eq_zero hd))⟩

instance (width : Nat) (r : CopyRect) : Decidable (Allows sS sD width r) :=
  inferInstanceAs (Decidable (_ ∧ _))

variable (sS sD) in
/-- The largest of `width`, `width / 2`, ... that a rectangle allows. -/
def widest : Nat → Nat → CopyRect → Nat
  | 0, width, _ => width
  | steps + 1, width, r =>
    if Allows sS sD width r then width else widest steps (width / 2) r

/-- A power of two above one that a rectangle refuses is even. -/
theorem half_dvd {steps width : Nat} (hwidth : width ∣ 2 ^ (steps + 1)) {r : CopyRect}
    (hno : ¬ Allows sS sD width r) : width / 2 ∣ 2 ^ steps ∧ width / 2 ∣ width ∧ 1 < width := by
  obtain ⟨k, hk, rfl⟩ := (Nat.dvd_prime_pow Nat.prime_two).mp hwidth
  cases k with
  | zero => exact absurd (allows_one r) hno
  | succ k =>
      rw [Nat.pow_succ, Nat.mul_div_cancel _ (by decide)]
      have hpos : 0 < 2 ^ k := Nat.pow_pos (by decide)
      exact ⟨Nat.pow_dvd_pow 2 (Nat.le_of_succ_le_succ hk), Nat.dvd_mul_right _ _, by omega⟩

theorem widest_dvd {steps width : Nat} (hwidth : width ∣ 2 ^ steps) (r : CopyRect) :
    widest sS sD steps width r ∣ width ∧ Allows sS sD (widest sS sD steps width r) r := by
  induction steps generalizing width with
  | zero =>
      rw [Nat.dvd_one.mp hwidth]
      exact ⟨Nat.dvd_refl _, allows_one r⟩
  | succ steps ih =>
      unfold widest
      split
      · rename_i hall
        exact ⟨Nat.dvd_refl _, hall⟩
      · rename_i hno
        obtain ⟨hdvd, hhalf, -⟩ := half_dvd hwidth hno
        obtain ⟨hle, hall⟩ := ih hdvd
        exact ⟨hle.trans hhalf, hall⟩

/-- More steps than the width has halves change nothing. -/
theorem widest_succ {steps width : Nat} (hwidth : width ∣ 2 ^ steps) (r : CopyRect) :
    widest sS sD (steps + 1) width r = widest sS sD steps width r := by
  induction steps generalizing width with
  | zero =>
      rw [Nat.dvd_one.mp hwidth]
      exact if_pos (allows_one r)
  | succ steps ih =>
      by_cases hall : Allows sS sD width r
      · unfold widest
        rw [if_pos hall, if_pos hall]
      · calc widest sS sD (steps + 1 + 1) width r
          _ = widest sS sD (steps + 1) (width / 2) r := if_neg hall
          _ = widest sS sD steps (width / 2) r := ih (half_dvd hwidth hall).1
          _ = widest sS sD (steps + 1) width r := (if_neg hall).symm

/-- One step of `narrow`. -/
def narrowStep (sS sD : Size) (r : CopyRect) (width step : Nat) : Nat :=
  if vec sS sD / 2 ^ step > 1 ∧ width = vec sS sD / 2 ^ step ∧
      head sS sD (vec sS sD / 2 ^ step) r < 0 then
    vec sS sD / 2 ^ step / 2
  else width

theorem narrowStep_stays {r : CopyRect} (hr : r.Sited sS sD) {width step : Nat}
    (h : width = vec sS sD / 2 ^ step → Allows sS sD width r) :
    narrowStep sS sD r width step = width := by
  refine if_neg ?_
  rintro ⟨-, rfl, hneg⟩
  have := (head_nonneg_iff hr _).mpr (h rfl)
  omega

theorem foldl_narrowStep_stays {r : CopyRect} (hr : r.Sited sS sD) {width : Nat}
    (h : Allows sS sD width r) (steps : List Nat) :
    steps.foldl (narrowStep sS sD r) width = width := by
  induction steps with
  | nil => rfl
  | cons step steps ih => rw [List.foldl_cons, narrowStep_stays hr fun _ => h, ih]

/-- From the `i`-th width on. -/
theorem narrow_steps {n i width : Nat} (hwidth : width ∣ vec sS sD / 2 ^ i)
    (hend : vec sS sD / 2 ^ i ∣ 2 ^ n) {r : CopyRect} (hr : r.Sited sS sD) :
    (List.range' i n).foldl (narrowStep sS sD r) width = widest sS sD n width r := by
  induction n generalizing i width with
  | zero => rfl
  | succ n ih =>
      by_cases hall : Allows sS sD width r
      · rw [foldl_narrowStep_stays hr hall]
        exact (if_pos hall).symm
      · obtain ⟨hdvd, hhalf, hone⟩ := half_dvd (hwidth.trans hend) hall
        have hnext : vec sS sD / 2 ^ (i + 1) = vec sS sD / 2 ^ i / 2 := by
          rw [Nat.div_div_eq_div_mul, Nat.pow_succ]
        rw [List.range'_succ, List.foldl_cons]
        by_cases hwide : width = vec sS sD / 2 ^ i
        · have hneg : head sS sD (vec sS sD / 2 ^ i) r < 0 := by
            rw [← hwide, ← Int.not_le, head_nonneg_iff hr]
            exact hall
          have hfires : narrowStep sS sD r width i = width / 2 := by
            rw [hwide]
            exact if_pos ⟨hwide ▸ hone, rfl, hneg⟩
          rw [hfires, ih (by rw [hnext, hwide]) (by rw [hnext, ← hwide]; exact hdvd)]
          exact (if_neg hall).symm
        · have hlater : width ∣ vec sS sD / 2 ^ (i + 1) ∧ vec sS sD / 2 ^ (i + 1) ∣ 2 ^ n := by
            obtain ⟨k, hk, hpow⟩ := (Nat.dvd_prime_pow Nat.prime_two).mp hend
            rw [hpow] at hwidth hwide
            obtain ⟨j, hj, rfl⟩ := (Nat.dvd_prime_pow Nat.prime_two).mp hwidth
            cases k with
            | zero => exact absurd (congrArg _ (Nat.le_zero.mp hj)) hwide
            | succ k =>
                have hne : j ≠ k + 1 := fun heq => hwide (congrArg _ heq)
                rw [hnext, hpow, Nat.pow_succ, Nat.mul_div_cancel _ (by decide)]
                exact ⟨Nat.pow_dvd_pow 2 (by omega), Nat.pow_dvd_pow 2 (by omega)⟩
          rw [narrowStep_stays hr fun heq => absurd heq hwide, ih hlater.1 hlater.2,
            widest_succ (hlater.1.trans hlater.2)]

theorem narrow_eq_widest {width : Nat} (hwidth : width ∣ vec sS sD) {r : CopyRect}
    (hr : r.Sited sS sD) : narrow sS sD width r = widest sS sD 5 width r := by
  unfold narrow
  rw [List.range_eq_range']
  refine @narrow_steps sS sD 5 0 width ?_ ?_ r hr
  · rw [Nat.pow_zero, Nat.div_one]
    exact hwidth
  · rw [Nat.pow_zero, Nat.div_one]
    exact (vec_dvd sS sD).trans (by decide)

/-- A rectangle narrows the width to one it allows. -/
theorem narrow_spec {width : Nat} (hwidth : width ∣ vec sS sD) {r : CopyRect}
    (hr : r.Sited sS sD) :
    narrow sS sD width r ∣ width ∧ 0 ≤ head sS sD (narrow sS sD width r) r := by
  have h32 : width ∣ 2 ^ 5 := (hwidth.trans (vec_dvd sS sD)).trans (by decide)
  rw [narrow_eq_widest hwidth hr]
  obtain ⟨hdvd, hall⟩ := @widest_dvd sS sD 5 width h32 r
  exact ⟨hdvd, (head_nonneg_iff hr _).mpr hall⟩

/-- The width of a launch, from one rectangle to the next. -/
theorem foldl_narrow_spec {rects : List CopyRect} {width : Nat} (hwidth : width ∣ vec sS sD)
    (hrects : ∀ r ∈ rects, r.Sited sS sD) :
    rects.foldl (narrow sS sD) width ∣ width ∧ ∀ r ∈ rects, ∃ w, w ∣ vec sS sD ∧
      rects.foldl (narrow sS sD) width ∣ w ∧ Allows sS sD w r := by
  induction rects generalizing width with
  | nil => exact ⟨Nat.dvd_refl _, fun r hr => absurd hr List.not_mem_nil⟩
  | cons r rects ih =>
      obtain ⟨hdvd, hhead⟩ := narrow_spec hwidth (hrects r List.mem_cons_self)
      obtain ⟨hrest, hall⟩ := ih (hdvd.trans hwidth)
        fun q hq => hrects q (List.mem_cons_of_mem _ hq)
      rw [List.foldl_cons]
      refine ⟨hrest.trans hdvd, fun q hq => ?_⟩
      obtain rfl | hq := List.mem_cons.mp hq
      · exact ⟨_, hdvd.trans hwidth, hrest,
          (head_nonneg_iff (hrects q List.mem_cons_self) _).mp hhead⟩
      · exact hall q hq

/-- A rectangle that refuses the width of its launch has rows below 16 elements. -/
theorem cols_lt_of_refuses {rects : List CopyRect} (hrects : ∀ r ∈ rects, r.Sited sS sD)
    {r : CopyRect} (hr : r ∈ rects)
    (hno : ¬ Allows sS sD (rects.foldl (narrow sS sD) (vec sS sD)) r) : r.cols < 16 := by
  obtain ⟨w, hw, hdvd, hall⟩ := (foldl_narrow_spec (Nat.dvd_refl _) hrects).2 r hr
  have hw16 := hw.trans (vec_dvd sS sD)
  by_contra hlong
  have hpeel : peel sS w r < w := Nat.mod_lt _ (Nat.pos_of_dvd_of_pos hw16 (by decide))
  have hle := Nat.le_of_dvd (by decide) hw16
  exact hno (hall.smaller hdvd hw16 (by omega))

end TorchMojoBackend.Kernels.BatchedCopy
