/-
  `Kernels.Linalg.JacobiRounds`: the order in which the Jacobi kernels meet the columns.

  Source: tmb/kernels/linalg/entry.mojo (`_rr_pair`, the rounds of `_syevj_kernel` and of
  `_gesvdj_kernel`).

  A sweep has `mm - 1` rounds over `mm` players, the columns and with an odd number of them one more
  that is left out.  The threads of a block share the pairs of a round, and rotate the two columns of
  each: pairs of one round have no column in common, and a sweep meets every pair of columns once
  (`sweep_meets`).
-/
import Mathlib.Algebra.Ring.Parity
import TorchMojoBackend.Foundation.Launch

set_option autoImplicit false

namespace TorchMojoBackend.Kernels.Linalg.Jacobi

open TorchMojoBackend.Foundation

/-- `_rr_pair`; `t` is below `mm`, so that `round - t + mm - 1` is not negative. -/
def _rr_pair (round t mm : Nat) : Nat × Nat :=
  let p := if t = 0 then round else (round + t) % (mm - 1)
  let q := if t = 0 then mm - 1 else (round + (mm - 1) - t) % (mm - 1)
  if p > q then (q, p) else (p, q)

/-- `mm`: the columns and a player more if their number is odd. -/
def players (n : Nat) : Nat := n + n % 2

/-- The pairs of columns that `nt` threads rotate in a round: `if q < n`. -/
def roundPairs (nt n round : Nat) : List (Nat × Nat) :=
  ((gridItems nt (players n / 2)).map fun t => _rr_pair round t (players n)).filter fun pq => pq.2 < n

/-- The pairs of a sweep: `for rnd in range(mm - 1)`. -/
def sweepPairs (nt n : Nat) : List (Nat × Nat) :=
  (List.range (players n - 1)).flatMap (roundPairs nt n)

/-! ## Rounds -/

theorem mod_wrap {x m : Nat} (h : x < 2 * m) : x % m = if x < m then x else x - m := by
  split
  · next hlt => exact Nat.mod_eq_of_lt hlt
  · next hge =>
      rw [Nat.mod_eq_sub_mod (Nat.le_of_not_lt hge)]
      exact Nat.mod_eq_of_lt (by omega)

section

variable {h round t : Nat} (hround : round < 2 * h - 1) (ht : t < h)
include hround ht

/-- A pair around the circle: the players `t` before and behind the round's, or the round's own and
the last one. -/
theorem rr_pair_cases {i j : Nat} : _rr_pair round t (2 * h) = (i, j) ↔ i < j ∧ j < 2 * h ∧
    (t = 0 ∧ i = round ∧ j = 2 * h - 1 ∨
      0 < t ∧ j < 2 * h - 1 ∧ (round = i + t ∧ round + t = j ∨ round = j + t ∧ round + t = i + (2 * h - 1) ∨
        round + t = i ∧ round + (2 * h - 1) = j + t)) := by
  unfold _rr_pair
  dsimp only
  by_cases hzero : t = 0
  · rw [if_pos hzero, if_pos hzero, if_neg (by omega), Prod.mk.injEq]
    omega
  · rw [if_neg hzero, if_neg hzero, mod_wrap (by omega), mod_wrap (by omega)]
    split <;> split <;> split <;> rw [Prod.mk.injEq] <;> constructor <;> intro hpair <;> omega

end

/-- Every player is in one pair of a round only. -/
theorem round_apart {h round t t' : Nat} {x y : Nat × Nat} (hround : round < 2 * h - 1) (ht : t < h)
    (ht' : t' < h) (hx : _rr_pair round t (2 * h) = x) (hy : _rr_pair round t' (2 * h) = y) (hne : t ≠ t') :
    x.1 ≠ y.1 ∧ x.1 ≠ y.2 ∧ x.2 ≠ y.1 ∧ x.2 ≠ y.2 := by
  have hx := (rr_pair_cases hround ht).mp hx
  have hy := (rr_pair_cases hround ht').mp hy
  omega

/-- Two players meet once. -/
theorem pair_unique {h round round' t t' : Nat} {x : Nat × Nat} (hround : round < 2 * h - 1)
    (hround' : round' < 2 * h - 1) (ht : t < h) (ht' : t' < h) (hx : _rr_pair round t (2 * h) = x)
    (hx' : _rr_pair round' t' (2 * h) = x) : round = round' ∧ t = t' := by
  have hx := (rr_pair_cases hround ht).mp hx
  have hx' := (rr_pair_cases hround' ht').mp hx'
  omega

/-- Two players meet: in the round between them, or opposite to it when they are an odd number apart. -/
theorem exists_round {h i j : Nat} (hij : i < j) (hj : j < 2 * h) :
    ∃ round < 2 * h - 1, ∃ t < h, _rr_pair round t (2 * h) = (i, j) := by
  by_cases hlast : j = 2 * h - 1
  · exact ⟨i, by omega, 0, by omega, (rr_pair_cases (by omega) (by omega)).mpr (by omega)⟩
  · obtain ⟨d, hd⟩ := Nat.even_or_odd' (j - i)
    rcases hd with heven | hodd
    · exact ⟨i + d, by omega, d, by omega, (rr_pair_cases (by omega) (by omega)).mpr (by omega)⟩
    · -- `t` is half of the way around the other side
      have ht : h - 1 - d < h := by omega
      by_cases hwrap : j + (h - 1 - d) < 2 * h - 1
      · exact ⟨j + (h - 1 - d), hwrap, h - 1 - d, ht, (rr_pair_cases hwrap ht).mpr (by omega)⟩
      · have hlt : j + (h - 1 - d) - (2 * h - 1) < 2 * h - 1 := by omega
        exact ⟨_, hlt, h - 1 - d, ht, (rr_pair_cases hlt ht).mpr (by omega)⟩

/-! ## Sweeps -/

theorem players_eq (n : Nat) : players n = 2 * (players n / 2) := by
  unfold players
  omega

section

variable {nt n : Nat}

theorem mem_roundPairs (hnt : 0 < nt) {round : Nat} {x : Nat × Nat} : x ∈ roundPairs nt n round ↔
    x.2 < n ∧ ∃ t < players n / 2, _rr_pair round t (2 * (players n / 2)) = x := by
  unfold roundPairs
  rw [List.mem_filter, List.mem_map, decide_eq_true_iff, and_comm, ← players_eq]
  simp only [mem_gridItems hnt]

/-- The pairs of a round have no column in common. -/
theorem roundPairs_apart (hnt : 0 < nt) {round : Nat} (hround : round < players n - 1) :
    (roundPairs nt n round).Pairwise fun x y => x.1 ≠ y.1 ∧ x.1 ≠ y.2 ∧ x.2 ≠ y.1 ∧ x.2 ≠ y.2 := by
  refine List.Pairwise.filter _ (List.pairwise_map.mpr ?_)
  refine (gridItems_nodup hnt).imp_of_mem fun ht ht' hne => ?_
  rw [players_eq] at hround ⊢
  rw [mem_gridItems hnt] at ht ht'
  exact round_apart hround (by omega) (by omega) rfl rfl hne

/-- In every round, the pairs have no column in common, so the threads rotate them in any order; a sweep
meets every pair of columns, and each only once. -/
theorem sweep_meets (hnt : 0 < nt) (n : Nat) :
    (∀ round < players n - 1,
      (roundPairs nt n round).Pairwise fun x y => x.1 ≠ y.1 ∧ x.1 ≠ y.2 ∧ x.2 ≠ y.1 ∧ x.2 ≠ y.2) ∧
    (sweepPairs nt n).Nodup ∧ ∀ i j, (i, j) ∈ sweepPairs nt n ↔ i < j ∧ j < n := by
  have hplayers := players_eq n
  have hmem : ∀ x, x ∈ sweepPairs nt n ↔ x.2 < n ∧
      ∃ round < 2 * (players n / 2) - 1, ∃ t < players n / 2, _rr_pair round t (2 * (players n / 2)) = x := by
    intro x
    unfold sweepPairs
    rw [List.mem_flatMap, ← hplayers]
    constructor
    · rintro ⟨round, hround, hx⟩
      rw [List.mem_range] at hround
      obtain ⟨hn, t, ht, hpair⟩ := (mem_roundPairs hnt).mp hx
      exact ⟨hn, round, hround, t, ht, hplayers.symm ▸ hpair⟩
    · rintro ⟨hn, round, hround, t, ht, hpair⟩
      exact ⟨round, List.mem_range.mpr hround, (mem_roundPairs hnt).mpr ⟨hn, t, ht, hplayers ▸ hpair⟩⟩
  refine ⟨fun round => roundPairs_apart hnt, ?_, fun i j => ?_⟩
  · refine List.nodup_flatMap.mpr ⟨fun round hround => ?_, ?_⟩
    · exact (roundPairs_apart hnt (List.mem_range.mp hround)).imp fun hapart heq => hapart.1 (congrArg Prod.fst heq)
    · refine List.nodup_range.imp_of_mem fun {round round'} hround hround' hne x hx hx' => hne ?_
      rw [List.mem_range, hplayers] at hround hround'
      obtain ⟨-, t, ht, hpair⟩ := (mem_roundPairs hnt).mp hx
      obtain ⟨-, t', ht', hpair'⟩ := (mem_roundPairs hnt).mp hx'
      exact (pair_unique hround hround' ht ht' hpair hpair').1
  · rw [hmem]
    constructor
    · rintro ⟨hn, round, hround, t, ht, hpair⟩
      exact ⟨((rr_pair_cases hround ht).mp hpair).1, hn⟩
    · rintro ⟨hij, hn⟩
      have hj : j < 2 * (players n / 2) := by
        unfold players
        omega
      exact ⟨hn, exists_round hij hj⟩

theorem sweep_meets_five : (sweepPairs 2 5).Nodup ∧ (1, 3) ∈ sweepPairs 2 5 :=
  ⟨(sweep_meets Nat.zero_lt_two 5).2.1, ((sweep_meets Nat.zero_lt_two 5).2.2 1 3).mpr ⟨by omega, by omega⟩⟩

end

end TorchMojoBackend.Kernels.Linalg.Jacobi
