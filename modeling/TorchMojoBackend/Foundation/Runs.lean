/-
  `Foundation.Runs`: numbering the runs of a sequence.

  Everything in this file is independent of the modelled program.  A sequence of
  positions is cut at some of them, and the parts are numbered from zero.  A part is an
  interval, with one first and one last position, and its length is the distance from
  its first position to that of the next part.
-/
import Mathlib.Algebra.BigOperators.Group.Finset.Basic
import Mathlib.Order.Interval.Finset.Nat

set_option autoImplicit false

namespace TorchMojoBackend.Foundation

/-- The numbers of the parts of `n` positions rise by at most one. -/
structure RunNumbers (n : Nat) (G : Nat → Nat) : Prop where
  zero : G 0 = 0
  step : ∀ i, i + 1 < n → G (i + 1) = G i ∨ G (i + 1) = G i + 1

namespace RunNumbers

variable {n : Nat} {G : Nat → Nat} {i j g p q : Nat} (h : RunNumbers n G)
include h

theorem mono (hij : i ≤ j) (hj : j < n) : G i ≤ G j := by
  induction j, hij using Nat.le_induction with
  | base => exact Nat.le_refl _
  | succ j hij ih =>
      have hbefore := ih (Nat.lt_of_succ_lt hj)
      obtain heq | heq := h.step j hj
      · rw [heq]
        exact hbefore
      · rw [heq]
        exact Nat.le_succ_of_le hbefore

/-- One part is what has no cut in it. -/
theorem eq_iff (hij : i ≤ j) (hj : j < n) :
    G i = G j ↔ ∀ l, i < l → l ≤ j → G (l - 1) = G l := by
  constructor
  · intro heq l hil hlj
    have hlow := h.mono (show i ≤ l - 1 by omega) (by omega)
    have hmid := h.mono (Nat.sub_le l 1) (by omega)
    have hhigh := h.mono hlj hj
    omega
  · intro hall
    induction j, hij using Nat.le_induction with
    | base => rfl
    | succ j hij ih =>
        rw [ih (Nat.lt_of_succ_lt hj) fun l hil hlj => hall l hil (Nat.le_succ_of_le hlj)]
        exact hall (j + 1) (Nat.lt_succ_of_le hij) (Nat.le_refl _)

/-- No number is left out. -/
theorem exists_eq (hj : j < n) (hg : g ≤ G j) : ∃ i, i ≤ j ∧ G i = g := by
  induction j with
  | zero =>
      rw [h.zero] at hg
      exact ⟨0, Nat.le_refl 0, h.zero.trans (Nat.le_zero.mp hg).symm⟩
  | succ j ih =>
      obtain hgt | hle := Nat.lt_or_ge (G j) g
      · refine ⟨j + 1, Nat.le_refl _, ?_⟩
        obtain heq | heq := h.step j hj <;> omega
      · obtain ⟨i, hi, heq⟩ := ih (Nat.lt_of_succ_lt hj) hle
        exact ⟨i, Nat.le_succ_of_le hi, heq⟩

/-! ## First and last positions -/

theorem first_iff (hp : p < n) :
    (p = 0 ∨ G (p - 1) ≠ G p) ↔ ∀ i, i < n → G i = G p → p ≤ i := by
  constructor
  · rintro (rfl | hne) i hi heq
    · exact Nat.zero_le i
    · by_contra hlt
      have hlow := h.mono (show i ≤ p - 1 by omega) (by omega)
      have hhigh := h.mono (Nat.sub_le p 1) hp
      omega
  · intro hleast
    by_cases hzero : p = 0
    · exact .inl hzero
    · refine .inr fun heq => ?_
      have hle := hleast (p - 1) (by omega) heq
      omega

theorem last_iff (hp : p < n) :
    (p = n - 1 ∨ G (p + 1) ≠ G p) ↔ ∀ i, i < n → G i = G p → i ≤ p := by
  constructor
  · rintro (rfl | hne) i hi heq
    · omega
    · by_contra hlt
      have hlow := h.mono (Nat.le_add_right p 1) (show p + 1 < n by omega)
      have hhigh := h.mono (show p + 1 ≤ i by omega) hi
      omega
  · intro hgreatest
    by_cases hlast : p = n - 1
    · exact .inl hlast
    · refine .inr fun heq => ?_
      have hle := hgreatest (p + 1) (by omega) heq
      omega

/-- Each part has a first position. -/
theorem exists_first (hg : g ≤ G (n - 1)) (hn : 0 < n) :
    ∃ p, p < n ∧ G p = g ∧ ∀ i, i < n → G i = g → p ≤ i := by
  obtain ⟨i, hi, heq⟩ := h.exists_eq (Nat.sub_lt hn Nat.one_pos) hg
  have hex : ∃ i, i < n ∧ G i = g := ⟨i, by omega, heq⟩
  classical
  exact ⟨Nat.find hex, (Nat.find_spec hex).1, (Nat.find_spec hex).2,
    fun i hi heq => Nat.find_min' hex ⟨hi, heq⟩⟩

/-- Each part has a last position. -/
theorem exists_last (hg : g ≤ G (n - 1)) (hn : 0 < n) :
    ∃ p, p < n ∧ G p = g ∧ ∀ i, i < n → G i = g → i ≤ p := by
  obtain ⟨i, hi, heq⟩ := h.exists_eq (Nat.sub_lt hn Nat.one_pos) hg
  classical
  have hi' : i < n := by omega
  refine ⟨Nat.findGreatest (fun i => i < n ∧ G i = g) (n - 1), ?_⟩
  obtain ⟨hlt, heq'⟩ := Nat.findGreatest_spec (P := fun i => i < n ∧ G i = g) hi ⟨hi', heq⟩
  exact ⟨hlt, heq', fun j hj hjg => Nat.le_findGreatest (by omega) ⟨hj, hjg⟩⟩

/-- A part between first positions. -/
theorem mem_iff (hp : G p = g) (hfirst : ∀ i, i < n → G i = g → p ≤ i)
    (hq : q < n ∧ G q = g + 1 ∧ (∀ i, i < n → G i = g + 1 → q ≤ i) ∨
      q = n ∧ g = G (n - 1)) (hi : i < n) : G i = g ↔ p ≤ i ∧ i < q := by
  constructor
  · intro heq
    refine ⟨hfirst i hi heq, ?_⟩
    obtain ⟨hlt, hnext, -⟩ | ⟨rfl, -⟩ := hq
    · by_contra hle
      have hmono := h.mono (Nat.not_lt.mp hle) hi
      omega
    · exact hi
  · rintro ⟨hle, hlt⟩
    have hlow := h.mono hle hi
    obtain ⟨hqn, hnext, hleast⟩ | ⟨rfl, hlast⟩ := hq
    · have hhigh := h.mono (Nat.le_of_lt hlt) hqn
      have hne : G i ≠ g + 1 := fun heq => absurd (hleast i hi heq) (Nat.not_le.mpr hlt)
      omega
    · have hhigh := h.mono (show i ≤ q - 1 by omega) (by omega)
      omega

/-- The length of a part. -/
theorem card_eq (hp : G p = g) (hfirst : ∀ i, i < n → G i = g → p ≤ i)
    (hq : q < n ∧ G q = g + 1 ∧ (∀ i, i < n → G i = g + 1 → q ≤ i) ∨
      q = n ∧ g = G (n - 1)) : ((Finset.range n).filter fun i => G i = g).card = q - p := by
  have hset : (Finset.range n).filter (fun i => G i = g) = Finset.Ico p q := by
    ext i
    rw [Finset.mem_filter, Finset.mem_range, Finset.mem_Ico]
    constructor
    · rintro ⟨hi, heq⟩
      exact (h.mem_iff hp hfirst hq hi).mp heq
    · intro hmem
      have hi : i < n := by
        obtain ⟨hlt, -, -⟩ | ⟨rfl, -⟩ := hq
        · exact Nat.lt_trans hmem.2 hlt
        · exact hmem.2
      exact ⟨hi, (h.mem_iff hp hfirst hq hi).mpr hmem⟩
  rw [hset, Nat.card_Ico]

end RunNumbers

/-- Every position is in one part. -/
theorem sum_card_parts {n m : Nat} {G : Nat → Nat} (hG : ∀ i, i < n → G i < m) :
    ∑ g ∈ Finset.range m, ((Finset.range n).filter fun i => G i = g).card = n := by
  have hmaps : Set.MapsTo G (Finset.range n) (Finset.range m) := fun i hi =>
    Finset.mem_coe.mpr (Finset.mem_range.mpr (hG i (Finset.mem_range.mp (Finset.mem_coe.mp hi))))
  rw [← Finset.card_eq_sum_card_fiberwise hmaps, Finset.card_range]

end TorchMojoBackend.Foundation
