/-
  `Foundation.Intervals`: overlaps among half-open intervals.

  Everything in this file is independent of the modelled program.  The starts and the ends
  of a list of nonempty intervals are sorted apart from each other.  The intervals are
  pairwise disjoint when no sorted start is before the sorted end one place below, and an
  interval meets none of them when the last of those that start before its end ends before
  its start, also where the two belong to different intervals: both are statements on how
  many starts and how many ends are before a point.
-/
import Mathlib.Data.List.Sort
import TorchMojoBackend.Foundation.MergePass

set_option autoImplicit false

namespace TorchMojoBackend.Foundation

/-- Integers in ascending order. -/
def sortInts (l : List Int) : List Int := l.insertionSort (· ≤ ·)

theorem sortInts_perm (l : List Int) : (sortInts l).Perm l := List.perm_insertionSort _ l

theorem sortInts_sorted (l : List Int) : (sortInts l).Pairwise (· ≤ ·) :=
  List.pairwise_insertionSort _ l

theorem length_sortInts (l : List Int) : (sortInts l).length = l.length :=
  (sortInts_perm l).length_eq

/-- In a sorted list the items with a property of small integers are the first ones. -/
theorem sorted_countP {p : Int → Bool} (hdown : ∀ a b, a ≤ b → p b = true → p a = true)
    {l : List Int} (hsorted : l.Pairwise (· ≤ ·)) {k : Nat} (hk : k < l.length) :
    p (l.getD k 0) = true ↔ k < l.countP p := by
  induction l generalizing k with
  | nil => exact absurd hk (Nat.not_lt_zero k)
  | cons a l ih =>
      obtain ⟨hle, hsorted⟩ := List.pairwise_cons.mp hsorted
      by_cases ha : p a = true
      · rw [List.countP_cons_of_pos ha]
        cases k with
        | zero => exact ⟨fun _ => Nat.succ_pos _, fun _ => ha⟩
        | succ k =>
            rw [List.getD_cons_succ, ih hsorted (Nat.lt_of_succ_lt_succ hk)]
            omega
      · rw [List.countP_cons_of_neg ha]
        have hnone : ∀ b ∈ l, ¬ p b = true := fun b hb h => ha (hdown a b (hle b hb) h)
        rw [List.countP_eq_zero.mpr hnone]
        refine ⟨fun h => ?_, fun h => absurd h (Nat.not_lt_zero k)⟩
        cases k with
        | zero => exact absurd h ha
        | succ k =>
            have hlt := Nat.lt_of_succ_lt_succ hk
            rw [List.getD_cons_succ, List.getD_eq_getElem?_getD, List.getElem?_eq_getElem hlt,
              Option.getD_some] at h
            exact absurd h (hnone _ (List.getElem_mem hlt))

/-- Two intervals have no point in common. -/
def Apart (i j : Int × Int) : Prop := i.2 ≤ j.1 ∨ j.2 ≤ i.1

theorem Apart.symm {i j : Int × Int} (h : Apart i j) : Apart j i := Or.symm h

/-- A property that implies another leaves the count of the difference. -/
theorem countP_diff {α : Type*} {p q : α → Bool} {l : List α}
    (himp : ∀ x ∈ l, p x = true → q x = true) :
    l.countP p + l.countP (fun x => q x && !p x) = l.countP q := by
  induction l with
  | nil => rfl
  | cons x l ih =>
      have hrest := ih fun y hy => himp y (List.mem_cons_of_mem _ hy)
      have hx := himp x List.mem_cons_self
      simp only [List.countP_cons]
      cases hp : p x <;> cases hq : q x
      · simpa using hrest
      · simp
        omega
      · exact absurd (hx hp) (by simp [hq])
      · simp
        omega

section
variable {l : List (Int × Int)} (hne : ∀ i ∈ l, i.1 < i.2)
include hne

/-- The intervals that have a point. -/
theorem countP_point (p : Int) :
    (sortInts (l.map Prod.snd)).countP (fun x => decide (x ≤ p)) +
        l.countP (fun i => decide (i.1 ≤ p) && !decide (i.2 ≤ p)) =
      (sortInts (l.map Prod.fst)).countP (fun x => decide (x ≤ p)) := by
  rw [(sortInts_perm _).countP_eq, (sortInts_perm _).countP_eq, List.countP_map, List.countP_map]
  refine countP_diff fun i hi h => ?_
  have hlt := hne i hi
  simp only [Function.comp_apply, decide_eq_true_eq] at h ⊢
  omega

/-- Intervals whose sorted starts are past the sorted ends one place below are disjoint. -/
theorem pairwise_apart
    (hgap : ∀ k, k + 1 < l.length →
      (sortInts (l.map Prod.snd)).getD k 0 ≤ (sortInts (l.map Prod.fst)).getD (k + 1) 0) :
    l.Pairwise Apart := by
  rw [List.pairwise_iff_forall_sublist]
  intro i j hsub
  by_contra hmeet
  unfold Apart at hmeet
  push Not at hmeet
  -- both intervals have the later of their starts
  have hi := hne i (hsub.subset List.mem_cons_self)
  have hj := hne j (hsub.subset (List.mem_cons_of_mem _ List.mem_cons_self))
  obtain ⟨p, hp⟩ : ∃ p, p = max i.1 j.1 := ⟨_, rfl⟩
  have hcount := countP_point hne p
  have htwo : 2 ≤ l.countP (fun i => decide (i.1 ≤ p) && !decide (i.2 ≤ p)) := by
    refine Nat.le_trans (Nat.le_of_eq ?_) hsub.countP_le
    have hip : (decide (i.1 ≤ p) && !decide (i.2 ≤ p)) = true := by
      simp only [Bool.and_eq_true, Bool.not_eq_true', decide_eq_true_eq, decide_eq_false_iff_not]
      omega
    have hjp : (decide (j.1 ≤ p) && !decide (j.2 ≤ p)) = true := by
      simp only [Bool.and_eq_true, Bool.not_eq_true', decide_eq_true_eq, decide_eq_false_iff_not]
      omega
    simp only [List.countP_cons, hip, hjp, List.countP_nil, if_true]
  have hdown : ∀ a b : Int, a ≤ b → decide (b ≤ p) = true → decide (a ≤ p) = true := by
    intro a b hab h
    rw [decide_eq_true_eq] at h ⊢
    omega
  have hlenStarts : (sortInts (l.map Prod.fst)).length = l.length := by
    rw [length_sortInts, List.length_map]
  have hlenEnds : (sortInts (l.map Prod.snd)).length = l.length := by
    rw [length_sortInts, List.length_map]
  have hle := List.countP_le_length (p := fun x => decide (x ≤ p)) (l := sortInts (l.map Prod.fst))
  generalize hE : (sortInts (l.map Prod.snd)).countP (fun x => decide (x ≤ p)) = E at hcount
  have hstart := (sorted_countP hdown (sortInts_sorted (l.map Prod.fst)) (k := E + 1)
    (by omega)).mpr (by omega)
  have hend : ¬ decide ((sortInts (l.map Prod.snd)).getD E 0 ≤ p) = true := by
    rw [sorted_countP hdown (sortInts_sorted _) (by omega), hE]
    exact Nat.lt_irrefl E
  have hgap := hgap E (by omega)
  rw [decide_eq_true_eq] at hstart hend
  omega

/-- An interval that starts at or past the sorted end that pairs up with the last sorted start
before its end meets no interval. -/
theorem apart_of_last {s e : Int} (hse : s < e) {lo : Nat} (hlo : lo ≤ l.length)
    (hbelow : ∀ k, k < lo → (sortInts (l.map Prod.fst)).getD k 0 < e)
    (habove : ∀ k, lo ≤ k → k < l.length → ¬ (sortInts (l.map Prod.fst)).getD k 0 < e)
    (hlast : 0 < lo → (sortInts (l.map Prod.snd)).getD (lo - 1) 0 ≤ s) :
    ∀ i ∈ l, Apart i (s, e) := by
  have hlenStarts : (sortInts (l.map Prod.fst)).length = l.length := by
    rw [length_sortInts, List.length_map]
  have hlenEnds : (sortInts (l.map Prod.snd)).length = l.length := by
    rw [length_sortInts, List.length_map]
  have hdown : ∀ a b : Int, a ≤ b → decide (b < e) = true → decide (a < e) = true := by
    intro a b hab h
    rw [decide_eq_true_eq] at h ⊢
    omega
  have hdown' : ∀ a b : Int, a ≤ b → decide (b ≤ s) = true → decide (a ≤ s) = true := by
    intro a b hab h
    rw [decide_eq_true_eq] at h ⊢
    omega
  -- the starts before `e` are no more than the ends up to `s`
  have hends : (sortInts (l.map Prod.fst)).countP (fun x => decide (x < e)) ≤
      (sortInts (l.map Prod.snd)).countP (fun x => decide (x ≤ s)) := by
    by_contra hmore
    generalize hE : (sortInts (l.map Prod.snd)).countP (fun x => decide (x ≤ s)) = E at hmore
    have hle := List.countP_le_length (p := fun x => decide (x < e))
      (l := sortInts (l.map Prod.fst))
    have hstart := (sorted_countP hdown (sortInts_sorted (l.map Prod.fst)) (k := E)
      (by omega)).mpr (by omega)
    rw [decide_eq_true_eq] at hstart
    have hElo : E < lo := by
      by_contra hge
      exact habove E (by omega) (by omega) hstart
    have hlast := hlast (by omega)
    have hcount := (sorted_countP hdown' (sortInts_sorted (l.map Prod.snd)) (k := lo - 1)
      (by omega)).mp (decide_eq_true hlast)
    rw [hE] at hcount
    have hstart' := (sorted_countP hdown (sortInts_sorted (l.map Prod.fst)) (k := lo - 1)
      (by omega)).mp (decide_eq_true (hbelow (lo - 1) (by omega)))
    omega
  rw [(sortInts_perm _).countP_eq, (sortInts_perm _).countP_eq, List.countP_map,
    List.countP_map] at hends
  have hdiff := countP_diff (p := (fun x => decide (x ≤ s)) ∘ Prod.snd)
    (q := (fun x => decide (x < e)) ∘ Prod.fst) (l := l) fun i hi h => by
      have hlt := hne i hi
      simp only [Function.comp_apply, decide_eq_true_eq] at h ⊢
      omega
  have hnone : l.countP (fun i => ((fun x => decide (x < e)) ∘ Prod.fst) i &&
      !((fun x => decide (x ≤ s)) ∘ Prod.snd) i) = 0 := by
    omega
  intro i hi
  have hmeet := List.countP_eq_zero.mp hnone i hi
  simp only [Function.comp_apply, Bool.and_eq_true, Bool.not_eq_true', decide_eq_true_eq,
    decide_eq_false_iff_not] at hmeet
  by_cases h : i.2 ≤ s
  · exact .inl h
  · exact .inr (by dsimp only; omega)

end

end TorchMojoBackend.Foundation
