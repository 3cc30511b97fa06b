/-
  `Foundation.MergePass`: merge sort by ranks.

  Everything in this file is independent of the modelled program.  A pass over sorted
  runs puts each item at the number of items of its block of two runs that come before
  it.  The items of a strict total order then have different places, and the blocks are
  sorted.  An item finds how many of the other run come before it by binary search.
-/
import Mathlib.Data.Finset.Card
import Mathlib.Order.Interval.Finset.Nat
import Mathlib.Order.Interval.Set.Basic
import Mathlib.Data.Set.Function
import Mathlib.Data.Set.Finite.Basic
import Mathlib.Order.Interval.Finset.Defs
import Mathlib.Tactic.Ring

set_option autoImplicit false

namespace TorchMojoBackend.Foundation

universe u

/-! ## Binary search -/

/-- `while lo < hi: mid = (lo + hi) / 2; if p(mid): lo = mid + 1 else: hi = mid`; `fuel` bounds
the number of steps. -/
def firstFalse (p : Nat → Bool) : Nat → Nat → Nat → Nat
  | 0, lo, _ => lo
  | fuel + 1, lo, hi =>
    if lo < hi then
      if p ((lo + hi) / 2) then firstFalse p fuel ((lo + hi) / 2 + 1) hi
      else firstFalse p fuel lo ((lo + hi) / 2)
    else lo

theorem firstFalse_of_le {p : Nat → Bool} {fuel lo hi : Nat} (h : hi ≤ lo) :
    firstFalse p fuel lo hi = lo := by
  cases fuel with
  | zero => rfl
  | succ fuel => exact if_neg (Nat.not_lt.mpr h)

/-- The search for the end of the part where `p` holds. -/
theorem firstFalse_spec {p : Nat → Bool} {fuel lo hi : Nat} (hle : lo ≤ hi)
    (hfuel : hi ≤ lo + fuel)
    (hmono : ∀ i j, lo ≤ i → i ≤ j → j < hi → p j = true → p i = true) :
    lo ≤ firstFalse p fuel lo hi ∧ firstFalse p fuel lo hi ≤ hi ∧
      (∀ i, lo ≤ i → i < firstFalse p fuel lo hi → p i = true) ∧
      ∀ i, firstFalse p fuel lo hi ≤ i → i < hi → p i = false := by
  induction fuel generalizing lo hi with
  | zero =>
      unfold firstFalse
      exact ⟨Nat.le_refl _, hle, by omega, by omega⟩
  | succ fuel ih =>
      unfold firstFalse
      split
      · rename_i hlt
        split
        · rename_i hmid
          obtain ⟨hge, hle', hbelow, habove⟩ := @ih ((lo + hi) / 2 + 1) hi
            (by omega) (by omega) (fun i j hi' => hmono i j (by omega))
          refine ⟨by omega, hle', fun i hi' hilt => ?_, habove⟩
          by_cases hm : i ≤ (lo + hi) / 2
          · exact hmono i _ hi' hm (by omega) hmid
          · exact hbelow i (by omega) hilt
        · rename_i hmid
          obtain ⟨hge, hle', hbelow, habove⟩ := @ih lo ((lo + hi) / 2)
            (by omega) (by omega) (fun i j hi' hij hj => hmono i j hi' hij (by omega))
          refine ⟨hge, by omega, hbelow, fun i hi' hilt => ?_⟩
          by_cases hm : i < (lo + hi) / 2
          · exact habove i hi' hm
          · rw [← Bool.not_eq_true]
            exact fun hpi => hmid (hmono _ i (by omega) (Nat.not_lt.mp hm) hilt hpi)
      · exact ⟨Nat.le_refl _, hle, by omega, by omega⟩

/-! ## Ranks -/

section
variable {ι : Type u} (lt : ι → ι → Prop) [DecidableRel lt]

/-- How many of the items at `lo` to `hi` come before `x`. -/
def countBefore (src : Nat → ι) (lo hi : Nat) (x : ι) : Nat :=
  ((Finset.Ico lo hi).filter fun j => lt (src j) x).card

/-- Each run of `width` items is sorted. -/
def SortedRuns (n width : Nat) (src : Nat → ι) : Prop :=
  ∀ i j, i < j → j < n → i / width = j / width → lt (src i) (src j)

variable {lt}

theorem countBefore_append (src : Nat → ι) {lo mid hi : Nat} (hlo : lo ≤ mid) (hhi : mid ≤ hi)
    (x : ι) : countBefore lt src lo hi x =
      countBefore lt src lo mid x + countBefore lt src mid hi x := by
  unfold countBefore
  rw [← Finset.Ico_union_Ico_eq_Ico hlo hhi, Finset.filter_union, Finset.card_union_of_disjoint]
  exact Finset.disjoint_filter_filter (Finset.Ico_disjoint_Ico_consecutive lo mid hi)

/-- Items that come before `x` up to a position and not from there on. -/
theorem countBefore_of_split {src : Nat → ι} {lo hi r : Nat} {x : ι} (hr : r ≤ hi)
    (hbelow : ∀ j, lo ≤ j → j < r → lt (src j) x) (habove : ∀ j, r ≤ j → j < hi → ¬ lt (src j) x) :
    countBefore lt src lo hi x = r - lo := by
  have hset : (Finset.Ico lo hi).filter (fun j => lt (src j) x) = Finset.Ico lo r := by
    ext j
    rw [Finset.mem_filter, Finset.mem_Ico, Finset.mem_Ico]
    constructor
    · rintro ⟨⟨hlo, hhi⟩, hlt⟩
      exact ⟨hlo, Nat.lt_of_not_le fun hge => habove j hge hhi hlt⟩
    · rintro ⟨hlo, hlt⟩
      exact ⟨⟨hlo, by omega⟩, hbelow j hlo hlt⟩
  rw [countBefore, hset, Nat.card_Ico]

variable [IsStrictTotalOrder ι lt]

/-- Of an item's own sorted run those before it. -/
theorem countBefore_own {src : Nat → ι} {lo hi i : Nat} (hhi : i < hi)
    (hsorted : ∀ a b, lo ≤ a → a < b → b < hi → lt (src a) (src b)) (hlo : lo ≤ i) :
    countBefore lt src lo hi (src i) = i - lo := by
  refine countBefore_of_split (Nat.le_of_lt hhi) (fun j hj hji => hsorted j i hj hji hhi)
    fun j hij hj hlt => ?_
  obtain rfl | hij := Nat.eq_or_lt_of_le hij
  · exact irrefl_of lt _ hlt
  · exact asymm_of lt hlt (hsorted i j hlo hij hj)

/-- The binary search in a sorted run counts the items before `x`. -/
theorem firstFalse_countBefore {src : Nat → ι} {lo hi fuel : Nat} {x : ι} (hle : lo ≤ hi)
    (hfuel : hi ≤ lo + fuel)
    (hsorted : ∀ a b, lo ≤ a → a < b → b < hi → lt (src a) (src b)) :
    lo ≤ firstFalse (fun j => decide (lt (src j) x)) fuel lo hi ∧
      firstFalse (fun j => decide (lt (src j) x)) fuel lo hi - lo = countBefore lt src lo hi x := by
  obtain ⟨hge, hle', hbelow, habove⟩ := firstFalse_spec hle hfuel
    (p := fun j => decide (lt (src j) x)) fun i j hi' hij hj hpj => by
      obtain rfl | hij := Nat.eq_or_lt_of_le hij
      · exact hpj
      · exact decide_eq_true (trans_of lt (hsorted i j hi' hij hj) (of_decide_eq_true hpj))
  refine ⟨hge, (countBefore_of_split hle' (fun j hj hjr => ?_) fun j hrj hj => ?_).symm⟩
  · exact of_decide_eq_true (hbelow j hj hjr)
  · exact of_decide_eq_false (habove j hrj hj)

/-- An item that comes before another of its block has the smaller rank. -/
theorem countBefore_lt {src : Nat → ι} {lo hi i : Nat} {x : ι} (hlo : lo ≤ i) (hhi : i < hi)
    (hlt : lt (src i) x) :
    countBefore lt src lo hi (src i) < countBefore lt src lo hi x := by
  refine Finset.card_lt_card ((Finset.ssubset_iff_of_subset ?_).mpr ⟨i, ?_, ?_⟩)
  · intro j hj
    obtain ⟨hj, hji⟩ := Finset.mem_filter.mp hj
    exact Finset.mem_filter.mpr ⟨hj, trans_of lt hji hlt⟩
  · exact Finset.mem_filter.mpr ⟨Finset.mem_Ico.mpr ⟨hlo, hhi⟩, hlt⟩
  · exact fun hmem => irrefl_of lt _ (Finset.mem_filter.mp hmem).2

theorem countBefore_lt_length {src : Nat → ι} {lo hi i : Nat} (hlo : lo ≤ i) (hhi : i < hi) :
    countBefore lt src lo hi (src i) < hi - lo := by
  have hcard : (Finset.Ico lo hi).card = hi - lo := Nat.card_Ico lo hi
  rw [← hcard]
  refine Finset.card_lt_card (Finset.filter_ssubset.mpr ⟨i, Finset.mem_Ico.mpr ⟨hlo, hhi⟩, ?_⟩)
  exact irrefl_of lt _

/-! ## Passes -/

/-- The place of the item at `i` after a pass that merges runs of `width`. -/
def mergeDest (lt : ι → ι → Prop) [DecidableRel lt] (n width : Nat) (src : Nat → ι)
    (i : Nat) : Nat :=
  i / (2 * width) * (2 * width) +
    countBefore lt src (i / (2 * width) * (2 * width))
      (min (i / (2 * width) * (2 * width) + 2 * width) n) (src i)

section
variable {n width : Nat} {src : Nat → ι} {i j : Nat}

omit [DecidableRel lt] [IsStrictTotalOrder ι lt] in
/-- The runs of the block of an item. -/
theorem SortedRuns.block (h : SortedRuns lt n width src) (i : Nat) :
    (∀ a b, i / (2 * width) * (2 * width) ≤ a → a < b →
      b < min (i / (2 * width) * (2 * width) + width) n → lt (src a) (src b)) ∧
    ∀ a b, i / (2 * width) * (2 * width) + width ≤ a → a < b →
      b < min (i / (2 * width) * (2 * width) + 2 * width) n → lt (src a) (src b) := by
  have hdiv : ∀ d j, i / (2 * width) * (2 * width) + d * width ≤ j →
      j < i / (2 * width) * (2 * width) + d * width + width →
      j / width = i / (2 * width) * 2 + d := fun d j hge hlt => by
    have hstart : i / (2 * width) * (2 * width) + d * width = (i / (2 * width) * 2 + d) * width := by
      ring
    rw [hstart] at hge hlt
    exact Nat.div_eq_of_lt_le hge (by rwa [Nat.succ_mul])
  refine ⟨fun a b ha hab hb => ?_, fun a b ha hab hb => ?_⟩
  · have hb' := lt_min_iff.mp hb
    refine h a b hab hb'.2 ?_
    rw [hdiv 0 a (by omega) (by omega), hdiv 0 b (by omega) (by omega)]
  · have hb' := lt_min_iff.mp hb
    refine h a b hab hb'.2 ?_
    rw [hdiv 1 a (by omega) (by omega), hdiv 1 b (by omega) (by omega)]

/-- An item of the left run is placed by a search of the right run. -/
theorem mergeDest_left {fuel : Nat} (hwidth : 0 < width) (h : SortedRuns lt n width src)
    (hfuel : n ≤ fuel) (hi : i < n) (hside : i < i / (2 * width) * (2 * width) + width) :
    mergeDest lt n width src i = i + (firstFalse (fun j => decide (lt (src j) (src i))) fuel
      (min (i / (2 * width) * (2 * width) + width) n)
      (min (i / (2 * width) * (2 * width) + 2 * width) n) -
        min (i / (2 * width) * (2 * width) + width) n) := by
  obtain ⟨hleft, hright⟩ := h.block i
  have hbase : i / (2 * width) * (2 * width) ≤ i := Nat.div_mul_le_self ..
  unfold mergeDest
  generalize i / (2 * width) * (2 * width) = base at hleft hright hbase hside ⊢
  have hlow : base ≤ min (base + width) n := by omega
  have hhigh : min (base + width) n ≤ min (base + 2 * width) n := by omega
  rw [countBefore_append src hlow hhigh,
    countBefore_own (lt_min hside hi) hleft hbase,
    (@firstFalse_countBefore _ lt _ _ src _ _ fuel (src i) hhigh (by omega) fun a b ha hab hb =>
      hright a b (by omega) hab hb).2]
  omega

/-- An item of the right run is placed by a search of the left run. -/
theorem mergeDest_right {fuel : Nat} (hwidth : 0 < width) (h : SortedRuns lt n width src)
    (hfuel : n ≤ fuel) (hi : i < n) (hside : i / (2 * width) * (2 * width) + width ≤ i) :
    mergeDest lt n width src i = i - width +
      (firstFalse (fun j => decide (lt (src j) (src i))) fuel (i / (2 * width) * (2 * width))
        (i / (2 * width) * (2 * width) + width) - i / (2 * width) * (2 * width)) := by
  obtain ⟨hleft, hright⟩ := h.block i
  have hup : i < i / (2 * width) * (2 * width) + 2 * width := by
    have := Nat.lt_div_mul_add (a := i) (show 0 < 2 * width by omega)
    omega
  unfold mergeDest
  generalize i / (2 * width) * (2 * width) = base at hleft hright hup hside ⊢
  have hlow : base ≤ base + width := Nat.le_add_right _ _
  have hhigh : base + width ≤ min (base + 2 * width) n := by omega
  rw [countBefore_append src hlow hhigh,
    countBefore_own (lt_min hup hi) hright hside,
    (@firstFalse_countBefore _ lt _ _ src _ _ fuel (src i) hlow (by omega) fun a b ha hab hb =>
      hleft a b ha hab (by omega)).2]
  omega

/-- An item stays in its block. -/
theorem mergeDest_mem (hwidth : 0 < width) (hi : i < n) :
    mergeDest lt n width src i < n ∧
      mergeDest lt n width src i / (2 * width) = i / (2 * width) := by
  have hle : i / (2 * width) * (2 * width) ≤ i := Nat.div_mul_le_self ..
  have hup : i < i / (2 * width) * (2 * width) + 2 * width := by
    have := Nat.lt_div_mul_add (a := i) (show 0 < 2 * width by omega)
    omega
  have hcount := @countBefore_lt_length ι lt _ _ src _ _ _ hle (lt_min hup hi)
  unfold mergeDest
  refine ⟨by omega, ?_⟩
  rw [Nat.add_comm, Nat.add_mul_div_right _ _ (by omega), Nat.div_eq_of_lt (by omega), Nat.zero_add]

/-- In a block the places are in order. -/
theorem mergeDest_lt (hwidth : 0 < width) (hi : i < n) (hblock : i / (2 * width) = j / (2 * width))
    (hlt : lt (src i) (src j)) : mergeDest lt n width src i < mergeDest lt n width src j := by
  have hle : i / (2 * width) * (2 * width) ≤ i := Nat.div_mul_le_self ..
  have hup : i < i / (2 * width) * (2 * width) + 2 * width := by
    have := Nat.lt_div_mul_add (a := i) (show 0 < 2 * width by omega)
    omega
  unfold mergeDest
  rw [← hblock]
  exact Nat.add_lt_add_left (countBefore_lt hle (lt_min hup hi) hlt) _

theorem mergeDest_injOn (hwidth : 0 < width) (hsrc : Set.InjOn src (Set.Iio n)) :
    Set.InjOn (mergeDest lt n width src) (Set.Iio n) := by
  intro i hi j hj heq
  have hblock : i / (2 * width) = j / (2 * width) := by
    rw [← (@mergeDest_mem ι lt _ _ n width src i hwidth hi).2, heq,
      (@mergeDest_mem ι lt _ _ n width src j hwidth hj).2]
  obtain hlt | hsame | hgt := trichotomous_of lt (src i) (src j)
  · exact absurd heq (Nat.ne_of_lt (mergeDest_lt hwidth hi hblock hlt))
  · exact hsrc hi hj hsame
  · exact absurd heq (Nat.ne_of_gt (mergeDest_lt hwidth hj hblock.symm hgt))

/-- Every place is taken. -/
theorem mergeDest_bijOn (hwidth : 0 < width) (hsrc : Set.InjOn src (Set.Iio n)) :
    Set.BijOn (mergeDest lt n width src) (Set.Iio n) (Set.Iio n) :=
  ((Set.finite_Iio n).injOn_iff_bijOn_of_mapsTo fun _ hi => (mergeDest_mem hwidth hi).1).mp
    (mergeDest_injOn hwidth hsrc)

/-- A pass that puts each item at its place sorts the blocks and loses no item. -/
theorem SortedRuns.merge {dst : Nat → ι} (hwidth : 0 < width)
    (hsrc : Set.InjOn src (Set.Iio n))
    (hdst : ∀ i, i < n → dst (mergeDest lt n width src i) = src i) :
    SortedRuns lt n (2 * width) dst ∧ Set.InjOn dst (Set.Iio n) ∧
      Set.image dst (Set.Iio n) = Set.image src (Set.Iio n) := by
  have hbij := @mergeDest_bijOn ι lt _ _ n width src hwidth hsrc
  refine ⟨fun p q hpq hq hblock => ?_, fun p hp q hq heq => ?_, ?_⟩
  · obtain ⟨i, hi, rfl⟩ := hbij.surjOn (Set.mem_Iio.mpr (Nat.lt_trans hpq hq))
    obtain ⟨j, hj, rfl⟩ := hbij.surjOn (Set.mem_Iio.mpr hq)
    rw [(mergeDest_mem hwidth hi).2, (mergeDest_mem hwidth hj).2] at hblock
    rw [hdst i hi, hdst j hj]
    obtain hlt | hsame | hgt := trichotomous_of lt (src i) (src j)
    · exact hlt
    · rw [hsrc hi hj hsame] at hpq
      exact absurd hpq (Nat.lt_irrefl _)
    · exact absurd hpq (Nat.lt_asymm (mergeDest_lt hwidth hj hblock.symm hgt))
  · obtain ⟨i, hi, rfl⟩ := hbij.surjOn hp
    obtain ⟨j, hj, rfl⟩ := hbij.surjOn hq
    rw [hdst i hi, hdst j hj] at heq
    rw [hsrc hi hj heq]
  · ext x
    constructor
    · rintro ⟨p, hp, rfl⟩
      obtain ⟨i, hi, rfl⟩ := hbij.surjOn hp
      exact ⟨i, hi, (hdst i hi).symm⟩
    · rintro ⟨i, hi, rfl⟩
      exact ⟨_, (mergeDest_mem hwidth hi).1, hdst i hi⟩

end

end

/-! ## Permutations in runs -/

section
variable {lt : Nat → Nat → Prop} {n width : Nat} {src : Nat → Nat}

/-- Each of the first `n` once, in sorted runs of `width`. -/
def MergeRuns (lt : Nat → Nat → Prop) (n width : Nat) (src : Nat → Nat) : Prop :=
  SortedRuns lt n width src ∧ Set.BijOn src (Set.Iio n) (Set.Iio n)

theorem MergeRuns.whole (hle : n ≤ width) (h : MergeRuns lt n width src) : MergeRuns lt n n src := by
  refine ⟨fun i j hij hj _ => h.1 i j hij hj ?_, h.2⟩
  rw [Nat.div_eq_of_lt (by omega), Nat.div_eq_of_lt (by omega)]

/-- A list of the first `n` in order. -/
theorem MergeRuns.one (hsrc : ∀ i, i < n → src i = i) : MergeRuns lt n 1 src := by
  refine ⟨fun i j hij _ heq => ?_, ?_⟩
  · rw [Nat.div_one, Nat.div_one] at heq
    omega
  · refine (Set.bijOn_id (Set.Iio n)).congr fun i hi => (hsrc i hi).symm

/-- In one run the items are in order. -/
theorem MergeRuns.before (h : MergeRuns lt n n src) {i j : Nat} (hij : i < j) (hj : j < n) :
    lt (src i) (src j) :=
  h.1 i j hij hj (by rw [Nat.div_eq_of_lt (by omega), Nat.div_eq_of_lt hj])

variable [DecidableRel lt] [IsStrictTotalOrder Nat lt]

/-- A pass doubles the runs. -/
theorem MergeRuns.merge {dst : Nat → Nat} (hwidth : 0 < width) (h : MergeRuns lt n width src)
    (hdst : ∀ i, i < n → dst (mergeDest lt n width src i) = src i) :
    MergeRuns lt n (2 * width) dst := by
  obtain ⟨hsorted, hinj, himage⟩ := SortedRuns.merge hwidth h.2.injOn hdst
  refine ⟨hsorted, ?_, hinj, ?_⟩
  · exact Set.mapsTo_iff_image_subset.mpr (himage.trans h.2.image_eq).le
  · exact (himage.trans h.2.image_eq).ge

end

end TorchMojoBackend.Foundation
