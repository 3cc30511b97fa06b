/-
  `Kernels.BatchedCopyExact`: when a batched copy moves every element once.

  A launch of single elements is exact.  A launch of wide accesses is exact if no
  rectangle refuses the width the launch ends with; if one does, an element too many is
  moved for each of its rows.  So the copy is exact if and only if the counters fit and
  no rectangle of a launch of tiles refuses its width.
-/
import Mathlib.Algebra.BigOperators.Ring.Finset
import Mathlib.Algebra.Order.BigOperators.Group.List
import TorchMojoBackend.Kernels.BatchedCopyKernels

set_option autoImplicit false

namespace TorchMojoBackend.Kernels.BatchedCopy

open TorchMojoBackend.Foundation

section
variable {sS sD : Size} {width : Nat} {batch : List Rect}

/-! ## The choice of the kernel -/

/-- Many rows below a block, none of the rectangles past 32 bits. -/
def ByRun (batch : List Rect) : Prop :=
  (∃ r ∈ batch, 8 < r.rows) ∧
    ∀ r ∈ batch, r.cols < COPY_BATCH_THREADS ∧ r.rows * r.cols < 2 ^ 31

/-- Few rows, each within a tile. -/
def ByRow (sS sD : Size) (batch : List Rect) : Prop :=
  ∀ r ∈ batch, r.rows ≤ 8 ∧ r.cols ≤ tile sS (vec sS sD)

/-- The launches that take wide accesses. -/
def ByTile (sS sD : Size) (batch : List Rect) : Prop :=
  ¬ ByRun batch ∧ ¬ ByRow sS sD batch

theorem Ready.byRun_iff (h : Ready sS sD batch) :
    (((batch.map Rect.describe).map CopyRect.rows).foldl max 0 > COPY_SMALL_ROWS ∧
      ((batch.map Rect.describe).map CopyRect.cols).foldl max 0 < COPY_BATCH_THREADS ∧
      ((batch.map Rect.describe).map fun r => r.rows * (r.cols : Int)).foldl max 0 ≤
        COPY_BATCH_MAX_PITCH) ↔ ByRun batch := by
  have hrows : ((batch.map Rect.describe).map CopyRect.rows).foldl max 0 > COPY_SMALL_ROWS ↔
      ∃ r ∈ batch, 8 < r.rows := by
    rw [gt_iff_lt, ← Int.not_le, foldl_max_le_iff, not_and]
    simp only [List.forall_mem_map]
    constructor
    · intro hno
      by_contra hall
      refine hno (by decide) fun r hr => ?_
      rw [describe_rows (h.rows r hr).2]
      exact Int.not_lt.mp fun hlt => hall ⟨r, hr, Int.ofNat_lt.mp hlt⟩
    · rintro ⟨r, hr, hlt⟩ - hall
      have hle := hall r hr
      rw [describe_rows (h.rows r hr).2] at hle
      exact absurd hle (Int.not_le.mpr (Int.ofNat_lt.mpr hlt))
  have hcols : ((batch.map Rect.describe).map CopyRect.cols).foldl max 0 < COPY_BATCH_THREADS ↔
      ∀ r ∈ batch, r.cols < COPY_BATCH_THREADS := by
    rw [foldl_max_lt_iff]
    simp only [List.forall_mem_map]
    exact and_iff_right (by decide)
  have htotal : ((batch.map Rect.describe).map fun r => r.rows * (r.cols : Int)).foldl max 0 ≤
      COPY_BATCH_MAX_PITCH ↔ ∀ r ∈ batch, r.rows * r.cols < 2 ^ 31 := by
    rw [foldl_max_le_iff]
    simp only [List.forall_mem_map]
    refine (and_iff_right (by decide)).trans (forall₂_congr fun r hr => ?_)
    have hcast : (r.rows : Int) * (r.cols : Int) = (r.rows * r.cols : Nat) := by push_cast; rfl
    rw [describe_rows (h.rows r hr).2]
    change (r.rows : Int) * (r.cols : Int) ≤ 2 ^ 31 - 1 ↔ _
    rw [hcast]
    omega
  rw [hrows, hcols, htotal]
  unfold ByRun
  simp only [forall_and]

theorem Ready.byRow_iff (h : Ready sS sD batch) :
    (((batch.map Rect.describe).map CopyRect.cols).foldl max 0 ≤ tile sS (vec sS sD) ∧
      ((batch.map Rect.describe).map CopyRect.rows).foldl max 0 ≤ COPY_SMALL_ROWS) ↔
      ByRow sS sD batch := by
  rw [foldl_max_le_iff, foldl_max_le_iff]
  simp only [List.forall_mem_map]
  unfold ByRow
  constructor
  · rintro ⟨⟨-, hcols⟩, -, hrows⟩ r hr
    have hle := hrows r hr
    rw [describe_rows (h.rows r hr).2] at hle
    exact ⟨Int.ofNat_le.mp hle, hcols r hr⟩
  · intro hall
    refine ⟨⟨Nat.zero_le _, fun r hr => (hall r hr).2⟩, by decide, fun r hr => ?_⟩
    rw [describe_rows (h.rows r hr).2]
    exact Int.ofNat_le.mpr (hall r hr).1

variable (sS sD) in
/-- The descriptors of a launch of tiles. -/
def wideFilled (batch : List Rect) : List CopyRect × Int :=
  withTiles (wideCount sS (launchWidth sS sD batch)) (wideFill sS sD (launchWidth sS sD batch)) 0
    (batch.map Rect.describe)

theorem Ready.launchOf_byTile (h : Ready sS sD batch) (htile : ByTile sS sD batch) :
    launchOf sS sD (batch.map Rect.describe) =
      [⟨.wide (launchWidth sS sD batch) (wideFilled sS sD batch).2, (wideFilled sS sD batch).1⟩] := by
  unfold launchOf
  dsimp only
  rw [if_neg (fun hrun => htile.1 (h.byRun_iff.mp hrun)),
    if_neg (fun hrow => htile.2 (h.byRow_iff.mp hrow))]
  exact dispatch_width h.launchWidth_dvd fun width =>
    (⟨.wide width (withTiles (wideCount sS width) (wideFill sS sD width) 0
      (batch.map Rect.describe)).2, (withTiles (wideCount sS width) (wideFill sS sD width) 0
      (batch.map Rect.describe)).1⟩ : Launch)

variable (sS sD) in
/-- What the launches of a batch move. -/
def batchMoved (batch : List Rect) : Multiset (Int × Int) :=
  moved sS sD ((launchOf sS sD (batch.map Rect.describe)).flatMap (Launch.accesses sS sD))

theorem Ready.moved_byTile (h : Ready sS sD batch) (htile : ByTile sS sD batch)
    (hfit : (wideFilled sS sD batch).2 < 2 ^ 31) :
    batchMoved sS sD batch = (batch : Multiset Rect).bind fun r =>
      covered sS sD (wideFill sS sD (launchWidth sS sD batch) r.describe) := by
  unfold batchMoved
  rw [h.launchOf_byTile htile, List.flatMap_singleton]
  refine moved_wide sS sD h (h.launchWidth_dvd.trans (vec_dvd sS sD)) (fun r hr hneg => ?_) rfl hfit
  refine cols_lt_of_refuses h.sited (List.mem_map_of_mem hr) fun hall => ?_
  have hnonneg := (head_nonneg_iff (h.sited _ (List.mem_map_of_mem hr)) _).mpr hall
  unfold launchWidth at hneg
  omega

theorem Ready.moved_other (h : Ready sS sD batch) (htile : ¬ ByTile sS sD batch)
    (hlength : batch.length ≤ COPY_BATCH_CAP) :
    batchMoved sS sD batch = (batch : Multiset Rect).bind fun r => whole sS sD r.describe := by
  unfold batchMoved launchOf
  dsimp only
  by_cases hrun : ByRun batch
  · rw [if_pos (h.byRun_iff.mpr hrun), List.flatMap_singleton]
    exact (moved_narrow sS sD h (fun r hr => (hrun.2 r hr).2) hlength rfl).2
  · have hrow : ByRow sS sD batch := by
      by_contra hrow
      exact htile ⟨hrun, hrow⟩
    rw [if_neg (fun hyp => hrun (h.byRun_iff.mp hyp)), if_pos (h.byRow_iff.mpr hrow),
      List.flatMap_singleton, moved_small sS sD, ← Multiset.map_coe, Multiset.bind_map]
    intro rect hrect
    exact ((foldl_max_le_iff _).mp (le_refl _)).2 _ (List.mem_map_of_mem hrect)

variable (sS sD) in
/-- What the wide kernel moves for a rectangle of a launch. -/
theorem Ready.covered_wideFill (h : Ready sS sD batch) {r : Rect} (hr : r ∈ batch) :
    (Allows sS sD (launchWidth sS sD batch) r.describe →
        covered sS sD (wideFill sS sD (launchWidth sS sD batch) r.describe) =
          (r.elements sS sD : Multiset _)) ∧
      (¬ Allows sS sD (launchWidth sS sD batch) r.describe →
        (r.elements sS sD).length <
          (covered sS sD (wideFill sS sD (launchWidth sS sD batch) r.describe)).card) := by
  have hsited := h.sited _ (List.mem_map_of_mem hr)
  obtain ⟨hhead, hcols, -, -⟩ := wideFill_head hsited (h.launchWidth_dvd.trans (vec_dvd sS sD))
  have hwhole := whole_describe (h.ok r hr) (h.rows r hr).2
  constructor
  · intro hall
    have hnonneg := (head_nonneg_iff hsited _).mpr hall
    rw [← hwhole, ← whole_wideFill (launchWidth sS sD batch), covered_eq]
    · rw [hhead]
      exact hnonneg
    · rw [hhead]
      exact hcols
  · intro hno
    obtain ⟨-, hall⟩ | ⟨hneg, -⟩ := head_eq hsited (launchWidth sS sD batch)
    · exact absurd hall hno
    · have hlength : (r.elements sS sD).length = r.rows * r.cols := by
        simp [Rect.elements, List.length_flatMap]
      rw [card_covered (hhead.trans hneg), hlength]
      have hrows : (wideFill sS sD (launchWidth sS sD batch) r.describe).rows.toNat = r.rows := by
        unfold wideFill
        dsimp only
        rw [describe_rows (h.rows r hr).2, Int.toNat_natCast]
      rw [hrows]
      exact Nat.mul_lt_mul_of_pos_left (Nat.lt_succ_self r.cols) (h.rows r hr).1

theorem Ready.moved_eq (h : Ready sS sD batch) (hlength : batch.length ≤ COPY_BATCH_CAP)
    (hfit : ByTile sS sD batch → (wideFilled sS sD batch).2 < 2 ^ 31)
    (hall : ByTile sS sD batch → ∀ r ∈ batch,
      Allows sS sD (launchWidth sS sD batch) r.describe) :
    batchMoved sS sD batch = (batch.flatMap (Rect.elements sS sD) : Multiset _) := by
  rw [← Multiset.coe_bind]
  by_cases htile : ByTile sS sD batch
  · rw [h.moved_byTile htile (hfit htile)]
    exact Multiset.bind_congr fun r hr =>
      (h.covered_wideFill sS sD (Multiset.mem_coe.mp hr)).1
        (hall htile r (Multiset.mem_coe.mp hr))
  · rw [h.moved_other htile hlength]
    exact Multiset.bind_congr fun r hr =>
      whole_describe (h.ok r (Multiset.mem_coe.mp hr)) (h.rows r (Multiset.mem_coe.mp hr)).2

/-- A rectangle that refuses the width makes a batch move more than its elements. -/
theorem Ready.lt_card_moved (h : Ready sS sD batch) (htile : ByTile sS sD batch)
    (hfit : (wideFilled sS sD batch).2 < 2 ^ 31)
    (hno : ∃ r ∈ batch, ¬ Allows sS sD (launchWidth sS sD batch) r.describe) :
    (batch.flatMap (Rect.elements sS sD)).length < (batchMoved sS sD batch).card := by
  rw [h.moved_byTile htile hfit, Multiset.card_bind, Multiset.map_coe, Multiset.sum_coe,
    List.length_flatMap]
  simp only [Function.comp_def]
  refine List.sum_lt_sum _ _ (fun r hr => ?_) ?_
  · obtain ⟨hyes, hnot⟩ := h.covered_wideFill sS sD hr
    by_cases hall : Allows sS sD (launchWidth sS sD batch) r.describe
    · rw [hyes hall, Multiset.coe_card]
    · exact Nat.le_of_lt (hnot hall)
  · obtain ⟨r, hr, hall⟩ := hno
    exact ⟨r, hr, (h.covered_wideFill sS sD hr).2 hall⟩

/-! ## Alignment -/

theorem aligned_one {rect : CopyRect} (hr : rect.Sited sS sD) (row i : Int) :
    (accessAt sS sD rect row i 1).Aligned sS sD := by
  have hS : ((sS.1 : Nat) : Int) ∣ rect.src := Int.natCast_dvd_natCast.mpr hr.src
  have hD : ((sD.1 : Nat) : Int) ∣ rect.dst := Int.natCast_dvd_natCast.mpr hr.dst
  unfold Access.Aligned accessAt
  dsimp only
  rw [Nat.one_mul, Nat.one_mul]
  exact ⟨Int.emod_eq_zero_of_dvd
      (Int.dvd_add (Int.dvd_add hS (Int.dvd_mul_left _ _)) (Int.dvd_mul_left _ _)),
    Int.emod_eq_zero_of_dvd
      (Int.dvd_add (Int.dvd_add hD (Int.dvd_mul_left _ _)) (Int.dvd_mul_left _ _))⟩

/-- An access past the whole peel starts at a multiple of the width on both sides. -/
theorem aligned_wide {rect : CopyRect} (hr : rect.Sited sS sD) (hwidth : 0 < width)
    (hall : Allows sS sD width rect)
    (hlong : peel sS width rect ≤ rect.cols) {row : Int} (hrow : rect.rows ≤ 1 → row = 0)
    (n : Int) :
    (accessAt sS sD rect row ((peel sS width rect : Nat) + n * width) width).Aligned sS sD := by
  obtain ⟨a, ha⟩ := hr.src
  obtain ⟨d, hd⟩ := hr.dst
  have hS := size_pos sS
  have hD := size_pos sD
  -- the pitches are multiples of the width, or the row is the first
  have hpitch : (width : Int) ∣ row * rect.srcPitch ∧ (width : Int) ∣ row * rect.dstPitch := by
    by_cases hrows : rect.rows > 1
    · obtain ⟨hs, hd⟩ := hall.2 hrows
      exact ⟨(Int.dvd_of_emod_eq_zero hs).mul_left _, (Int.dvd_of_emod_eq_zero hd).mul_left _⟩
    · rw [hrow (Int.not_lt.mp hrows), Int.zero_mul, Int.zero_mul]
      exact ⟨Int.dvd_zero _, Int.dvd_zero _⟩
  have hsrc : (width : Int) ∣ (a : Int) + (peel sS width rect : Nat) := by
    unfold peel
    rw [ha, Nat.mul_div_cancel_left _ hS]
    have hnat : width ∣ a + (width - a % width) % width := by
      have hmod := Nat.mod_lt a hwidth
      have hsum : a + (width - a % width) = (a / width + 1) * width := by
        have := Nat.div_add_mod' a width
        rw [Nat.add_mul, Nat.one_mul]
        omega
      rw [Nat.dvd_iff_mod_eq_zero, Nat.add_mod_mod, hsum, Nat.mul_mod_left]
    exact_mod_cast Int.natCast_dvd_natCast.mpr hnat
  have hdst : (width : Int) ∣ (d : Int) + (peel sS width rect : Nat) := by
    have hdvd := Nat.dvd_of_mod_eq_zero hall.1
    rw [Nat.min_eq_left hlong, hd, Nat.mul_div_cancel_left _ hD] at hdvd
    exact_mod_cast Int.natCast_dvd_natCast.mpr hdvd
  have hn : (width : Int) ∣ n * width := Int.dvd_mul_left _ _
  unfold Access.Aligned accessAt
  dsimp only
  rw [ha, hd]
  push_cast
  constructor
  · have heq : (sS.1 : Int) * a + row * rect.srcPitch * sS.1 +
        ((peel sS width rect : Nat) + n * width) * sS.1 =
        ((a : Int) + (peel sS width rect : Nat) + row * rect.srcPitch + n * width) * sS.1 := by
      ring
    rw [heq]
    exact Int.emod_eq_zero_of_dvd (Int.mul_dvd_mul_right _ (Int.dvd_add (Int.dvd_add hsrc hpitch.1) hn))
  · have heq : (sD.1 : Int) * d + row * rect.dstPitch * sD.1 +
        ((peel sS width rect : Nat) + n * width) * sD.1 =
        ((d : Int) + (peel sS width rect : Nat) + row * rect.dstPitch + n * width) * sD.1 := by
      ring
    rw [heq]
    exact Int.emod_eq_zero_of_dvd (Int.mul_dvd_mul_right _ (Int.dvd_add (Int.dvd_add hdst hpitch.2) hn))

/-- The accesses of a chunk of a row are aligned. -/
theorem aligned_row {rect : CopyRect} (hr : rect.Sited sS sD) (hwidth : 0 < width)
    (hall : Allows sS sD width rect) (hhead : rect.head = min (peel sS width rect) rect.cols)
    {row : Int} (hrow : rect.rows ≤ 1 → row = 0) {chunk : Int} (hchunk : 0 ≤ chunk) {lane : Nat}
    {a : Access} (ha : a ∈ rowAccesses sS sD width rect row chunk lane) : a.Aligned sS sD := by
  unfold rowAccesses at ha
  dsimp only at ha
  obtain ha | ha := List.mem_append.mp ha
  · split at ha
    · rw [List.mem_singleton.mp ha]
      exact aligned_one hr _ _
    · cases ha
  · obtain ⟨k, -, ha⟩ := List.mem_flatMap.mp ha
    split at ha
    · rename_i hfits
      rw [List.mem_singleton.mp ha]
      have hstart : 0 ≤ chunk * (tile sS width : Nat) :=
        Int.mul_nonneg hchunk (Int.natCast_nonneg _)
      have hoff : 0 ≤ ((lane + k * COPY_BATCH_THREADS : Nat) : Int) * width :=
        Int.mul_nonneg (Int.natCast_nonneg _) (Int.natCast_nonneg _)
      -- an access that fits starts before the end of the row, so the head was not cut off
      have hlong : peel sS width rect ≤ rect.cols := by omega
      have hcol : rect.head + chunk * (tile sS width : Nat) +
          ((lane + k * COPY_BATCH_THREADS : Nat) : Int) * width = (peel sS width rect : Nat) +
            (chunk * (COPY_BATCH_THREADS * items sS width : Nat) +
              (lane + k * COPY_BATCH_THREADS : Nat)) * width := by
        rw [hhead, Nat.min_eq_left hlong]
        unfold tile
        push_cast
        ring
      rw [hcol]
      exact aligned_wide hr hwidth hall hlong hrow _
    · split at ha
      · obtain ⟨j, -, rfl⟩ := List.mem_map.mp ha
        exact aligned_one hr _ _
      · cases ha

theorem mem_tileAccesses {body : CopyRect → Int → Nat → List Access} {rects : List CopyRect}
    {t lane : Nat} {a : Access} (ha : a ∈ tileAccesses body rects t lane) :
    ∃ rect ∈ rects, ∃ part : Int, a ∈ body rect part lane := by
  unfold tileAccesses at ha
  dsimp only at ha
  split at ha
  · cases ha
  · rename_i rect hget
    exact ⟨rect, List.mem_of_getElem? hget, _, ha⟩

theorem mem_withTiles {count : CopyRect → Int} {fill : CopyRect → CopyRect}
    {rects : List CopyRect} {t : Int} {rect : CopyRect}
    (hrect : rect ∈ (withTiles count fill t rects).1) :
    ∃ r ∈ rects, ∃ tileEnd, rect = { fill r with tileEnd := tileEnd } := by
  induction rects generalizing t with
  | nil => cases hrect
  | cons q rects ih =>
      unfold withTiles at hrect
      dsimp only at hrect
      obtain rfl | hrect := List.mem_cons.mp hrect
      · exact ⟨q, List.mem_cons_self, _, rfl⟩
      · obtain ⟨r, hr, heq⟩ := ih hrect
        exact ⟨r, List.mem_cons_of_mem _ hr, heq⟩

/-- The launches of single elements are aligned. -/
theorem Ready.aligned_other (h : Ready sS sD batch) (htile : ¬ ByTile sS sD batch)
    {l : Launch} (hl : l ∈ launchOf sS sD (batch.map Rect.describe)) {a : Access}
    (ha : a ∈ l.accesses sS sD) : a.Aligned sS sD := by
  unfold launchOf at hl
  dsimp only at hl
  by_cases hrun : ByRun batch
  · rw [if_pos (h.byRun_iff.mpr hrun)] at hl
    rw [List.mem_singleton.mp hl] at ha
    unfold Launch.accesses at ha
    dsimp only at ha
    obtain ⟨t, -, ha⟩ := List.mem_flatMap.mp ha
    obtain ⟨lane, -, ha⟩ := List.mem_flatMap.mp ha
    change a ∈ tileAccesses (narrowBody sS sD) _ t lane at ha
    obtain ⟨rect, hrect, part, ha⟩ := mem_tileAccesses ha
    obtain ⟨r, hr, tileEnd, rfl⟩ := mem_withTiles hrect
    obtain ⟨k, -, ha⟩ := List.mem_flatMap.mp ha
    dsimp only at ha
    split at ha
    · have hsited := h.sited r hr
      rw [List.mem_singleton.mp ha]
      exact aligned_one ⟨hsited.src, hsited.dst⟩ _ _
    · cases ha
  · have hrow : ByRow sS sD batch := by
      by_contra hrow
      exact htile ⟨hrun, hrow⟩
    rw [if_neg (fun hyp => hrun (h.byRun_iff.mp hyp)), if_pos (h.byRow_iff.mpr hrow)] at hl
    rw [List.mem_singleton.mp hl] at ha
    unfold Launch.accesses at ha
    dsimp only at ha
    obtain ⟨block, -, ha⟩ := List.mem_flatMap.mp ha
    obtain ⟨row, -, ha⟩ := List.mem_flatMap.mp ha
    obtain ⟨lane, -, ha⟩ := List.mem_flatMap.mp ha
    unfold smallAccesses at ha
    split at ha
    · cases ha
    · rename_i rect hget
      split at ha
      · obtain ⟨i, -, rfl⟩ := List.mem_map.mp ha
        exact aligned_one (h.sited rect (List.mem_of_getElem? hget)) _ _
      · cases ha

theorem peel_wideFill (width w : Nat) (r : CopyRect) :
    min (peel sS width (wideFill sS sD w r)) (wideFill sS sD w r).cols =
      min (peel sS width r) r.cols := by
  unfold peel wideFill
  dsimp only

theorem allows_wideFill (width w : Nat) (r : CopyRect) :
    Allows sS sD width (wideFill sS sD w r) ↔ Allows sS sD width r := by
  unfold Allows peel wideFill
  dsimp only
  rfl

/-- The launches of tiles are aligned when no rectangle refuses the width. -/
theorem Ready.aligned_byTile (h : Ready sS sD batch) (htile : ByTile sS sD batch)
    (hfit : (wideFilled sS sD batch).2 < 2 ^ 31)
    (hall : ∀ r ∈ batch, Allows sS sD (launchWidth sS sD batch) r.describe)
    {l : Launch} (hl : l ∈ launchOf sS sD (batch.map Rect.describe)) {a : Access}
    (ha : a ∈ l.accesses sS sD) : a.Aligned sS sD := by
  have hpos := h.launchWidth_pos
  have hdvd := h.launchWidth_dvd.trans (vec_dvd sS sD)
  have hcount : ∀ r ∈ batch.map Rect.describe, 0 ≤ wideCount sS (launchWidth sS sD batch) r :=
    h.wideCount_nonneg hpos
  rw [h.launchOf_byTile htile] at hl
  rw [List.mem_singleton.mp hl, ← Multiset.mem_coe] at ha
  unfold Launch.accesses at ha
  dsimp only at ha
  change a ∈ ((List.flatMap (fun t => (List.range COPY_BATCH_THREADS).flatMap (tileAccesses
    (wideBody sS sD (launchWidth sS sD batch)) (wideFilled sS sD batch).1 t)) _ : List Access) :
      Multiset Access) at ha
  unfold wideFilled at ha
  rw [coe_tiles hcount (fun r x p lane => rfl) hfit] at ha
  simp only [Multiset.mem_bind, Multiset.mem_coe, Multiset.mem_range] at ha
  obtain ⟨rect, hrect, p, hp, lane, hlane, ha⟩ := ha
  obtain ⟨r, hr, rfl⟩ := List.mem_map.mp hrect
  rw [wideCount_describe (h.rows r hr).2 hpos, Int.toNat_natCast] at hp
  have hpart := h.rows_mul_pieces_lt hpos hfit r hr
  have hsited := h.sited _ hrect
  obtain ⟨hhead, -, -, -⟩ := wideFill_head hsited hdvd
  have hrows : (wideFill sS sD (launchWidth sS sD batch) r.describe).rows = r.rows :=
    (wideFill_rows _ _).trans (describe_rows (h.rows r hr).2)
  have hq : 0 < pieces r.cols (tile sS (launchWidth sS sD batch)) :=
    Nat.pos_of_ne_zero fun h0 => by
      rw [h0, Nat.mul_zero] at hp
      exact absurd hp (Nat.not_lt_zero p)
  have hx := Nat.div_lt_of_lt_mul (Nat.mul_comm _ _ ▸ hp)
  have hy := Nat.mod_lt p hq
  rw [← Nat.div_add_mod' p (pieces r.cols (tile sS (launchWidth sS sD batch))),
    wideBody_eq hrows (wideFill_rowTiles hpos (h.rows r hr).1 hpart) hpart hx hy] at ha
  refine aligned_row (sited_wideFill _ hsited) hpos ((allows_wideFill _ _ _).mpr (hall r hr)) ?_ ?_
    (Int.natCast_nonneg _) ha
  · obtain ⟨heq, -⟩ | ⟨-, hno⟩ := head_eq hsited (launchWidth sS sD batch)
    · rw [hhead, heq, peel_wideFill]
    · exact absurd (hall r hr) hno
  · intro hone
    rw [hrows] at hone
    have hx0 : p / pieces r.cols (tile sS (launchWidth sS sD batch)) = 0 :=
      Nat.lt_one_iff.mp (Nat.lt_of_lt_of_le hx (Int.ofNat_le.mp hone))
    rw [hx0]
    rfl

/-! ## Batches -/

/-- A batch takes rectangles off the front and leaves out empty ones. -/
theorem takeBatch_spec {rects : List Rect} (room : Nat) :
    (takeBatch room rects).1.length ≤ room ∧
      (∀ r ∈ (takeBatch room rects).1, r ∈ rects ∧ 0 < r.rows ∧ 0 < r.cols) ∧
      (∀ r ∈ (takeBatch room rects).2, r ∈ rects) ∧
      (0 < room → rects ≠ [] → (takeBatch room rects).2.length < rects.length) ∧
      (takeBatch room rects).2.length ≤ rects.length ∧
      (takeBatch room rects).1.flatMap (Rect.elements sS sD) ++
          (takeBatch room rects).2.flatMap (Rect.elements sS sD) =
        rects.flatMap (Rect.elements sS sD) := by
  induction rects generalizing room with
  | nil => cases room <;> simp [takeBatch]
  | cons r rects ih =>
      cases room with
      | zero => simp [takeBatch]
      | succ room =>
          unfold takeBatch
          split
          · rename_i hpos
            obtain ⟨hlen, hmem, hrest, -, hle, heq⟩ := ih room
            dsimp only
            refine ⟨Nat.succ_le_succ hlen, fun q hq => ?_,
              fun q hq => List.mem_cons_of_mem _ (hrest q hq),
              fun _ _ => Nat.lt_succ_of_le hle, Nat.le_succ_of_le hle, ?_⟩
            · obtain rfl | hq := List.mem_cons.mp hq
              · exact ⟨List.mem_cons_self, hpos⟩
              · exact ⟨List.mem_cons_of_mem _ (hmem q hq).1, (hmem q hq).2⟩
            · rw [List.flatMap_cons, List.flatMap_cons, List.append_assoc, heq]
          · rename_i hempty
            obtain ⟨hlen, hmem, hrest, -, hle, heq⟩ := ih (room + 1)
            have hnone : r.elements sS sD = [] := by
              unfold Rect.elements
              by_cases hrows : r.rows > 0
              · have hcols : r.cols = 0 := by
                  by_contra hcols
                  exact hempty ⟨hrows, Nat.pos_of_ne_zero hcols⟩
                rw [hcols]
                simp
              · rw [Nat.eq_zero_of_not_pos hrows]
                rfl
            refine ⟨hlen, fun q hq => ⟨List.mem_cons_of_mem _ (hmem q hq).1, (hmem q hq).2⟩,
              fun q hq => List.mem_cons_of_mem _ (hrest q hq),
              fun _ _ => Nat.lt_succ_of_le hle, Nat.le_succ_of_le hle, ?_⟩
            rw [List.flatMap_cons, hnone, List.nil_append, heq]

/-- The batches hold every rectangle that is not empty, at most 80 each. -/
theorem batches_spec {rects : List Rect} {fuel : Nat} (hfuel : rects.length ≤ fuel) :
    (∀ b ∈ batches fuel rects, b.length ≤ COPY_BATCH_CAP ∧
        ∀ r ∈ b, r ∈ rects ∧ 0 < r.rows ∧ 0 < r.cols) ∧
      (batches fuel rects).flatMap (fun b => b.flatMap (Rect.elements sS sD)) =
        rects.flatMap (Rect.elements sS sD) := by
  induction fuel generalizing rects with
  | zero =>
      rw [List.length_eq_zero_iff.mp (Nat.le_zero.mp hfuel)]
      exact ⟨fun b hb => absurd hb List.not_mem_nil, rfl⟩
  | succ fuel ih =>
      cases rects with
      | nil => exact ⟨fun b hb => absurd hb List.not_mem_nil, rfl⟩
      | cons r rects =>
          obtain ⟨hlen, hmem, hrest, hlt, -, heq⟩ :=
            @takeBatch_spec sS sD (r :: rects) COPY_BATCH_CAP
          have hshort := hlt (by decide) (List.cons_ne_nil _ _)
          obtain ⟨hall, hflat⟩ := @ih (takeBatch COPY_BATCH_CAP (r :: rects)).2 (by omega)
          have hlater : ∀ b ∈ batches fuel (takeBatch COPY_BATCH_CAP (r :: rects)).2,
              b.length ≤ COPY_BATCH_CAP ∧
                ∀ q ∈ b, q ∈ r :: rects ∧ 0 < q.rows ∧ 0 < q.cols := fun b hb =>
            ⟨(hall b hb).1, fun q hq => ⟨hrest q ((hall b hb).2 q hq).1, ((hall b hb).2 q hq).2⟩⟩
          unfold batches
          dsimp only
          split
          · rename_i hnil
            refine ⟨hlater, ?_⟩
            rw [hflat, ← heq, hnil, List.flatMap_nil, List.nil_append]
          · refine ⟨fun b hb => ?_, ?_⟩
            · obtain rfl | hb := List.mem_cons.mp hb
              · exact ⟨hlen, hmem⟩
              · exact hlater b hb
            · rw [List.flatMap_cons, hflat, heq]

/-! ## Exact copies -/

variable (sS sD) in
/-- The width that the rectangles of a batch leave, one after the other. -/
def widthLeft (batch : List Rect) : Nat :=
  (batch.map Rect.describe).foldl (widest sS sD 5) (vec sS sD)

theorem Ready.launchWidth_eq (h : Ready sS sD batch) :
    launchWidth sS sD batch = widthLeft sS sD batch := by
  have hfold : ∀ (rects : List CopyRect) (width : Nat), width ∣ vec sS sD →
      (∀ r ∈ rects, r.Sited sS sD) →
      rects.foldl (narrow sS sD) width = rects.foldl (widest sS sD 5) width := by
    intro rects
    induction rects with
    | nil => exact fun _ _ _ => rfl
    | cons r rects ih =>
        intro width hwidth hrects
        have hr := hrects r List.mem_cons_self
        have heq := narrow_eq_widest hwidth hr
        rw [List.foldl_cons, List.foldl_cons, ← heq]
        exact ih _ ((narrow_spec hwidth hr).1.trans hwidth)
          fun q hq => hrects q (List.mem_cons_of_mem _ hq)
  exact hfold _ _ (Nat.dvd_refl _) h.sited

variable (sS sD) in
/-- The rows fit in 32 bits and, for a launch of tiles, so does the number of tiles, and every
rectangle allows the width that is left. -/
structure Suits (batch : List Rect) : Prop where
  rows : ∀ r ∈ batch, r.rows < 2 ^ 31
  tiles : ByTile sS sD batch →
    (batch.map fun r => r.rows * pieces r.cols (tile sS (widthLeft sS sD batch))).sum < 2 ^ 31
  widths : ByTile sS sD batch → ∀ r ∈ batch, Allows sS sD (widthLeft sS sD batch) r.describe

theorem withTiles_total (count : CopyRect → Int) (fill : CopyRect → CopyRect)
    (rects : List CopyRect) (t : Int) :
    (withTiles count fill t rects).2 = t + (rects.map count).sum := by
  induction rects generalizing t with
  | nil => simp [withTiles]
  | cons r rects ih =>
      unfold withTiles
      dsimp only
      rw [ih, List.map_cons, List.sum_cons, Int.add_assoc]

/-- The tiles of a launch. -/
theorem Ready.wideFilled_total (h : Ready sS sD batch) : (wideFilled sS sD batch).2 =
    ((batch.map fun r => r.rows * pieces r.cols (tile sS (widthLeft sS sD batch))).sum : Nat) := by
  have hcount : ((batch.map Rect.describe).map (wideCount sS (launchWidth sS sD batch))) =
      batch.map fun r =>
        ((r.rows * pieces r.cols (tile sS (launchWidth sS sD batch)) : Nat) : Int) := by
    rw [List.map_map, Function.comp_def]
    exact List.map_congr_left fun r hr => wideCount_describe (h.rows r hr).2 h.launchWidth_pos
  unfold wideFilled
  rw [withTiles_total, Int.zero_add, hcount, h.launchWidth_eq, Nat.cast_list_sum, List.map_map]
  exact congrArg List.sum (List.map_congr_left fun r _ => rfl)

/-- A batch that suits its launch is moved once and aligned, and its counters fit. -/
theorem Suits.exact (h : Ready sS sD batch) (hlength : batch.length ≤ COPY_BATCH_CAP)
    (hs : Suits sS sD batch) :
    batchMoved sS sD batch = (batch.flatMap (Rect.elements sS sD) : Multiset _) ∧
      (∀ l ∈ launchOf sS sD (batch.map Rect.describe), ∀ a ∈ l.accesses sS sD,
        a.Aligned sS sD) ∧
      ∀ x ∈ counters sS sD batch, x < 2 ^ 31 := by
  have hfit : ByTile sS sD batch → (wideFilled sS sD batch).2 < 2 ^ 31 := fun htile => by
    rw [h.wideFilled_total]
    exact_mod_cast hs.tiles htile
  have hall : ByTile sS sD batch → ∀ r ∈ batch,
      Allows sS sD (launchWidth sS sD batch) r.describe := by
    rw [h.launchWidth_eq]
    exact hs.widths
  refine ⟨h.moved_eq hlength hfit hall, fun l hl a ha => ?_, fun x hx => ?_⟩
  · by_cases htile : ByTile sS sD batch
    · exact h.aligned_byTile htile (hfit htile) (hall htile) hl ha
    · exact h.aligned_other htile hl ha
  · have hpos := h.launchWidth_pos
    obtain hx | hx := List.mem_append.mp hx
    · obtain ⟨r, hr, hx⟩ := List.mem_flatMap.mp hx
      have hok := h.ok r hr
      simp only [List.mem_cons, List.not_mem_nil, or_false] at hx
      obtain rfl | rfl | rfl := hx
      · exact_mod_cast hs.rows r hr
      · exact_mod_cast hok.srcPitch.2
      · exact_mod_cast hok.dstPitch.2
    · by_cases htile : ByTile sS sD batch
      · rw [h.launchOf_byTile htile, List.flatMap_singleton] at hx
        dsimp only at hx
        obtain rfl | hx := List.mem_cons.mp hx
        · exact hfit htile
        · obtain ⟨rect, hrect, rfl⟩ := List.mem_map.mp hx
          obtain ⟨rect', hrect', tileEnd, rfl⟩ := mem_withTiles hrect
          obtain ⟨r, hr, rfl⟩ := List.mem_map.mp hrect'
          have hpart := h.rows_mul_pieces_lt hpos (hfit htile) r hr
          have hle := Nat.le_mul_of_pos_left
            (pieces r.cols (tile sS (launchWidth sS sD batch))) (h.rows r hr).1
          change ceildiv r.cols _ < _
          rw [ceildiv_natCast _ (tile_pos hpos)]
          omega
      · unfold launchOf at hx
        dsimp only at hx
        by_cases hrun : ByRun batch
        · rw [if_pos (h.byRun_iff.mpr hrun), List.flatMap_singleton] at hx
          rw [List.mem_singleton.mp hx]
          exact (moved_narrow sS sD h (fun r hr => (hrun.2 r hr).2) hlength rfl).1
        · have hrow : ByRow sS sD batch := by
            by_contra hrow
            exact htile ⟨hrun, hrow⟩
          rw [if_neg (fun hyp => hrun (h.byRun_iff.mp hyp)), if_pos (h.byRow_iff.mpr hrow),
            List.flatMap_singleton] at hx
          cases hx

/-- A batch whose counters fit moves at least its elements. -/
theorem Ready.le_card_moved (h : Ready sS sD batch) (hlength : batch.length ≤ COPY_BATCH_CAP)
    (hfit : ByTile sS sD batch → (wideFilled sS sD batch).2 < 2 ^ 31) :
    (batch.flatMap (Rect.elements sS sD)).length ≤ (batchMoved sS sD batch).card := by
  by_cases hall : ByTile sS sD batch → ∀ r ∈ batch,
      Allows sS sD (launchWidth sS sD batch) r.describe
  · rw [h.moved_eq hlength hfit hall, Multiset.coe_card]
  · rw [Classical.not_imp] at hall
    obtain ⟨htile, hno⟩ := hall
    rw [not_forall₂] at hno
    obtain ⟨r, hr, hno⟩ := hno
    exact Nat.le_of_lt (h.lt_card_moved htile (hfit htile) ⟨r, hr, hno⟩)

/-- The moved elements, batch by batch. -/
theorem coe_copyBatched (rects : List Rect) :
    ((((copyBatched sS sD rects).flatMap (Launch.accesses sS sD)).flatMap
      (Access.elements sS sD) : List _) : Multiset (Int × Int)) =
    (batches rects.length rects : Multiset (List Rect)).bind (batchMoved sS sD) := by
  unfold copyBatched
  rw [List.flatMap_assoc, List.flatMap_assoc, ← Multiset.coe_bind]
  refine Multiset.bind_congr fun b _ => ?_
  unfold batchMoved moved
  rw [List.flatMap_assoc]

/-- A copy is exact if and only if each of its batches suits its launch. -/
theorem exact_iff {rects : List Rect} (hok : ∀ r ∈ rects, r.Ok sS sD) :
    Exact sS sD rects ↔ ∀ batch ∈ batches rects.length rects, Suits sS sD batch := by
  obtain ⟨hbatches, hflat⟩ := @batches_spec sS sD rects _ (Nat.le_refl _)
  have hready : ∀ batch ∈ batches rects.length rects, (∀ r ∈ batch, r.rows < 2 ^ 31) →
      Ready sS sD batch := fun batch hb hrows =>
    ⟨fun r hr => hok r ((hbatches batch hb).2 r hr).1,
      fun r hr => ⟨((hbatches batch hb).2 r hr).2.1, hrows r hr⟩,
      fun r hr => ((hbatches batch hb).2 r hr).2.2⟩
  constructor
  · intro hexact batch hb
    have hrows : ∀ b ∈ batches rects.length rects, ∀ r ∈ b, r.rows < 2 ^ 31 := by
      intro b hb r hr
      have hlt := hexact.fits b hb r.rows (List.mem_append.mpr (.inl
        (List.mem_flatMap.mpr ⟨r, hr, List.mem_cons_self⟩)))
      exact_mod_cast hlt
    have hfit : ∀ b ∈ batches rects.length rects, ByTile sS sD b →
        (wideFilled sS sD b).2 < 2 ^ 31 := by
      intro b hb htile
      refine hexact.fits b hb _ (List.mem_append.mpr (.inr ?_))
      rw [(hready b hb (hrows b hb)).launchOf_byTile htile, List.flatMap_singleton]
      exact List.mem_cons_self
    have h := hready batch hb (hrows batch hb)
    refine ⟨hrows batch hb, fun htile => ?_, fun htile => ?_⟩
    · have hlt := hfit batch hb htile
      rw [h.wideFilled_total] at hlt
      exact_mod_cast hlt
    · rw [← h.launchWidth_eq]
      by_contra hno
      rw [not_forall₂] at hno
      obtain ⟨r, hr, hno⟩ := hno
      -- this batch moves too much and no other one too little
      have hcard := hexact.once.length_eq
      rw [← hflat, ← Multiset.coe_card, coe_copyBatched, Multiset.card_bind, Multiset.map_coe,
        Multiset.sum_coe, List.length_flatMap] at hcard
      refine absurd hcard (Nat.ne_of_gt ?_)
      refine List.sum_lt_sum _ _ (fun b hb => ?_) ⟨batch, hb, ?_⟩
      · exact (hready b hb (hrows b hb)).le_card_moved (hbatches b hb).1 (hfit b hb)
      · exact h.lt_card_moved htile (hfit batch hb htile) ⟨r, hr, hno⟩
  · intro hsuits
    have hall := fun batch hb =>
      Suits.exact (hready batch hb (hsuits batch hb).rows) (hbatches batch hb).1 (hsuits batch hb)
    refine ⟨?_, fun l hl a ha => ?_, fun batch hb => (hall batch hb).2.2⟩
    · rw [← Multiset.coe_eq_coe, coe_copyBatched, ← hflat, ← Multiset.coe_bind]
      exact Multiset.bind_congr fun b hb => (hall b (Multiset.mem_coe.mp hb)).1
    · obtain ⟨batch, hb, hl⟩ := List.mem_flatMap.mp hl
      exact (hall batch hb).2.1 l hl a ha

end

/-- Elements of 4 bytes. -/
def four : Size := ⟨4, by decide⟩

/-- Two rows of three elements take the small kernel. -/
theorem exact_iff_two_rows : Exact four four [⟨4, 64, 2, 3, 5, 3⟩] := by
  refine (exact_iff fun r hr => ?_).mpr fun batch hb => ?_
  · rw [List.mem_singleton.mp hr]
    exact ⟨by decide, by decide, by decide, by decide⟩
  · have hbatch : batch = [⟨4, 64, 2, 3, 5, 3⟩] := List.mem_singleton.mp hb
    have hrow : ¬ ByTile four four batch := fun h => h.2 fun r hr => by
      rw [hbatch] at hr
      rw [List.mem_singleton.mp hr]
      decide
    refine ⟨fun r hr => ?_, fun h => absurd h hrow, fun h => absurd h hrow⟩
    rw [hbatch] at hr
    rw [List.mem_singleton.mp hr]
    decide

/-- The bytes of rows of elements, a pitch apart. -/
def byteSpan (size : Size) (off rows cols pitch : Nat) : Span :=
  ⟨off, ((rows - 1) * pitch + cols) * size.1⟩

/-- The spans of a copy do not overlap. -/
def NoOverlap (sS sD : Size) (rects : List Rect) : Prop :=
  (rects.map fun r => byteSpan sD r.dst r.rows r.cols r.dstPitch).Pairwise Span.Apart ∧
    ∀ r ∈ rects, ∀ q ∈ rects, (byteSpan sD r.dst r.rows r.cols r.dstPitch).Apart
      (byteSpan sS q.src q.rows q.cols q.srcPitch)

/-- A row of two elements that is its own head for accesses of four, before a row that takes
accesses of two: its first access starts an element early, at an odd element of the destination. -/
theorem exact_fails : ¬ ∀ (sS sD : Size) (rects : List Rect), (∀ r ∈ rects, r.Ok sS sD) →
    NoOverlap sS sD rects → Exact sS sD rects := by
  intro h
  have hexact := h four four [⟨4, 1032, 1, 2, 2, 2⟩, ⟨4096, 40968, 1, 5000, 5000, 5000⟩]
    (fun r hr => by
      simp only [List.mem_cons, List.not_mem_nil, or_false] at hr
      obtain rfl | rfl := hr <;> exact ⟨by decide, by decide, by decide, by decide⟩)
    ⟨by unfold Span.Apart; decide, by unfold Span.Apart; decide⟩
  have hodd : ((copyBatched four four [⟨4, 1032, 1, 2, 2, 2⟩,
      ⟨4096, 40968, 1, 5000, 5000, 5000⟩]).any fun l => (l.accesses four four).any fun a =>
        decide (¬ a.dst % (a.width * 4 : Nat) = 0)) = true := by decide
  obtain ⟨l, hl, hodd⟩ := List.any_eq_true.mp hodd
  obtain ⟨a, ha, hodd⟩ := List.any_eq_true.mp hodd
  exact of_decide_eq_true hodd (hexact.aligned l hl a ha).2

end TorchMojoBackend.Kernels.BatchedCopy
