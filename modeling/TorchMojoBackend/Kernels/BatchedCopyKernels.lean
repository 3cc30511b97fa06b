/-
  `Kernels.BatchedCopyKernels`: what the kernels of a batched copy move.

  The elements that a kernel moves are summed over its tiles, lanes and accesses.  The
  scalar kernels move each element of a rectangle once.  So does the wide kernel for a
  rectangle with a head of its own; with a head of minus one it moves each row from the
  element before it.
-/
import Mathlib.Tactic.Ring
import TorchMojoBackend.Foundation.Partition
import TorchMojoBackend.Kernels.BatchedCopyWidth

set_option autoImplicit false

namespace TorchMojoBackend.Kernels.BatchedCopy

open TorchMojoBackend.Foundation

section
variable (sS sD : Size)

/-! ## Sums -/

/-- The source and the destination of the element at column `i` of a row. -/
def place (rect : CopyRect) (row i : Int) : Int × Int :=
  (rect.src + row * rect.srcPitch * sS.1 + i * sS.1,
    rect.dst + row * rect.dstPitch * sD.1 + i * sD.1)

/-- The elements that accesses move. -/
def moved (l : List Access) : Multiset (Int × Int) := ((l.flatMap (Access.elements sS sD)) : List _)

theorem moved_append (l l' : List Access) :
    moved sS sD (l ++ l') = moved sS sD l + moved sS sD l' := by
  unfold moved
  rw [List.flatMap_append, ← Multiset.coe_add]

theorem moved_flatMap {β : Type*} (l : List β) (f : β → List Access) :
    moved sS sD (l.flatMap f) = (l : Multiset β).bind fun x => moved sS sD (f x) := by
  unfold moved
  rw [List.flatMap_assoc, ← Multiset.coe_bind]

theorem moved_accessAt (rect : CopyRect) (row i : Int) (width : Nat) :
    moved sS sD [accessAt sS sD rect row i width] = (span i width).map (place sS sD rect row) := by
  unfold moved span
  rw [Multiset.map_map, List.flatMap_singleton, Access.elements, ← Multiset.map_coe]
  refine Multiset.map_congr rfl fun e _ => ?_
  simp only [accessAt, place, Function.comp]
  ext <;> ring

theorem moved_singles (rect : CopyRect) (row i : Int) (n : Nat) :
    moved sS sD ((List.range n).map fun j : Nat => accessAt sS sD rect row (i + j) 1) =
      (span i n).map (place sS sD rect row) := by
  have hone : ∀ j : Nat, moved sS sD [accessAt sS sD rect row (i + j) 1] =
      {place sS sD rect row (i + j)} := fun j => by
    rw [moved_accessAt]
    simp [span]
  rw [← List.flatMap_singleton' (List.map _ _), List.flatMap_map, moved_flatMap]
  unfold span
  rw [Multiset.map_map, ← Multiset.bind_singleton]
  exact Multiset.bind_congr fun j _ => hone j

/-! ## Rows -/

/-- What a lane moves for a chunk of a row. -/
def rowAccesses (width : Nat) (rect : CopyRect) (row : Int) (chunk : Int) (lane : Nat) :
    List Access :=
  let start := chunk * tile sS width
  (if start = 0 ∧ (lane : Int) < rect.head then [accessAt sS sD rect row lane 1] else []) ++
    (List.range (items sS width)).flatMap fun k =>
      let i := rect.head + start + (lane + k * COPY_BATCH_THREADS : Nat) * width
      if i + width ≤ rect.cols then [accessAt sS sD rect row i width]
      else if i < rect.cols then
        (List.range (rect.cols - i).toNat).map fun j : Nat => accessAt sS sD rect row (i + j) 1
      else []

/-- The elements of the `n`-th access of a row after its head. -/
def accessSpan (rect : CopyRect) (row : Int) (width n : Nat) : Multiset (Int × Int) :=
  (span (rect.head + (n * width : Nat))
    (min width ((rect.cols - rect.head).toNat - n * width))).map (place sS sD rect row)

variable {sS sD}
variable {rect : CopyRect} {width : Nat}

/-- The `n`-th access of a row. -/
theorem moved_access (row : Int) (n : Nat) (hhead : rect.head ≤ rect.cols) :
    moved sS sD
      (if rect.head + (n * width : Nat) + width ≤ rect.cols then
        [accessAt sS sD rect row (rect.head + (n * width : Nat)) width]
      else if rect.head + (n * width : Nat) < rect.cols then
        (List.range (rect.cols - (rect.head + (n * width : Nat))).toNat).map fun j : Nat =>
          accessAt sS sD rect row (rect.head + (n * width : Nat) + j) 1
      else []) = accessSpan sS sD rect row width n := by
  unfold accessSpan
  split
  · rw [moved_accessAt, Nat.min_eq_left (by omega)]
  · split
    · rw [moved_singles, Nat.min_eq_right (by omega)]
      congr 2
      omega
    · rw [Nat.min_eq_right (by omega), show (rect.cols - rect.head).toNat - n * width = 0 by omega]
      rfl

/-- All chunks of a row cover it from its head on, and the lanes of the first one the head. -/
theorem moved_row (row : Int) (hwidth : 0 < width) (hitems : 0 < items sS width)
    (hhead : rect.head ≤ rect.cols) (hlanes : rect.head ≤ COPY_BATCH_THREADS) {tiles : Nat}
    (htiles : 0 < tiles) :
    ((Multiset.range tiles).bind fun chunk => (Multiset.range COPY_BATCH_THREADS).bind fun lane =>
      moved sS sD (rowAccesses sS sD width rect row chunk lane)) =
    ((span 0 rect.head.toNat) + span rect.head
      (min (rect.cols - rect.head).toNat (tiles * tile sS width))).map (place sS sD rect row) := by
  have hsplit : ∀ chunk lane : Nat, moved sS sD (rowAccesses sS sD width rect row chunk lane) =
      (if chunk = 0 then
        if lane < rect.head.toNat then {place sS sD rect row lane} else 0 else 0) +
      (Multiset.range (items sS width)).bind fun k =>
        accessSpan sS sD rect row width (chunk * (items sS width * COPY_BATCH_THREADS) +
          (k * COPY_BATCH_THREADS + lane)) := by
    intro chunk lane
    unfold rowAccesses
    dsimp only
    rw [moved_append]
    congr 1
    · have htile : 0 < tile sS width := by
        unfold tile
        exact Nat.mul_pos (Nat.mul_pos (by decide) hitems) hwidth
      by_cases hc : chunk = 0
      · subst hc
        by_cases hl : lane < rect.head.toNat
        · rw [if_pos rfl, if_pos hl, if_pos ⟨by simp, by omega⟩, moved_accessAt]
          simp [span]
        · rw [if_pos rfl, if_neg hl, if_neg fun h => hl (by omega)]
          rfl
      · rw [if_neg hc, if_neg fun h => ?_]
        · rfl
        · obtain h | h := Int.mul_eq_zero.mp h.1 <;> omega
    · rw [moved_flatMap]
      refine Multiset.bind_congr fun k _ => ?_
      rw [← moved_access row _ hhead]
      have hpos : rect.head + (chunk : Int) * (tile sS width : Nat) +
          ((lane + k * COPY_BATCH_THREADS : Nat) : Int) * (width : Nat) =
          rect.head + (((chunk * (items sS width * COPY_BATCH_THREADS) +
            (k * COPY_BATCH_THREADS + lane)) * width : Nat) : Int) := by
        unfold tile
        push_cast
        ring
      rw [hpos]
  have hscalar : ((Multiset.range tiles).bind fun chunk =>
      (Multiset.range COPY_BATCH_THREADS).bind fun lane =>
        if chunk = 0 then
          if lane < rect.head.toNat then {place sS sD rect row lane} else 0 else 0) =
      (span 0 rect.head.toNat).map (place sS sD rect row) := by
    have hfirst : ∀ chunk : Nat, ((Multiset.range COPY_BATCH_THREADS).bind fun lane : Nat =>
        if chunk = 0 then
          if lane < rect.head.toNat then {place sS sD rect row lane} else 0 else 0) =
        if chunk = 0 then (span 0 rect.head.toNat).map (place sS sD rect row) else 0 := by
      intro chunk
      by_cases hc : chunk = 0
      · simp only [if_pos hc]
        rw [bind_range_lanes (by omega), Multiset.bind_singleton]
        unfold span
        rw [Multiset.map_map]
        exact Multiset.map_congr rfl fun i _ => by simp
      · simp only [if_neg hc]
        exact Multiset.bind_zero _
    simp only [hfirst]
    exact bind_range_first htiles _
  simp only [hsplit, Multiset.bind_add]
  rw [hscalar, Multiset.map_add]
  refine congrArg (_ + ·) ?_
  -- one access after the other
  have hblock : ∀ chunk : Nat, ((Multiset.range COPY_BATCH_THREADS).bind fun lane =>
      (Multiset.range (items sS width)).bind fun k =>
        accessSpan sS sD rect row width (chunk * (items sS width * COPY_BATCH_THREADS) +
          (k * COPY_BATCH_THREADS + lane))) =
      (Multiset.range (items sS width * COPY_BATCH_THREADS)).bind fun y =>
        accessSpan sS sD rect row width (chunk * (items sS width * COPY_BATCH_THREADS) + y) :=
    fun chunk => (bind_range_mul' (items sS width) COPY_BATCH_THREADS fun y =>
      accessSpan sS sD rect row width
        (chunk * (items sS width * COPY_BATCH_THREADS) + y)).symm
  simp only [hblock]
  rw [← bind_range_mul tiles (items sS width * COPY_BATCH_THREADS)]
  unfold accessSpan
  rw [← Multiset.map_bind, bind_range_span]
  have htotal : tiles * (items sS width * COPY_BATCH_THREADS) * width = tiles * tile sS width := by
    unfold tile
    ring
  rw [htotal]

/-! ## Tiles -/

theorem int32_eq {x : Int} (h0 : 0 ≤ x) (h1 : x < 2 ^ 31) : int32 x = x := by
  unfold int32
  exact Int.bmod_eq_of_le (by omega) (by omega)

theorem uint32_natCast {n : Nat} (h : n < 2 ^ 31) : uint32 n = n := by
  unfold uint32
  omega

theorem ceildiv_natCast (a : Nat) {b : Nat} (hb : 0 < b) : ceildiv a b = pieces a b := by
  have hle := le_pieces_mul (n := a) hb
  have hlt := pieces_mul_lt (n := a) hb
  have hbz : (0 : Int) < b := by omega
  have hle' : (a : Int) ≤ pieces a b * b := by exact_mod_cast hle
  have hlt' : (pieces a b : Int) * b < a + b := by exact_mod_cast hlt
  have hneg : -(a : Int) / b = -(pieces a b : Int) := by
    refine Int.le_antisymm (Int.lt_add_one_iff.mp ((Int.ediv_lt_iff_lt_mul hbz).mpr ?_))
      ((Int.le_ediv_iff_mul_le hbz).mpr ?_)
    · rw [Int.add_mul, Int.one_mul, Int.neg_mul]
      omega
    · rw [Int.neg_mul]
      omega
  unfold ceildiv
  rw [hneg, Int.neg_neg]

/-- The tiles of the `i`-th rectangle. -/
def tilesOf (count : CopyRect → Int) (rects : List CopyRect) (i : Nat) : Nat :=
  ((rects[i]?).map fun r => (count r).toNat).getD 0

theorem segmentStart_tilesOf_cons (count : CopyRect → Int) (r : CopyRect) (rects : List CopyRect)
    (j : Nat) : segmentStart (tilesOf count (r :: rects)) (j + 1) =
      (count r).toNat + segmentStart (tilesOf count rects) j := by
  unfold segmentStart
  rw [Finset.sum_range_succ', Nat.add_comm]
  rfl

/-- The descriptors hold the sums of the tile counts. -/
theorem withTiles_spec {count : CopyRect → Int} (fill : CopyRect → CopyRect)
    {rects : List CopyRect} (hcount : ∀ r ∈ rects, 0 ≤ count r) (t : Nat) :
    (withTiles count fill t rects).2 =
        (t + segmentStart (tilesOf count rects) rects.length : Nat) ∧
      (withTiles count fill t rects).1.length = rects.length ∧
      ∀ j : Nat, (withTiles count fill t rects).1[j]? = (rects[j]?).map fun r =>
        { fill r with
          tileEnd := int32 (t + segmentStart (tilesOf count rects) (j + 1) : Nat) } := by
  induction rects generalizing t with
  | nil => exact ⟨rfl, rfl, fun j => rfl⟩
  | cons r rects ih =>
      have hnext : (t : Int) + count r = (t + (count r).toNat : Nat) := by
        have := hcount r List.mem_cons_self
        omega
      obtain ⟨htotal, hlength, hget⟩ := ih (fun q hq => hcount q (List.mem_cons_of_mem _ hq))
        (t + (count r).toNat)
      unfold withTiles
      dsimp only
      rw [hnext]
      refine ⟨?_, ?_, fun j => ?_⟩
      · rw [htotal, List.length_cons, segmentStart_tilesOf_cons]
        omega
      · rw [List.length_cons, hlength, List.length_cons]
      · cases j with
        | zero =>
            rw [List.getElem?_cons_zero, List.getElem?_cons_zero, segmentStart_tilesOf_cons]
            rfl
        | succ j =>
            rw [List.getElem?_cons_succ, List.getElem?_cons_succ, hget j,
              segmentStart_tilesOf_cons, Nat.add_assoc]

/-- A rectangle has no more tiles than the launch. -/
theorem count_le_withTiles {count : CopyRect → Int} (fill : CopyRect → CopyRect)
    {rects : List CopyRect} (hcount : ∀ r ∈ rects, 0 ≤ count r) (t : Int) :
    t ≤ (withTiles count fill t rects).2 ∧
      ∀ r ∈ rects, t + count r ≤ (withTiles count fill t rects).2 := by
  induction rects generalizing t with
  | nil => exact ⟨Int.le_refl _, fun r hr => absurd hr List.not_mem_nil⟩
  | cons q rects ih =>
      obtain ⟨hle, hall⟩ := ih (fun r hr => hcount r (List.mem_cons_of_mem _ hr)) (t + count q)
      have hq := hcount q List.mem_cons_self
      unfold withTiles
      dsimp only
      refine ⟨by omega, fun r hr => ?_⟩
      obtain rfl | hr := List.mem_cons.mp hr
      · exact hle
      · have := hall r hr
        omega

/-- What a lane does for a tile of a rectangle, found by its number. -/
def tileAccesses (body : CopyRect → Int → Nat → List Access) (rects : List CopyRect)
    (t lane : Nat) : List Access :=
  let lo := segmentIndex rects t
  match rects[lo]? with
  | none => []
  | some rect =>
    let before := if lo = 0 then 0 else ((rects[lo - 1]?).map CopyRect.tileEnd).getD 0
    body rect ((t : Int) - before) lane

theorem bind_range_getElem {β γ : Type*} (l : List β) (f : β → Multiset γ) :
    ((Multiset.range l.length).bind fun j => ((l[j]?).map f).getD 0) =
      (l : Multiset β).bind f := by
  induction l with
  | nil => rfl
  | cons x l ih =>
      rw [List.length_cons, Nat.add_comm, bind_range_add, ← Multiset.cons_coe, Multiset.cons_bind,
        ← ih]
      refine congrArg₂ (· + ·) (by simp) (Multiset.bind_congr fun j _ => ?_)
      rw [Nat.add_comm 1 j, List.getElem?_cons_succ]

/-- The tiles of a launch are those of its rectangles. -/
theorem coe_tiles {count : CopyRect → Int} {fill : CopyRect → CopyRect}
    {body : CopyRect → Int → Nat → List Access} {rects : List CopyRect}
    (hcount : ∀ r ∈ rects, 0 ≤ count r)
    (hbody : ∀ r x p lane, body { r with tileEnd := x } p lane = body r p lane)
    (hfit : (withTiles count fill 0 rects).2 < 2 ^ 31) (lanes : Nat) :
    ((gridItems (min (withTiles count fill 0 rects).2.toNat COPY_BATCH_MAX_BLOCKS)
      (withTiles count fill 0 rects).2.toNat).flatMap fun t => (List.range lanes).flatMap
        (tileAccesses body (withTiles count fill 0 rects).1 t) : Multiset Access) =
    (rects : Multiset CopyRect).bind fun r => (Multiset.range (count r).toNat).bind fun p =>
      (Multiset.range lanes).bind fun lane => (body (fill r) p lane : Multiset Access) := by
  obtain ⟨htotal, hlength, hget⟩ := withTiles_spec fill hcount 0
  rw [Nat.zero_add] at htotal
  simp only [Nat.zero_add] at hget
  change (withTiles count fill 0 rects).2 = _ at htotal
  change (withTiles count fill 0 rects).1.length = _ at hlength
  change ∀ j : Nat, (withTiles count fill 0 rects).1[j]? = _ at hget
  generalize (withTiles count fill 0 rects).1 = filled at *
  rw [htotal] at hfit ⊢
  rw [Int.toNat_natCast]
  have hends : ∀ j, j ≤ rects.length → segmentStart (tilesOf count rects) j < 2 ^ 31 :=
    fun j hj => by
      have := @segmentStart_mono (tilesOf count rects) _ _ hj
      omega
  have htileEnd : ∀ j, j < rects.length → ((filled[j]?).map CopyRect.tileEnd).getD 0 =
      (segmentStart (tilesOf count rects) (j + 1) : Nat) := fun j hj => by
    have hlt : ((segmentStart (tilesOf count rects) (j + 1) : Nat) : Int) < 2 ^ 31 := by
      exact_mod_cast hends (j + 1) hj
    rw [hget j, List.getElem?_eq_getElem hj, Option.map_some, Option.map_some, Option.getD_some,
      int32_eq (Int.natCast_nonneg _) hlt]
  have hgrid : (gridItems (min (segmentStart (tilesOf count rects) rects.length)
      COPY_BATCH_MAX_BLOCKS) (segmentStart (tilesOf count rects) rects.length) : Multiset Nat) =
      Multiset.range (segmentStart (tilesOf count rects) rects.length) := by
    obtain h | h := Nat.eq_zero_or_pos (segmentStart (tilesOf count rects) rects.length)
    · rw [h]
      rfl
    · exact coe_gridItems _ (lt_min h (show 0 < 2 ^ 22 by decide))
  rw [← Multiset.coe_bind, hgrid, bind_range_segments, ← bind_range_getElem]
  refine Multiset.bind_congr fun j hj => ?_
  rw [Multiset.mem_range] at hj
  rw [List.getElem?_eq_getElem hj, Option.map_some, Option.getD_some]
  have hlen : tilesOf count rects j = (count rects[j]).toNat := by
    unfold tilesOf
    rw [List.getElem?_eq_getElem hj]
    rfl
  rw [hlen]
  refine Multiset.bind_congr fun p hp => ?_
  rw [Multiset.mem_range] at hp
  rw [← Multiset.coe_bind]
  refine Multiset.bind_congr fun lane _ => ?_
  have hindex : segmentIndex filled (segmentStart (tilesOf count rects) j + p) = j := by
    unfold segmentIndex
    rw [hlength]
    refine firstFalse_segment (fun k hk => ?_) hj (hlen.symm ▸ hp) (Nat.le_refl _)
    rw [htileEnd k hk]
    exact decide_eq_decide.mpr (by exact_mod_cast Iff.rfl)
  unfold tileAccesses
  dsimp only
  rw [hindex, hget j, List.getElem?_eq_getElem hj]
  dsimp only [Option.map_some]
  rw [hbody]
  congr 2
  by_cases hj0 : j = 0
  · subst hj0
    rw [if_pos rfl]
    simp [segmentStart]
  · rw [if_neg hj0, htileEnd (j - 1) (by omega), Nat.sub_add_cancel (by omega)]
    push_cast
    ring

variable (sS sD) in
theorem moved_tiles {count : CopyRect → Int} {fill : CopyRect → CopyRect}
    {body : CopyRect → Int → Nat → List Access} {rects : List CopyRect}
    (hcount : ∀ r ∈ rects, 0 ≤ count r)
    (hbody : ∀ r x p lane, body { r with tileEnd := x } p lane = body r p lane)
    (hfit : (withTiles count fill 0 rects).2 < 2 ^ 31) (lanes : Nat) :
    moved sS sD ((gridItems (min (withTiles count fill 0 rects).2.toNat COPY_BATCH_MAX_BLOCKS)
      (withTiles count fill 0 rects).2.toNat).flatMap fun t => (List.range lanes).flatMap
        (tileAccesses body (withTiles count fill 0 rects).1 t)) =
    (rects : Multiset CopyRect).bind fun r => (Multiset.range (count r).toNat).bind fun p =>
      (Multiset.range lanes).bind fun lane => moved sS sD (body (fill r) p lane) := by
  unfold moved
  rw [← Multiset.coe_bind, coe_tiles hcount hbody hfit]
  simp only [Multiset.bind_assoc, Multiset.coe_bind]

/-! ## Rectangles -/

/-- What a lane does for the tile `part` of a rectangle. -/
def wideBody (sS sD : Size) (width : Nat) (rect : CopyRect) (part : Int) (lane : Nat) :
    List Access :=
  let row : Int := if rect.rows > 1 then (uint32 part / uint32 rect.rowTiles : Nat) else 0
  let chunk := if rect.rows > 1 then part - row * rect.rowTiles else part
  rowAccesses sS sD width rect row chunk lane

/-- A tile of a rectangle is a chunk of a row. -/
theorem wideBody_eq {n q : Nat} (hrows : rect.rows = n) (htiles : rect.rowTiles = q)
    (hfit : n * q < 2 ^ 31) {x y : Nat} (hx : x < n) (hy : y < q) (lane : Nat) :
    wideBody sS sD width rect (x * q + y : Nat) lane = rowAccesses sS sD width rect x y lane := by
  have hpart : x * q + y < n * q := by
    have := Nat.mul_le_mul_right q (Nat.succ_le_of_lt hx)
    rw [Nat.succ_mul] at this
    omega
  have hq : q < 2 ^ 31 := by
    have := Nat.le_mul_of_pos_left q (Nat.zero_lt_of_lt hx)
    omega
  unfold wideBody
  dsimp only
  by_cases hone : rect.rows > 1
  · have hdiv : (x * q + y) / q = x := by
      rw [Nat.mul_comm, Nat.mul_add_div (by omega), Nat.div_eq_of_lt hy, Nat.add_zero]
    rw [if_pos hone, if_pos hone, htiles, uint32_natCast (by omega), uint32_natCast hq, hdiv]
    congr 1
    push_cast
    ring
  · have hx0 : x = 0 := by omega
    subst hx0
    rw [if_neg hone, if_neg hone, Nat.zero_mul, Nat.zero_add]
    rfl

variable (sS sD) in
/-- The elements that the wide kernel moves for a rectangle with a head. -/
def covered (rect : CopyRect) : Multiset (Int × Int) :=
  (Multiset.range rect.rows.toNat).bind fun row =>
    (span 0 rect.head.toNat + span rect.head (rect.cols - rect.head).toNat).map
      (place sS sD rect row)

theorem items_pos (width : Nat) : 0 < items sS width :=
  Nat.lt_of_lt_of_le (by decide) (le_max_left _ _)

theorem tile_pos (hwidth : 0 < width) : 0 < tile sS width := by
  unfold tile
  exact Nat.mul_pos (Nat.mul_pos (by decide) (items_pos width)) hwidth

/-- A tile has at least 1024 elements. -/
theorem le_tile (hwidth : 0 < width) : 1024 ≤ tile sS width := by
  unfold tile
  calc 1024 = COPY_BATCH_THREADS * 4 * 1 := rfl
    _ ≤ COPY_BATCH_THREADS * items sS width * width :=
      Nat.mul_le_mul (Nat.mul_le_mul_left _ (le_max_left _ _)) hwidth

theorem moved_wide_rect {n q : Nat} (hrows : rect.rows = n) (htiles : rect.rowTiles = q)
    (hfit : n * q < 2 ^ 31) (hq : 0 < q) (hwidth : 0 < width) (hhead : rect.head ≤ rect.cols)
    (hlanes : rect.head ≤ COPY_BATCH_THREADS)
    (hreach : rect.cols - rect.head ≤ (q * tile sS width : Nat)) :
    ((Multiset.range (n * q)).bind fun p => (Multiset.range COPY_BATCH_THREADS).bind fun lane =>
      moved sS sD (wideBody sS sD width rect p lane)) = covered sS sD rect := by
  rw [bind_range_mul]
  unfold covered
  rw [hrows, Int.toNat_natCast]
  refine Multiset.bind_congr fun x hx => ?_
  have hrow := @moved_row sS sD rect width x hwidth (items_pos width) hhead hlanes q hq
  rw [Nat.min_eq_left (by omega)] at hrow
  rw [← hrow]
  refine Multiset.bind_congr fun y hy => Multiset.bind_congr fun lane _ => ?_
  rw [wideBody_eq hrows htiles hfit (Multiset.mem_range.mp hx) (Multiset.mem_range.mp hy)]

variable (sS sD) in
/-- The elements of a descriptor. -/
def whole (rect : CopyRect) : Multiset (Int × Int) :=
  (Multiset.range rect.rows.toNat).bind fun row =>
    (span 0 rect.cols).map (place sS sD rect row)

/-- With a head of its own a rectangle is covered once. -/
theorem covered_eq (h0 : 0 ≤ rect.head) (hhead : rect.head ≤ rect.cols) :
    covered sS sD rect = whole sS sD rect := by
  have hspan : span 0 rect.head.toNat + span rect.head (rect.cols - rect.head).toNat =
      span 0 rect.cols := by
    have hsum : rect.head.toNat + (rect.cols - rect.head).toNat = rect.cols := by omega
    rw [← hsum, span_add, Int.zero_add, Int.toNat_of_nonneg h0, hsum]
  unfold covered whole
  rw [hspan]

/-- A head of minus one covers an element more of each row. -/
theorem card_covered (hhead : rect.head = -1) :
    (covered sS sD rect).card = rect.rows.toNat * (rect.cols + 1) := by
  have hrow : ∀ row : Nat, ((span 0 rect.head.toNat + span rect.head
      (rect.cols - rect.head).toNat).map (place sS sD rect row)).card = rect.cols + 1 :=
    fun row => by
      rw [Multiset.card_map, Multiset.card_add, card_span, card_span, hhead]
      omega
  unfold covered
  rw [Multiset.card_bind]
  simp only [Function.comp_def, hrow]
  rw [Multiset.map_const', Multiset.sum_replicate, Multiset.card_range]
  exact Nat.nsmul_eq_mul _ _

theorem describe_rows {r : Rect} (h : r.rows < 2 ^ 31) : r.describe.rows = r.rows := by
  have hlt : (r.rows : Int) < 2 ^ 31 := by exact_mod_cast h
  unfold Rect.describe
  dsimp only
  rw [int32_eq (Int.natCast_nonneg _) hlt]

/-- The elements of a rectangle, by its descriptor. -/
theorem whole_describe {r : Rect} (hr : r.Ok sS sD) (hrows : r.rows < 2 ^ 31) :
    whole sS sD r.describe = (r.elements sS sD : Multiset _) := by
  unfold whole Rect.elements
  rw [describe_rows hrows, Int.toNat_natCast, ← Multiset.coe_bind]
  refine Multiset.bind_congr fun row hrow => ?_
  rw [Multiset.mem_range] at hrow
  unfold span
  rw [Multiset.map_map, ← Multiset.map_coe]
  refine Multiset.map_congr rfl fun c _ => ?_
  have hpitch : ∀ pitch : Nat, pitch < 2 ^ 31 →
      (row : Int) * int32 (if r.rows = 1 then 0 else pitch) = (row * pitch : Nat) := by
    intro pitch hpitch
    by_cases hone : r.rows = 1
    · have hrow0 : row = 0 := by omega
      rw [hrow0, Nat.zero_mul]
      exact Int.zero_mul _
    · rw [if_neg hone, int32_eq (Int.natCast_nonneg _) (by exact_mod_cast hpitch)]
      push_cast
      rfl
  unfold place Rect.describe
  dsimp only [Function.comp]
  rw [hpitch _ hr.srcPitch.2, hpitch _ hr.dstPitch.2]
  push_cast
  ext <;> ring

/-! ## Launches -/

variable (sS sD) in
/-- A batch of rectangles that are not empty and whose rows fit. -/
structure Ready (batch : List Rect) : Prop where
  ok : ∀ r ∈ batch, r.Ok sS sD
  rows : ∀ r ∈ batch, 0 < r.rows ∧ r.rows < 2 ^ 31
  cols : ∀ r ∈ batch, 0 < r.cols

variable {batch : List Rect}

theorem Ready.sited (h : Ready sS sD batch) :
    ∀ rect ∈ batch.map Rect.describe, rect.Sited sS sD := by
  intro rect hrect
  obtain ⟨r, hr, rfl⟩ := List.mem_map.mp hrect
  exact ⟨(h.ok r hr).src, (h.ok r hr).dst⟩

variable (sS sD) in
/-- The width of the accesses that a batch ends with. -/
def launchWidth (batch : List Rect) : Nat :=
  (batch.map Rect.describe).foldl (narrow sS sD) (vec sS sD)

theorem Ready.launchWidth_dvd (h : Ready sS sD batch) : launchWidth sS sD batch ∣ vec sS sD :=
  (foldl_narrow_spec (Nat.dvd_refl _) h.sited).1

theorem Ready.launchWidth_pos (h : Ready sS sD batch) : 0 < launchWidth sS sD batch :=
  Nat.pos_of_dvd_of_pos (h.launchWidth_dvd.trans (vec_dvd sS sD)) (by decide)

/-- The tiles of a rectangle in the wide kernel. -/
def wideCount (sS : Size) (width : Nat) (r : CopyRect) : Int := r.rows * ceildiv r.cols (tile sS width)

/-- The descriptor that the wide kernel reads. -/
def wideFill (sS sD : Size) (width : Nat) (r : CopyRect) : CopyRect :=
  { r with head := int32 (head sS sD width r), rowTiles := int32 (ceildiv r.cols (tile sS width)) }

theorem wideFill_rows (width : Nat) (r : CopyRect) :
    (wideFill sS sD width r).rows = r.rows := by
  unfold wideFill
  dsimp only

theorem sited_wideFill (width : Nat) {r : CopyRect} (hr : r.Sited sS sD) :
    (wideFill sS sD width r).Sited sS sD := by
  unfold wideFill
  exact ⟨hr.src, hr.dst⟩

theorem whole_wideFill (width : Nat) (r : CopyRect) :
    whole sS sD (wideFill sS sD width r) = whole sS sD r := by
  unfold whole wideFill
  dsimp only
  rfl

theorem wideCount_describe {r : Rect} (hrows : r.rows < 2 ^ 31) (hwidth : 0 < width) :
    wideCount sS width r.describe = (r.rows * pieces r.cols (tile sS width) : Nat) := by
  unfold wideCount
  rw [describe_rows hrows, ceildiv_natCast _ (tile_pos hwidth)]
  push_cast
  rfl

/-- The head that the descriptor holds. -/
theorem wideFill_head {r : CopyRect} (hr : r.Sited sS sD) (hwidth : width ∣ 16) :
    (wideFill sS sD width r).head = head sS sD width r ∧ head sS sD width r ≤ r.cols ∧
      head sS sD width r < 16 ∧ -1 ≤ head sS sD width r := by
  have hpos := Nat.pos_of_dvd_of_pos hwidth (by decide)
  have hpeel : peel sS width r < width := Nat.mod_lt _ hpos
  have hle := Nat.le_of_dvd (by decide) hwidth
  have hbounds : head sS sD width r ≤ r.cols ∧ head sS sD width r < 16 ∧
      -1 ≤ head sS sD width r := by
    obtain ⟨heq, -⟩ | ⟨heq, -⟩ := head_eq hr width
    · rw [heq]
      omega
    · rw [heq]
      omega
  refine ⟨?_, hbounds⟩
  unfold wideFill int32
  exact Int.bmod_eq_of_le (by omega) (by omega)

theorem Ready.wideCount_nonneg (h : Ready sS sD batch) (hwidth : 0 < width) :
    ∀ r ∈ batch.map Rect.describe, 0 ≤ wideCount sS width r := by
  intro rect hrect
  obtain ⟨r, hr, rfl⟩ := List.mem_map.mp hrect
  rw [wideCount_describe (h.rows r hr).2 hwidth]
  exact Int.natCast_nonneg _

/-- The tiles of a rectangle are some of those of the launch. -/
theorem Ready.rows_mul_pieces_lt (h : Ready sS sD batch) (hwidth : 0 < width)
    (hfit : (withTiles (wideCount sS width) (wideFill sS sD width) 0
      (batch.map Rect.describe)).2 < 2 ^ 31) :
    ∀ r ∈ batch, r.rows * pieces r.cols (tile sS width) < 2 ^ 31 := by
  intro r hr
  have hle := (count_le_withTiles (wideFill sS sD width) (h.wideCount_nonneg hwidth) 0).2 _
    (List.mem_map_of_mem hr)
  rw [wideCount_describe (h.rows r hr).2 hwidth] at hle
  omega

/-- The tiles of a row fit if those of the rectangle do. -/
theorem wideFill_rowTiles {r : Rect} (hwidth : 0 < width) (hrows : 0 < r.rows)
    (hfit : r.rows * pieces r.cols (tile sS width) < 2 ^ 31) :
    (wideFill sS sD width r.describe).rowTiles = pieces r.cols (tile sS width) := by
  have hle := Nat.le_mul_of_pos_left (pieces r.cols (tile sS width)) hrows
  have hlt : ((pieces r.cols (tile sS width) : Nat) : Int) < 2 ^ 31 := by omega
  unfold wideFill
  dsimp only
  rw [show r.describe.cols = r.cols from rfl, ceildiv_natCast _ (tile_pos hwidth),
    int32_eq (Int.natCast_nonneg _) hlt]

variable (sS sD) in
/-- What the wide kernel moves. -/
theorem moved_wide (h : Ready sS sD batch) (hwidth : width ∣ 16)
    (hshort : ∀ r ∈ batch, head sS sD width r.describe = -1 → r.cols < 16)
    {filled : List CopyRect × Int}
    (hfilled : filled = withTiles (wideCount sS width) (wideFill sS sD width) 0
      (batch.map Rect.describe))
    (hfit : filled.2 < 2 ^ 31) :
    moved sS sD (Launch.accesses sS sD ⟨.wide width filled.2, filled.1⟩) =
      (batch : Multiset Rect).bind fun r =>
        covered sS sD (wideFill sS sD width r.describe) := by
  have hpos := Nat.pos_of_dvd_of_pos hwidth (by decide)
  have hcount := h.wideCount_nonneg hpos
  subst hfilled
  have hpart := h.rows_mul_pieces_lt hpos hfit
  unfold Launch.accesses
  dsimp only
  rw [show (fun t => (List.range COPY_BATCH_THREADS).flatMap (wideAccesses sS sD width
    (withTiles (wideCount sS width) (wideFill sS sD width) 0 (batch.map Rect.describe)).1 t)) =
    fun t => (List.range COPY_BATCH_THREADS).flatMap (tileAccesses (wideBody sS sD width)
    (withTiles (wideCount sS width) (wideFill sS sD width) 0 (batch.map Rect.describe)).1 t)
    from rfl, moved_tiles sS sD hcount (fun r x p lane => rfl) hfit, ← Multiset.map_coe,
    Multiset.bind_map]
  refine Multiset.bind_congr fun r hr => ?_
  rw [Multiset.mem_coe] at hr
  obtain ⟨hhead, hcols, hlt, hlow⟩ := wideFill_head (h.sited _ (List.mem_map_of_mem hr)) hwidth
  have hpieces : 0 < pieces r.cols (tile sS width) :=
    (lt_pieces_iff (tile_pos hpos)).mpr (by rw [Nat.zero_mul]; exact h.cols r hr)
  rw [wideCount_describe (h.rows r hr).2 hpos, Int.toNat_natCast]
  have hrows : (wideFill sS sD width r.describe).rows = r.rows :=
    (wideFill_rows _ _).trans (describe_rows (h.rows r hr).2)
  refine moved_wide_rect hrows (wideFill_rowTiles hpos (h.rows r hr).1 (hpart r hr)) (hpart r hr)
    hpieces hpos (hhead ▸ hcols) (by rw [hhead]; exact Int.le_of_lt (hlt.trans (by decide))) ?_
  rw [hhead]
  change (r.cols : Int) - _ ≤ _
  by_cases hneg : head sS sD width r.describe = -1
  · have hc := hshort r hr hneg
    have ht := Nat.le_mul_of_pos_left (tile sS width) hpieces
    have htile : 1024 ≤ tile sS width := le_tile hpos
    omega
  · have hreach : r.cols ≤ pieces r.cols (tile sS width) * tile sS width :=
      le_pieces_mul (tile_pos hpos)
    omega

/-! ## Scalar kernels -/

theorem moved_map (rect : CopyRect) (row : Int) (l : List Nat) :
    moved sS sD (l.map fun i : Nat => accessAt sS sD rect row i 1) =
      (l : Multiset Nat).map fun i : Nat => place sS sD rect row i := by
  rw [← List.flatMap_singleton' (List.map _ _), List.flatMap_map, moved_flatMap,
    ← Multiset.bind_singleton]
  refine Multiset.bind_congr fun i _ => ?_
  rw [moved_accessAt]
  simp [span]

theorem foldl_max_le_iff {β : Type*} [LinearOrder β] (l : List β) {a b : β} :
    l.foldl max a ≤ b ↔ a ≤ b ∧ ∀ x ∈ l, x ≤ b := by
  induction l generalizing a with
  | nil => simp
  | cons y l ih => rw [List.foldl_cons, ih, max_le_iff, List.forall_mem_cons, and_assoc]

theorem foldl_max_lt_iff {β : Type*} [LinearOrder β] (l : List β) {a b : β} :
    l.foldl max a < b ↔ a < b ∧ ∀ x ∈ l, x < b := by
  induction l generalizing a with
  | nil => simp
  | cons y l ih => rw [List.foldl_cons, ih, max_lt_iff, List.forall_mem_cons, and_assoc]

variable (sS sD) in
/-- What the small kernel moves. -/
theorem moved_small {rects : List CopyRect} {maxRows : Int}
    (hrows : ∀ r ∈ rects, r.rows ≤ maxRows) :
    moved sS sD (Launch.accesses sS sD ⟨.small maxRows, rects⟩) =
      (rects : Multiset CopyRect).bind (whole sS sD) := by
  have hrow : ∀ (rect : CopyRect) (row : Int), ((Multiset.range COPY_BATCH_THREADS).bind
      fun lane : Nat => moved sS sD ((strided rect.cols COPY_BATCH_THREADS rect.cols lane).map
        fun i : Nat => accessAt sS sD rect row i 1)) =
      (span 0 rect.cols).map (place sS sD rect row) := fun rect row => by
    simp only [moved_map]
    rw [← Multiset.map_bind, ← Multiset.coe_range, Multiset.coe_bind]
    unfold span
    rw [Multiset.map_map, ← coe_gridItems rect.cols (show 0 < COPY_BATCH_THREADS by decide)]
    exact Multiset.map_congr rfl fun i _ => by simp
  unfold Launch.accesses
  dsimp only
  rw [moved_flatMap, Multiset.coe_range, ← bind_range_getElem]
  refine Multiset.bind_congr fun block hblock => ?_
  rw [Multiset.mem_range] at hblock
  rw [List.getElem?_eq_getElem hblock, Option.map_some, Option.getD_some, moved_flatMap]
  have hle := hrows _ (List.getElem_mem hblock)
  unfold whole
  rw [← bind_range_lanes (show rects[block].rows.toNat ≤ maxRows.toNat by omega)]
  refine Multiset.bind_congr fun row _ => ?_
  rw [moved_flatMap]
  unfold smallAccesses
  rw [List.getElem?_eq_getElem hblock]
  dsimp only
  by_cases hin : row < rects[block].rows.toNat
  · rw [if_pos hin, ← hrow]
    exact Multiset.bind_congr fun lane _ => by rw [if_pos (by omega)]
  · rw [if_neg hin]
    refine (Multiset.bind_congr fun lane _ => ?_).trans (Multiset.bind_zero _)
    rw [if_neg (by omega)]
    rfl

/-- What a lane does for the run `part` of a rectangle. -/
def narrowBody (sS sD : Size) (rect : CopyRect) (part : Int) (lane : Nat) : List Access :=
  (List.range (tile sS 1 / COPY_BATCH_THREADS)).flatMap fun k : Nat =>
    let i := part * tile sS 1 + lane + k * COPY_BATCH_THREADS
    if i < rect.rows * rect.cols then
      let row : Int := (uint32 i / uint32 rect.cols : Nat)
      [accessAt sS sD rect row (i - row * rect.cols) 1]
    else []

/-- The `i`-th element of a rectangle. -/
def runElement (sS sD : Size) (rect : CopyRect) (i : Nat) : Multiset (Int × Int) :=
  {place sS sD rect (i / rect.cols : Nat) (i % rect.cols : Nat)}

/-- The runs of a rectangle cover it once. -/
theorem moved_narrow_rect {n : Nat} (hrows : rect.rows = n) (hcols : 0 < rect.cols)
    (hn : 0 < n) (hfit : n * rect.cols < 2 ^ 31) :
    ((Multiset.range (pieces (n * rect.cols) (tile sS 1))).bind fun p =>
      (Multiset.range COPY_BATCH_THREADS).bind fun lane =>
        moved sS sD (narrowBody sS sD rect p lane)) = whole sS sD rect := by
  have htile : tile sS 1 = items sS 1 * COPY_BATCH_THREADS := by
    unfold tile
    ring
  have hcount : tile sS 1 / COPY_BATCH_THREADS = items sS 1 := by
    rw [htile]
    exact Nat.mul_div_cancel _ (by decide)
  have hlane : ∀ p lane : Nat, moved sS sD (narrowBody sS sD rect p lane) =
      (Multiset.range (items sS 1)).bind fun k =>
        if p * tile sS 1 + (k * COPY_BATCH_THREADS + lane) < n * rect.cols then
          runElement sS sD rect (p * tile sS 1 + (k * COPY_BATCH_THREADS + lane)) else 0 := by
    intro p lane
    unfold narrowBody
    rw [moved_flatMap, hcount]
    refine Multiset.bind_congr fun k _ => ?_
    have hi : (p : Int) * (tile sS 1 : Nat) + lane + k * (COPY_BATCH_THREADS : Nat) =
        (p * tile sS 1 + (k * COPY_BATCH_THREADS + lane) : Nat) := by
      push_cast
      ring
    have htotal : (n : Int) * rect.cols = (n * rect.cols : Nat) := by push_cast; rfl
    dsimp only
    rw [hrows, hi, htotal]
    generalize p * tile sS 1 + (k * COPY_BATCH_THREADS + lane) = i
    by_cases hin : i < n * rect.cols
    · have hle := Nat.le_mul_of_pos_left rect.cols hn
      rw [if_pos (by exact_mod_cast hin), if_pos hin, uint32_natCast (by omega),
        uint32_natCast (by omega), moved_accessAt]
      have hcol : (i : Int) - (i / rect.cols : Nat) * rect.cols = (i % rect.cols : Nat) := by
        have := Nat.div_add_mod' i rect.cols
        have hcast : ((i / rect.cols * rect.cols + i % rect.cols : Nat) : Int) = i := by rw [this]
        push_cast at hcast ⊢
        omega
      rw [hcol]
      simp [span, runElement]
    · rw [if_neg (by exact_mod_cast hin), if_neg hin]
      rfl
  have hwide : 0 < tile sS 1 := tile_pos Nat.one_pos
  have hreach := le_pieces_mul (n := n * rect.cols) hwide
  have hrun : ∀ p : Nat, ((Multiset.range COPY_BATCH_THREADS).bind fun lane =>
      moved sS sD (narrowBody sS sD rect p lane)) = (Multiset.range (tile sS 1)).bind fun y =>
        if p * tile sS 1 + y < n * rect.cols then
          runElement sS sD rect (p * tile sS 1 + y) else 0 := by
    intro p
    simp only [hlane]
    conv_rhs => rw [htile]
    rw [bind_range_mul', htile]
  simp only [hrun]
  rw [← bind_range_mul _ _ fun i =>
      if i < n * rect.cols then runElement sS sD rect i else 0,
    bind_range_lanes hreach, bind_range_mul]
  unfold whole
  rw [hrows, Int.toNat_natCast]
  refine Multiset.bind_congr fun row _ => ?_
  unfold span
  rw [Multiset.map_map, ← Multiset.bind_singleton]
  refine Multiset.bind_congr fun c hc => ?_
  rw [Multiset.mem_range] at hc
  have hdiv : (row * rect.cols + c) / rect.cols = row := by
    rw [Nat.mul_comm, Nat.mul_add_div hcols, Nat.div_eq_of_lt hc, Nat.add_zero]
  have hmod : (row * rect.cols + c) % rect.cols = c := by
    rw [Nat.mul_comm, Nat.mul_add_mod, Nat.mod_eq_of_lt hc]
  simp only [runElement, hdiv, hmod, Function.comp, Int.zero_add]

/-- The tiles of a rectangle in the narrow kernel. -/
def narrowCount (sS : Size) (r : CopyRect) : Int := ceildiv (r.rows * r.cols) (tile sS 1)

theorem narrowCount_describe {r : Rect} (hrows : r.rows < 2 ^ 31) :
    narrowCount sS r.describe = pieces (r.rows * r.cols) (tile sS 1) := by
  have htotal : (r.rows : Int) * (r.cols : Int) = (r.rows * r.cols : Nat) := by push_cast; rfl
  unfold narrowCount
  rw [describe_rows hrows]
  exact (congrArg (ceildiv · _) htotal).trans (ceildiv_natCast _ (tile_pos Nat.one_pos))

/-- Sums of counts. -/
theorem withTiles_le {count : CopyRect → Int} (fill : CopyRect → CopyRect) {rects : List CopyRect}
    {bound : Int} (hcount : ∀ r ∈ rects, count r ≤ bound) (t : Int) :
    (withTiles count fill t rects).2 ≤ t + rects.length * bound := by
  induction rects generalizing t with
  | nil => simp [withTiles]
  | cons r rects ih =>
      have hr := hcount r List.mem_cons_self
      have hrest := ih (fun q hq => hcount q (List.mem_cons_of_mem _ hq)) (t + count r)
      unfold withTiles
      dsimp only
      rw [List.length_cons]
      push_cast
      rw [Int.add_mul]
      omega

variable (sS sD) in
/-- What the narrow kernel moves. -/
theorem moved_narrow (h : Ready sS sD batch)
    (htotal : ∀ r ∈ batch, r.rows * r.cols < 2 ^ 31) (hlength : batch.length ≤ COPY_BATCH_CAP)
    {filled : List CopyRect × Int}
    (hfilled : filled = withTiles (narrowCount sS) id 0 (batch.map Rect.describe)) :
    filled.2 < 2 ^ 31 ∧
      moved sS sD (Launch.accesses sS sD ⟨.narrow filled.2, filled.1⟩) =
        (batch : Multiset Rect).bind fun r => whole sS sD r.describe := by
  have hcount : ∀ r ∈ batch.map Rect.describe, 0 ≤ narrowCount sS r := by
    intro rect hrect
    obtain ⟨r, hr, rfl⟩ := List.mem_map.mp hrect
    rw [narrowCount_describe (h.rows r hr).2]
    exact Int.natCast_nonneg _
  have hbound : ∀ r ∈ batch.map Rect.describe, narrowCount sS r ≤ 2 ^ 21 := by
    intro rect hrect
    obtain ⟨r, hr, rfl⟩ := List.mem_map.mp hrect
    rw [narrowCount_describe (h.rows r hr).2]
    have htile : 1024 ≤ tile sS 1 := le_tile Nat.one_pos
    have hlt := pieces_mul_lt (n := r.rows * r.cols) (show 0 < tile sS 1 by omega)
    have hr' := htotal r hr
    by_contra hlarge
    have hpieces : 2 ^ 21 + 1 ≤ pieces (r.rows * r.cols) (tile sS 1) := by omega
    have hmul := Nat.mul_le_mul_right (tile sS 1) hpieces
    omega
  have hfit : (withTiles (narrowCount sS) id 0 (batch.map Rect.describe)).2 < 2 ^ 31 := by
    have hle := withTiles_le id hbound 0
    rw [List.length_map, Int.zero_add] at hle
    have hcap : (batch.length : Int) ≤ 80 := by exact_mod_cast hlength
    omega
  subst hfilled
  refine ⟨hfit, ?_⟩
  unfold Launch.accesses
  dsimp only
  rw [show (fun t => (List.range COPY_BATCH_THREADS).flatMap (narrowAccesses sS sD
    (withTiles (narrowCount sS) id 0 (batch.map Rect.describe)).1 t)) =
    fun t => (List.range COPY_BATCH_THREADS).flatMap (tileAccesses (narrowBody sS sD)
    (withTiles (narrowCount sS) id 0 (batch.map Rect.describe)).1 t)
    from rfl, moved_tiles sS sD hcount (fun r x p lane => rfl) hfit, ← Multiset.map_coe,
    Multiset.bind_map]
  refine Multiset.bind_congr fun r hr => ?_
  rw [Multiset.mem_coe] at hr
  rw [narrowCount_describe (h.rows r hr).2, Int.toNat_natCast]
  exact moved_narrow_rect (describe_rows (h.rows r hr).2) (h.cols r hr) (h.rows r hr).1
    (htotal r hr)

end

end TorchMojoBackend.Kernels.BatchedCopy
