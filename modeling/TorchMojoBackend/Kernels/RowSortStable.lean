/-
  `Kernels.RowSortStable`: every route is the stable sort.

  The route and the padding fit the row: the launches use the shared memory of a tile,
  the workspace of their rows and the operand, and the first pairs that they leave are
  those of the stable sort of each row.  The calls take the rows in chunks.
-/
import TorchMojoBackend.Kernels.RowSortRoutes

set_option autoImplicit false

namespace TorchMojoBackend.Kernels.RowSort

open TorchMojoBackend.Foundation

universe u v w

/-! ## Routes -/

theorem tile_pow (wide : Bool) : ∃ a, TILE wide = 2 ^ a := by
  cases wide
  · exact ⟨12, rfl⟩
  · exact ⟨11, rfl⟩

theorem growPow2_spec {n : Nat} (fuel s : Nat) (h : n ≤ 2 ^ (s + fuel)) :
    ∃ S, growPow2 n fuel (2 ^ s) = 2 ^ S ∧ n ≤ 2 ^ S := by
  induction fuel generalizing s with
  | zero => exact ⟨s, rfl, h⟩
  | succ fuel ih =>
      unfold growPow2
      split
      · rw [Nat.shiftLeft_eq, Nat.pow_one, ← Nat.pow_succ]
        exact ih (s + 1) (by rwa [Nat.add_assoc, Nat.add_comm 1])
      · exact ⟨s, rfl, Nat.not_lt.mp ‹_›⟩

/-- The choices of a route. -/
theorem routePad_cases (wide topk : Bool) {n k a : Nat} (ha : TILE wide = 2 ^ a) (hn : 0 < n) :
    (∃ S, routePad wide topk n k = (0, 2 ^ S) ∧ n ≤ 2 ^ S ∧ 2 ^ S ≤ 2 ^ a) ∨
    (∃ tiles, routePad wide topk n k = (1, tiles * k) ∧ (n + 2 ^ a - 1) / 2 ^ a = tiles ∧
      n ≤ tiles * 2 ^ a ∧ 0 < tiles ∧ tiles * k ≤ 2 ^ a) ∨
    ∃ S, routePad wide topk n k = (2, 2 ^ S) ∧ n ≤ 2 ^ S ∧ a ≤ S := by
  have hpos : 0 < 2 ^ a := Nat.pow_pos (by decide)
  obtain ⟨S, hgrow, hS⟩ := @growPow2_spec n n 0 (by
    rw [Nat.zero_add]
    exact Nat.le_of_lt Nat.lt_two_pow_self)
  rw [Nat.pow_zero] at hgrow
  unfold routePad
  dsimp only
  rw [hgrow, ha]
  split
  · exact .inl ⟨S, rfl, hS, ‹_›⟩
  · split
    · rename_i hkeep
      exact .inr (.inl ⟨_, rfl, rfl, le_pieces_mul hpos, (lt_pieces_iff hpos).mpr (by omega),
        hkeep.2⟩)
    · rename_i hlarge _
      refine .inr (.inr ⟨S, rfl, hS, ?_⟩)
      by_contra hlt
      exact hlarge (Nat.pow_le_pow_right (by decide) (by omega))

/-! ## Accesses -/

/-- A launch uses its tile, the workspace of its rows and the operand. -/
def Launch.Sited (wide : Bool) (rows n pad : Nat) (l : Launch) : Prop :=
  (∀ p ∈ l.shared wide, p < TILE wide) ∧ (∀ p ∈ l.workspace wide rows, p < rows * pad) ∧
    ∀ p ∈ l.operand rows, p < rows * n

/-- The pairs of a step. -/
theorem pair_lt {m n p q : Nat} (hn : 2 * 2 ^ m ∣ n) (hp : p < n / 2)
    (hq : q ∈ [bitonicPartner p (2 ^ m), bitonicPartner p (2 ^ m) + 2 ^ m]) : q < n := by
  have hlt := (partner_lt_iff rfl hn).mpr hp
  obtain rfl | hq := List.mem_cons.mp hq
  · exact lt_of_le_of_lt (Nat.le_add_right _ _) hlt
  · rwa [List.mem_singleton.mp hq]

theorem two_mul_pow_dvd {m s : Nat} (hm : m < s) : 2 * 2 ^ m ∣ 2 ^ s := by
  rw [Nat.mul_comm, ← Nat.pow_succ]
  exact Nat.pow_dvd_pow 2 hm

theorem sortTile_sited {wide fromPairs dirGlobal : Bool} {rows n pad tiles inRowLen emit S : Nat}
    (hspan : 2 ^ S ≤ TILE wide) (hemit : emit ≤ TILE wide) (hfit : tiles * emit ≤ pad)
    (hin : inRowLen = if fromPairs then pad else n) :
    (Launch.sortTile fromPairs tiles inRowLen pad emit (2 ^ S) dirGlobal).Sited wide rows n pad := by
  have hthreads : 0 < SORT_THREADS := Nat.succ_pos 1023
  refine ⟨fun q hq => ?_, fun q hq => ?_, fun q hq => ?_⟩
  · obtain hq | hq := List.mem_append.mp hq
    · obtain hq | hq := List.mem_append.mp hq
      · exact lt_of_lt_of_le ((mem_gridItems hthreads).mp hq) hspan
      · obtain ⟨k, hk, hq⟩ := List.mem_flatMap.mp hq
        obtain ⟨j, hj, hq⟩ := List.mem_flatMap.mp hq
        obtain ⟨p, hp, hq⟩ := List.mem_flatMap.mp hq
        rw [show stages 2 (2 ^ S) = (List.range' 1 S).map (2 ^ ·) from stages_eq 1 S] at hk
        obtain ⟨s, hs, rfl⟩ := List.mem_map.mp hk
        rw [show steps 1 (2 ^ s / 2) = strides 0 s from steps_eq 0 s] at hj
        obtain ⟨m, -, hm, rfl⟩ := mem_strides.mp hj
        rw [List.mem_range'_1] at hs
        exact lt_of_lt_of_le (pair_lt (two_mul_pow_dvd (by omega))
          ((mem_gridItems hthreads).mp hp) hq) hspan
    · exact lt_of_lt_of_le ((mem_gridItems hthreads).mp hq) hemit
  · obtain ⟨row, hrow, hq⟩ := List.mem_flatMap.mp hq
    obtain ⟨tile, htile, hq⟩ := List.mem_flatMap.mp hq
    rw [List.mem_range] at hrow htile
    obtain hq | hq := List.mem_append.mp hq
    · split at hq
      · rename_i hfrom
        rw [if_pos hfrom] at hin
        obtain ⟨i, hi, rfl⟩ := List.mem_map.mp hq
        rw [hin] at hi ⊢
        exact row_major_lt hrow (of_decide_eq_true (List.mem_filter.mp hi).2)
      · exact absurd hq List.not_mem_nil
    · obtain ⟨store, hstore, rfl⟩ := List.mem_map.mp hq
      rw [Nat.add_assoc]
      exact row_major_lt hrow
        ((row_major_lt htile ((mem_gridItems hthreads).mp hstore)).trans_le hfit)
  · cases fromPairs
    · obtain ⟨row, hrow, hq⟩ := List.mem_flatMap.mp hq
      obtain ⟨tile, htile, hq⟩ := List.mem_flatMap.mp hq
      obtain ⟨i, hi, rfl⟩ := List.mem_map.mp hq
      have hin : inRowLen = n := hin
      rw [hin] at hi ⊢
      exact row_major_lt (List.mem_range.mp hrow) (of_decide_eq_true (List.mem_filter.mp hi).2)
    · exact absurd hq List.not_mem_nil

theorem bitonicStep_sited {wide : Bool} {rows n pad blocks m k : Nat} (hblocks : 0 < blocks)
    (hpad : 2 * 2 ^ m ∣ pad) : (Launch.bitonicStep blocks pad (2 ^ m) k).Sited wide rows n pad := by
  refine ⟨fun q hq => absurd hq List.not_mem_nil, fun q hq => ?_,
    fun q hq => absurd hq List.not_mem_nil⟩
  obtain ⟨row, hrow, hq⟩ := List.mem_flatMap.mp hq
  obtain ⟨p, hp, hq⟩ := List.mem_flatMap.mp hq
  have hp := (mem_gridItems (Nat.mul_pos hblocks (Nat.succ_pos 1023))).mp hp
  have hlt := fun q => @pair_lt m pad p q hpad hp
  rw [List.mem_cons, List.mem_singleton] at hq
  obtain rfl | rfl := hq
  · exact row_major_lt (List.mem_range.mp hrow) (hlt _ (by simp))
  · exact row_major_lt (List.mem_range.mp hrow) (hlt _ (by simp))

theorem mergeLocal_sited {wide : Bool} {rows n pad tiles k a : Nat} (ha : TILE wide = 2 ^ a)
    (hpad : tiles * 2 ^ a = pad) : (Launch.mergeLocal tiles pad k).Sited wide rows n pad := by
  have hthreads : 0 < SORT_THREADS := Nat.succ_pos 1023
  refine ⟨fun q hq => ?_, fun q hq => ?_, fun q hq => absurd hq List.not_mem_nil⟩
  · obtain hq | hq := List.mem_append.mp hq
    · exact (mem_gridItems hthreads).mp hq
    · obtain ⟨j, hj, hq⟩ := List.mem_flatMap.mp hq
      obtain ⟨p, hp, hq⟩ := List.mem_flatMap.mp hq
      rw [ha, show steps 1 (2 ^ a / 2) = strides 0 a from steps_eq 0 a] at hj
      obtain ⟨m, -, hm, rfl⟩ := mem_strides.mp hj
      exact pair_lt (ha ▸ two_mul_pow_dvd hm) ((mem_gridItems hthreads).mp hp) hq
  · obtain ⟨row, hrow, hq⟩ := List.mem_flatMap.mp hq
    obtain ⟨tile, htile, hq⟩ := List.mem_flatMap.mp hq
    obtain ⟨i, hi, rfl⟩ := List.mem_map.mp hq
    rw [Nat.add_assoc]
    refine row_major_lt (List.mem_range.mp hrow) (hpad ▸ ?_)
    have hi := (mem_gridItems hthreads).mp hi
    rw [ha] at hi ⊢
    exact row_major_lt (List.mem_range.mp htile) hi

/-! ## Plans -/

section
variable {K : Type u} [LinearOrder K] [BoundedOrder K] {n k : Nat}

/-- What a plan uses and leaves, whatever the number of rows. -/
structure PlanFits (wide : Bool) (n k pad : Nat) (plan : List Launch) : Prop where
  keeps : k ≤ pad
  sited : ∀ rows, ∀ l ∈ plan, l.Sited wide rows n pad
  sorted : ∀ {K : Type u} [LinearOrder K] [BoundedOrder K] {descending : Bool} {rows : Nat}
    {keys : Nat → K} {ws ws' : Nat → Pair K},
    RunLaunches wide descending rows keys plan ws ws' →
    ∀ row, row < rows → RowSorted descending keys n k pad ws' row

theorem plan_fits (wide topk : Bool) (hk : 0 < k) (hkn : k ≤ n) (hn : n ≤ SORT_MAX_ROW) :
    ∃ plan, sortPairsGpu wide n k (routePad wide topk n k).2 (routePad wide topk n k).1 = some plan ∧
      PlanFits.{u} wide n k (routePad wide topk n k).2 plan := by
  obtain ⟨a, ha⟩ := tile_pow wide
  have hpos : 0 < 2 ^ a := Nat.pow_pos (by decide)
  obtain ⟨S, hroute, hS, hfit⟩ | ⟨tiles, hroute, hcount, hcover, htiles, hfit⟩ |
    ⟨S, hroute, hS, hlarge⟩ := routePad_cases wide topk ha (hk.trans_le hkn)
  · rw [hroute]
    refine ⟨_, (if_pos rfl).trans (if_neg (by rw [ha]; omega)), hkn.trans hS, fun rows l hl => ?_,
      fun {K _ _ descending _ _ _ _} h row hrow => ?_⟩
    · rw [List.mem_singleton.mp hl]
      exact sortTile_sited (by rwa [ha]) (by rwa [ha]) (by omega) rfl
    · obtain ⟨L, hL, rank, hrank⟩ := @exists_rank K _ descending
      exact tile_sorted hrank hn hS hkn h hrow
  · rw [hroute]
    have hfew : k ≤ tiles * k := Nat.le_mul_of_pos_left k htiles
    have hclog : nextPowerOfTwo (tiles * k) ≤ 2 ^ a :=
      Nat.pow_le_pow_right (by decide) (Nat.clog_le_of_le_pow hfit)
    have hspan : tiles * k ≤ nextPowerOfTwo (tiles * k) := Nat.le_pow_clog (by decide) _
    have hplan : sortPairsGpu wide n k (tiles * k) 1 =
        some [.sortTile false tiles n (tiles * k) k (2 ^ a) false,
          .sortTile true 1 (tiles * k) (tiles * k) k (2 ^ Nat.clog 2 (tiles * k)) false] := by
      unfold sortPairsGpu
      rw [if_neg Nat.one_ne_zero, if_pos rfl]
      dsimp only
      rw [ha, hcount, if_neg (by omega)]
      rfl
    refine ⟨_, hplan, hfew, fun rows l hl => ?_, fun {K _ _ descending _ _ _ _} h row hrow => ?_⟩
    · rw [List.mem_cons, List.mem_singleton] at hl
      obtain rfl | rfl := hl
      · exact sortTile_sited (by rw [ha]) (by rw [ha]; omega) (Nat.le_refl _) rfl
      · exact sortTile_sited (by rw [ha]; exact hclog) (by rw [ha]; omega) (by omega) rfl
    · obtain ⟨L, hL, rank, hrank⟩ := @exists_rank K _ descending
      exact tournament_sorted hrank hn hkn hcover (hfew.trans hfit) htiles hspan h hrow
  · rw [hroute]
    have hwidth : 2 ^ S / 2 ^ a * 2 ^ a = 2 ^ S := Nat.div_mul_cancel (Nat.pow_dvd_pow 2 hlarge)
    have hblocks : 0 < max 1 (min ((2 ^ S / 2 + SORT_THREADS - 1) / SORT_THREADS) 1024) := by omega
    have hplan : sortPairsGpu wide n k (2 ^ S) 2 =
        some (.sortTile false (2 ^ S / 2 ^ a) n (2 ^ S) (2 ^ a) (2 ^ a) true ::
          (stages (TILE wide * 2) (2 ^ S)).flatMap fun k =>
            (steps (TILE wide) (k / 2)).map (fun j => .bitonicStep
              (max 1 (min ((2 ^ S / 2 + SORT_THREADS - 1) / SORT_THREADS) 1024)) (2 ^ S) j k) ++
              [.mergeLocal (2 ^ S / 2 ^ a) (2 ^ S) k]) := by
      unfold sortPairsGpu
      rw [if_neg (by decide), if_neg (by decide), if_pos rfl]
      dsimp only
      rw [ha]
    refine ⟨_, hplan, hkn.trans hS, fun rows l hl => ?_,
      fun {K _ _ descending _ _ _ _} h row hrow => ?_⟩
    · obtain rfl | hl := List.mem_cons.mp hl
      · exact sortTile_sited (by rw [ha]) (by rw [ha]) (Nat.le_of_eq hwidth) rfl
      · obtain ⟨q, hq, hl⟩ := List.mem_flatMap.mp hl
        rw [ha, show 2 ^ a * 2 = 2 ^ (a + 1) from rfl, stages_eq] at hq
        obtain ⟨s, hs, rfl⟩ := List.mem_map.mp hq
        rw [List.mem_range'_1] at hs
        obtain hl | hl := List.mem_append.mp hl
        · obtain ⟨j, hj, rfl⟩ := List.mem_map.mp hl
          rw [ha, steps_eq] at hj
          obtain ⟨m, -, hm, rfl⟩ := mem_strides.mp hj
          exact bitonicStep_sited hblocks (two_mul_pow_dvd (by omega))
        · rw [List.mem_singleton.mp hl]
          exact mergeLocal_sited ha hwidth
    · obtain ⟨L, hL, rank, hrank⟩ := @exists_rank K _ descending
      exact sort_sorted hrank hn ha hlarge hS hkn hblocks h hrow

theorem runLaunches_exists (wide descending : Bool) (rows : Nat) (keys : Nat → K)
    (plan : List Launch) (ws : Nat → Pair K) :
    ∃ ws', RunLaunches wide descending rows keys plan ws ws' := by
  induction plan generalizing ws with
  | nil => exact ⟨ws, rfl⟩
  | cons l plan ih =>
      obtain ⟨ws', h⟩ := ih (storeAll (l.writes wide descending rows keys ws ws) ws)
      exact ⟨ws', ws, _, Stores.inOrder _ _, h⟩

end

/-! ## Results -/

section
variable {K : Type u} [LinearOrder K] [BoundedOrder K] {α : Type w}
  {wide descending topk : Bool} {n k : Nat}

/-- The values and indices of a row are those of its stable sort. -/
def RowAnswers (descending : Bool) (sortKey : α → K) (vals : Nat → α) (n k : Nat) (out : Out α)
    (row : Nat) : Prop :=
  (List.range k).map (fun i => out.indices (row * k + i)) =
      (stableOrder descending (fun i => sortKey (vals (row * n + i))) n).take k ∧
    (List.range k).map (fun i => out.values (row * k + i)) =
      ((stableOrder descending (fun i => sortKey (vals (row * n + i))) n).take k).map fun i =>
        vals (row * n + i)

omit [LinearOrder K] [BoundedOrder K] in
/-- The stores of a gather. -/
theorem gathers_writesOf {V : Type v} (rows n pad k outAt : Nat) (ws : Nat → Pair K)
    (f : Nat × Nat × Nat → V) :
    WritesOf (fun x : Nat × Nat => x.1 < rows ∧ x.2 < k) (fun x => outAt + (x.1 * k + x.2))
      (fun x => f (x.1 * k + x.2, x.1 * n + (ws (x.1 * pad + x.2)).2, (ws (x.1 * pad + x.2)).2))
      ((gathers rows n pad k ws).map fun g => (outAt + g.1, f g)) := by
  have hblocks : 0 < gsBlocks k * GS_THREADS :=
    Nat.mul_pos (by unfold gsBlocks; omega) (Nat.succ_pos 255)
  refine ⟨fun e he => ?_, fun x hx => ?_⟩
  · obtain ⟨g, hg, rfl⟩ := List.mem_map.mp he
    obtain ⟨r, hr, hg⟩ := List.mem_flatMap.mp hg
    obtain ⟨j, hj, rfl⟩ := List.mem_map.mp hg
    exact ⟨(r, j), ⟨List.mem_range.mp hr, (mem_gridItems hblocks).mp hj⟩, rfl⟩
  · exact List.mem_map.mpr ⟨_, List.mem_flatMap.mpr ⟨x.1, List.mem_range.mpr hx.1,
      List.mem_map.mpr ⟨x.2, (mem_gridItems hblocks).mpr hx.2, rfl⟩⟩, rfl⟩

variable {rows pad outAt : Nat} {vals : Nat → α} {ws : Nat → Pair K} {out out' : Out α}

omit [LinearOrder K] [BoundedOrder K] in
theorem Gather.at (h : Gather rows n pad k outAt vals ws out out') {row i : Nat}
    (hrow : row < rows) (hi : i < k) :
    out'.values (outAt + (row * k + i)) = vals (row * n + (ws (row * pad + i)).2) ∧
      out'.indices (outAt + (row * k + i)) = (ws (row * pad + i)).2 := by
  have hinj : ∀ x y : Nat × Nat, x.1 < rows ∧ x.2 < k → y.1 < rows ∧ y.2 < k →
      outAt + (x.1 * k + x.2) = outAt + (y.1 * k + y.2) → x = y := fun x y hx hy heq =>
    Prod.ext_iff.mpr (flat_inj hx.2 hy.2 (Nat.add_left_cancel heq))
  exact ⟨h.values.writesOf (gathers_writesOf rows n pad k outAt ws fun g => vals g.2.1) hinj
      (x := (row, i)) ⟨hrow, hi⟩,
    h.indices.writesOf (gathers_writesOf rows n pad k outAt ws fun g => g.2.2) hinj
      (x := (row, i)) ⟨hrow, hi⟩⟩

omit [LinearOrder K] [BoundedOrder K] in
theorem Gather.off (h : Gather rows n pad k outAt vals ws out out') {a : Nat} (ha : a < outAt) :
    out'.values a = out.values a ∧ out'.indices a = out.indices a := by
  have hnone : ∀ g ∈ gathers rows n pad k ws, outAt + g.1 ≠ a := fun g _ heq => by omega
  exact ⟨h.values.map_off hnone, h.indices.map_off hnone⟩

/-- A call answers for its rows. -/
theorem call_answers {sortKey : α → K} {plan : List Launch} {r r0 : Nat} {ws' : Nat → Pair K}
    (hfits : PlanFits.{u} wide n k pad plan)
    (hrun : RunLaunches wide descending r (fun p => sortKey (vals (r0 * n + p))) plan ws ws')
    (hgather : Gather r n pad k (r0 * k) (fun p => vals (r0 * n + p)) ws' out out') {row : Nat}
    (hle : r0 ≤ row) (hlt : row < r0 + r) : RowAnswers descending sortKey vals n k out' row := by
  obtain ⟨d, rfl⟩ := Nat.exists_eq_add_of_le hle
  have hd : d < r := by omega
  have haddr : ∀ w i, r0 * w + (d * w + i) = (r0 + d) * w + i := fun w i => by ring
  have hsorted := hfits.sorted hrun d hd
  have hat := fun i hi => @Gather.at _ _ _ _ _ _ _ _ _ _ _ hgather d i hd hi
  unfold RowSorted at hsorted
  simp only [haddr] at hsorted hat
  -- the indices of the pairs
  have hidx := congrArg (List.map Prod.snd) hsorted
  rw [List.map_map, List.map_map] at hidx
  have hid : (Prod.snd ∘ fun i => (sortKey (vals ((r0 + d) * n + i)), i)) = id := rfl
  rw [hid, List.map_id] at hidx
  constructor
  · rw [← hidx]
    exact List.map_congr_left fun i hi => (hat i (List.mem_range.mp hi)).2
  · rw [← hidx, List.map_map]
    exact List.map_congr_left fun i hi => (hat i (List.mem_range.mp hi)).1

/-- The calls for the rows from `r0` on. -/
theorem sortCalls_answers {sortKey : α → K} {chunk fuel r0 : Nat} (hk : 0 < k) (hkn : k ≤ n)
    (hn : n ≤ SORT_MAX_ROW) (hchunk : chunk = min rows SORT_MAX_GRID_ROWS) (hpos : 0 < chunk)
    (hfuel : rows ≤ r0 + fuel)
    (h : SortCalls wide descending topk sortKey vals rows n k (strided rows chunk fuel r0) ws out
      out') :
    (∀ row, r0 ≤ row → row < rows → RowAnswers descending sortKey vals n k out' row) ∧
      ∀ a, a < r0 * k → out'.values a = out.values a ∧ out'.indices a = out.indices a := by
  induction fuel generalizing r0 ws out with
  | zero =>
      obtain rfl : out' = out := h
      exact ⟨fun row hle hlt => absurd hlt (by omega), fun a _ => ⟨rfl, rfl⟩⟩
  | succ fuel ih =>
      unfold strided at h
      split at h
      · obtain ⟨plan, ws', mid, hplan, hrun, hgather, hrest⟩ := h
        obtain ⟨plan', hplan', hfits⟩ := plan_fits.{u} wide topk hk hkn hn
        obtain rfl := Option.some.inj (hplan.symm.trans hplan')
        obtain ⟨hanswers, hframe⟩ := ih (by omega) hrest
        have hnext : (r0 + chunk) * k = r0 * k + chunk * k := Nat.add_mul _ _ _
        refine ⟨fun row hle hlt => ?_, fun a ha => ?_⟩
        · by_cases hlater : r0 + chunk ≤ row
          · exact hanswers row hlater hlt
          · have hrow := call_answers hfits hrun hgather hle (by omega)
            have hsame : ∀ i, i < k → mid.indices (row * k + i) = out'.indices (row * k + i) ∧
                mid.values (row * k + i) = out'.values (row * k + i) := fun i hi => by
              obtain ⟨hv, hi⟩ := hframe (row * k + i) (by
                have hmul := row_major_lt (show row < r0 + chunk by omega) hi
                omega)
              exact ⟨hi.symm, hv.symm⟩
            refine ⟨?_, ?_⟩
            · rw [← hrow.1]
              exact List.map_congr_left fun i hi => (hsame i (List.mem_range.mp hi)).1.symm
            · rw [← hrow.2]
              exact List.map_congr_left fun i hi => (hsame i (List.mem_range.mp hi)).2.symm
        · obtain ⟨hv, hi⟩ := hframe a (by omega)
          obtain ⟨hv', hi'⟩ := hgather.off ha
          exact ⟨hv.trans hv', hi.trans hi'⟩
      · obtain rfl : out' = out := h
        exact ⟨fun row hle hlt => absurd hlt (by omega), fun a _ => ⟨rfl, rfl⟩⟩

omit [LinearOrder K] [BoundedOrder K] in
theorem gather_exists (rows n pad k outAt : Nat) (vals : Nat → α) (ws : Nat → Pair K) (out : Out α) :
    ∃ out', Gather rows n pad k outAt vals ws out out' :=
  ⟨⟨_, _⟩, Stores.inOrder _ _, Stores.inOrder _ _⟩

theorem sortCalls_exists (wide descending topk : Bool) (sortKey : α → K) (vals : Nat → α)
    (rows : Nat) (hk : 0 < k) (hkn : k ≤ n) (hn : n ≤ SORT_MAX_ROW) (calls : List Nat)
    (ws : Nat → Pair K) (out : Out α) :
    ∃ out', SortCalls wide descending topk sortKey vals rows n k calls ws out out' := by
  induction calls generalizing ws out with
  | nil => exact ⟨out, rfl⟩
  | cons r0 calls ih =>
      obtain ⟨plan, hplan, -⟩ := plan_fits.{u} wide topk hk hkn hn
      obtain ⟨ws', hrun⟩ := runLaunches_exists wide descending
        (min (min rows SORT_MAX_GRID_ROWS) (rows - r0)) (fun p => sortKey (vals (r0 * n + p))) plan ws
      obtain ⟨mid, hgather⟩ := gather_exists (min (min rows SORT_MAX_GRID_ROWS) (rows - r0)) n
        (routePad wide topk n k).2 k (r0 * k) (fun p => vals (r0 * n + p)) ws' out
      obtain ⟨out', hrest⟩ := ih ws' mid
      exact ⟨out', plan, ws', mid, hplan, hrun, hgather, hrest⟩

theorem sortRowsInto_answers {sortKey : α → K} (hk : 0 < k) (hkn : k ≤ n) (hn : n ≤ SORT_MAX_ROW)
    (h : SortRowsInto wide descending topk sortKey vals rows n k ws out out') {row : Nat}
    (hrow : row < rows) : RowAnswers descending sortKey vals n k out' row :=
  have hmax : 0 < SORT_MAX_GRID_ROWS := Nat.succ_pos 65534
  (sortCalls_answers hk hkn hn rfl (by omega) (Nat.le_add_left _ _) h).1 row (Nat.zero_le row) hrow

omit [BoundedOrder K] in
/-- A pair of a sorted row is one of the row. -/
theorem RowSorted.position_lt {keys : Nat → K} {row : Nat}
    (h : RowSorted descending keys n k pad ws row) {i : Nat} (hi : i < k) :
    (ws (row * pad + i)).2 < n := by
  have hmem : ws (row * pad + i) ∈ (List.range k).map fun i => ws (row * pad + i) :=
    List.mem_map.mpr ⟨i, List.mem_range.mpr hi, rfl⟩
  rw [h] at hmem
  obtain ⟨j, hj, heq⟩ := List.mem_map.mp hmem
  rw [← heq]
  exact List.mem_range.mp ((stableOrder_perm _ _ n).mem_iff.mp (List.mem_of_mem_take hj))

/-- Every route leaves the first pairs of the stable sort of each row, uses no memory but its own,
and a selection is the beginning of a sort. -/
theorem sort_stable (wide descending topk : Bool) (sortKey : α → K) (vals : Nat → α) (rows : Nat)
    (ws : Nat → Pair K) (out : Out α) (hk : 0 < k) (hkn : k ≤ n) (hn : n ≤ SORT_MAX_ROW) :
    (∃ plan, sortPairsGpu wide n k (routePad wide topk n k).2 (routePad wide topk n k).1 = some plan ∧
      k ≤ (routePad wide topk n k).2 ∧
      (∀ r, ∀ l ∈ plan, l.Sited wide r n (routePad wide topk n k).2) ∧
      ∀ (r : Nat) (keys : Nat → K) (ws ws' : Nat → Pair K), RunLaunches wide descending r keys plan ws ws' → ∀ row, row < r →
        RowSorted descending keys n k (routePad wide topk n k).2 ws' row ∧
        ∀ i, i < k → (ws' (row * (routePad wide topk n k).2 + i)).2 < n) ∧
    (∃ out', SortRowsInto wide descending topk sortKey vals rows n k ws out out') ∧
    (∀ out', SortRowsInto wide descending topk sortKey vals rows n k ws out out' →
      ∀ row, row < rows → RowAnswers descending sortKey vals n k out' row) ∧
    ∀ ws' out₁ out₁' out₂ out₂', SortRowsInto wide descending true sortKey vals rows n k ws out₁ out₁' →
      SortRowsInto wide descending false sortKey vals rows n n ws' out₂ out₂' →
      ∀ row, row < rows →
        (List.range k).map (fun i => out₁'.indices (row * k + i)) =
          (List.range k).map (fun i => out₂'.indices (row * n + i)) ∧
        (List.range k).map (fun i => out₁'.values (row * k + i)) =
          (List.range k).map fun i => out₂'.values (row * n + i) := by
  refine ⟨?_, sortCalls_exists wide descending topk sortKey vals rows hk hkn hn _ ws out,
    fun out' h row => sortRowsInto_answers hk hkn hn h, fun ws' out₁ out₁' out₂ out₂' h₁ h₂ row hrow => ?_⟩
  · obtain ⟨plan, hplan, hfits⟩ := plan_fits.{u} wide topk hk hkn hn
    refine ⟨plan, hplan, hfits.keeps, hfits.sited, fun r keys ws ws' hrun row hrow => ?_⟩
    have hsorted := hfits.sorted hrun row hrow
    exact ⟨hsorted, fun i hi => hsorted.position_lt hi⟩
  · obtain ⟨hidx, hval⟩ := sortRowsInto_answers hk hkn hn h₁ hrow
    obtain ⟨hidx', hval'⟩ := sortRowsInto_answers (hk.trans_le hkn) (Nat.le_refl n) hn h₂ hrow
    have hlen := (stableOrder_perm descending (fun i => sortKey (vals (row * n + i))) n).length_eq
    rw [List.length_range] at hlen
    rw [List.take_of_length_le (Nat.le_of_eq hlen)] at hidx' hval'
    have htake : (List.range n).take k = List.range k := by
      rw [List.take_range, Nat.min_eq_left hkn]
    constructor
    · rw [hidx, ← hidx', ← List.map_take, htake]
    · rw [hval, List.map_take, ← hval', ← List.map_take, htake]

end

/-- The two largest of three bytes, two of them equal. -/
theorem sort_stable_two_of_three :
    ∃ out' : Out (Fin 256), SortRowsInto false true true id
        (fun i => ([5, 9, 9] : List (Fin 256)).getD i 0) 1 3 2 (fun _ => (0, 0))
        ⟨fun _ => 0, fun _ => 0⟩ out' ∧
      RowAnswers true id (fun i => ([5, 9, 9] : List (Fin 256)).getD i 0) 3 2 out' 0 := by
  obtain ⟨-, ⟨out', hrun⟩, hanswers, -⟩ := sort_stable false true true id
    (fun i => ([5, 9, 9] : List (Fin 256)).getD i 0) 1 (fun _ => (0, 0)) ⟨fun _ => 0, fun _ => 0⟩
    (show 0 < 2 by decide) (show 2 ≤ 3 by decide) (show 3 ≤ SORT_MAX_ROW by unfold SORT_MAX_ROW; omega)
  exact ⟨out', hrun, hanswers out' hrun 0 Nat.one_pos⟩

end TorchMojoBackend.Kernels.RowSort
