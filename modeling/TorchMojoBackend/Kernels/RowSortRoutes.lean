/-
  `Kernels.RowSortRoutes`: what the launches of a route leave.

  One tile is the network over the padded row.  The first pairs of the tiles stand for
  the tiles, so the network over what a selection kept has those of the row first.  The
  tiles of a full sort and its steps between and inside tiles are the network over the
  padded row once more.
-/
import TorchMojoBackend.Kernels.RowSortOrder

set_option autoImplicit false

namespace TorchMojoBackend.Kernels.RowSort

open TorchMojoBackend.Foundation

universe u v

section
variable {K : Type u} [LinearOrder K] [BoundedOrder K] {wide descending : Bool} {rows : Nat}
  {keys : Nat → K} {smem ws ws' : Nat → Pair K}

/-! ## A launch of tiles -/

/-- What a tile loads at a position of a row. -/
def tileLoad (descending fromPairs : Bool) (keys : Nat → K) (ws : Nat → Pair K)
    (inRowLen row pos : Nat) : Pair K :=
  if pos < inRowLen then
    if fromPairs then ws (row * inRowLen + pos) else (keys (row * inRowLen + pos), pos)
  else sentinel descending

theorem sortTile_at {fromPairs dirGlobal : Bool} {tiles inRowLen outRowLen emit S : Nat}
    (h : Stores (Launch.writes wide descending rows keys smem ws
      (.sortTile fromPairs tiles inRowLen outRowLen emit (2 ^ S) dirGlobal)) ws ws')
    (hemit : emit ≤ 2 ^ S) (hfit : tiles * emit ≤ outRowLen) {row tile i start : Nat}
    (hrow : row < rows) (htile : tile < tiles) (hi : i < emit)
    (hstart : start = if dirGlobal then tile * 2 ^ S else 0) {X : Nat → Pair K}
    (hX : ∀ t, t < 2 ^ S →
      tileLoad descending fromPairs keys ws inRowLen row (tile * 2 ^ S + t) = X (start + t)) :
    ws' (row * outRowLen + (tile * emit + i)) = network descending S X (start + i) := by
  have hthreads : 0 < SORT_THREADS := Nat.succ_pos 1023
  have hlast : ∀ c j, c < tiles → j < emit → c * emit + j < outRowLen :=
    fun c j hc hj => (row_major_lt hc hj).trans_le hfit
  have hwrites : WritesOf
      (fun x : Nat × Nat × Nat => x.1 < rows ∧ x.2.1 < tiles ∧ x.2.2 < emit)
      (fun x => x.1 * outRowLen + (x.2.1 * emit + x.2.2))
      (fun x => sortedTile descending (2 ^ S) (if dirGlobal then x.2.1 * 2 ^ S else 0)
        (storeAll ((gridItems SORT_THREADS (2 ^ S)).map fun load =>
          (load, tileLoad descending fromPairs keys ws inRowLen x.1 (x.2.1 * 2 ^ S + load))) smem)
        x.2.2)
      (Launch.writes wide descending rows keys smem ws
        (.sortTile fromPairs tiles inRowLen outRowLen emit (2 ^ S) dirGlobal)) := by
    refine ⟨fun w hw => ?_, fun x hx => ?_⟩
    · obtain ⟨r, hr, hw⟩ := List.mem_flatMap.mp hw
      obtain ⟨c, hc, hw⟩ := List.mem_flatMap.mp hw
      obtain ⟨j, hj, rfl⟩ := List.mem_map.mp hw
      refine ⟨(r, c, j), ⟨List.mem_range.mp hr, List.mem_range.mp hc,
        (mem_gridItems hthreads).mp hj⟩, Prod.ext (Nat.add_assoc _ _ _) rfl⟩
    · refine List.mem_flatMap.mpr ⟨x.1, List.mem_range.mpr hx.1, List.mem_flatMap.mpr
        ⟨x.2.1, List.mem_range.mpr hx.2.1, List.mem_map.mpr
          ⟨x.2.2, (mem_gridItems hthreads).mpr hx.2.2, Prod.ext (Nat.add_assoc _ _ _) rfl⟩⟩⟩
  have hat := h.writesOf hwrites (x := (row, tile, i)) (fun x y hx hy heq => ?_) ⟨hrow, htile, hi⟩
  · dsimp only at hat
    rw [hat, ← hstart]
    have hdvd : 2 ^ S ∣ start := by
      rw [hstart]
      split
      · exact Nat.dvd_mul_left _ _
      · exact Nat.dvd_zero _
    refine sortedTile_at hdvd (fun t ht => ?_) (by omega)
    rw [storeAll_items _ smem ((mem_gridItems hthreads).mpr ht)]
    exact hX t ht
  · obtain ⟨hrows, hrest⟩ := flat_inj (hlast _ _ hx.2.1 hx.2.2) (hlast _ _ hy.2.1 hy.2.2) heq
    obtain ⟨htiles, hstores⟩ := flat_inj hx.2.2 hy.2.2 hrest
    exact Prod.ext hrows (Prod.ext htiles hstores)

/-! ## One tile -/

/-- The first `k` pairs of a row in the workspace are those of its stable sort. -/
def RowSorted (descending : Bool) (keys : Nat → K) (n k pad : Nat) (ws : Nat → Pair K)
    (row : Nat) : Prop :=
  (List.range k).map (fun i => ws (row * pad + i)) =
    ((stableOrder descending (fun i => keys (row * n + i)) n).take k).map fun i =>
      (keys (row * n + i), i)

variable {L : Type v} [LinearOrder L] {rank : Pair K → L} {n k : Nat}

/-- The network over a padded row. -/
theorem network_stable (hrank : RanksPairs descending rank) (key : Nat → K) {S : Nat}
    (hmax : n ≤ SENTINEL_IDX) (hn : n ≤ 2 ^ S) (hk : k ≤ n) :
    (List.range k).map (network descending S (padded descending key n)) =
      ((stableOrder descending key n).take k).map fun i => (key i, i) := by
  have hleast := network_least hrank (padded descending key n) (hk.trans hn)
  rw [map_padded key hn] at hleast
  exact eq_stableOrder hrank hmax hk hleast

theorem tile_sorted (hrank : RanksPairs descending rank) (hmax : n ≤ SENTINEL_IDX) {S : Nat}
    (hn : n ≤ 2 ^ S) (hk : k ≤ n)
    (h : RunLaunches wide descending rows keys
      [.sortTile false 1 n (2 ^ S) (2 ^ S) (2 ^ S) false] ws ws') {row : Nat} (hrow : row < rows) :
    RowSorted descending keys n k (2 ^ S) ws' row := by
  obtain ⟨smem, mid, hstores, rfl⟩ := h
  unfold RowSorted
  rw [← network_stable hrank (fun i => keys (row * n + i)) hmax hn hk]
  refine List.map_congr_left fun i hi => ?_
  have hat := sortTile_at (X := padded descending (fun i => keys (row * n + i)) n) (i := i) hstores
    (Nat.le_refl _) (by omega) hrow Nat.one_pos
    (by rw [List.mem_range] at hi; omega) rfl (fun t _ => ?_)
  · simpa only [Nat.zero_mul, Nat.zero_add, if_false, Bool.false_eq_true] using hat
  · unfold tileLoad padded
    simp only [Nat.zero_mul, Nat.zero_add, if_false, Bool.false_eq_true]

/-! ## A selection -/

/-- The network over the first pairs of the tiles of a padded row. -/
theorem tournament_stable (hrank : RanksPairs descending rank) (key : Nat → K) {a S tiles : Nat}
    (hmax : n ≤ SENTINEL_IDX) (hk : k ≤ n) (hn : n ≤ tiles * 2 ^ a) (hkeep : k ≤ 2 ^ a)
    (hfew : k ≤ tiles * k) (hspan : tiles * k ≤ 2 ^ S) {w : Nat → Pair K}
    (hkept : ∀ c, c < tiles → ∀ i, i < k → w (c * k + i) =
      network descending a (fun t => padded descending key n (c * 2 ^ a + t)) i) :
    (List.range k).map (network descending S fun i =>
        if i < tiles * k then w i else sentinel descending) =
      ((stableOrder descending key n).take k).map fun i => (key i, i) := by
  have hleast := network_least hrank (fun i =>
    if i < tiles * k then w i else sentinel descending) (hfew.trans hspan)
  simp only [apply_ite rank] at hleast
  rw [map_range_pad (fun i => rank (w i)) _ hspan, ← Multiset.coe_add,
    coe_map_range_mul] at hleast
  -- the first pairs stand for their tiles, and the tiles are the padded row
  have hparts := Least.parts (p := fun c => (((List.range (2 ^ a)).map fun t =>
    rank (padded descending key n (c * 2 ^ a + t)) : List L) : Multiset L)) tiles
    (fun c hc => ⟨?_, ?_⟩) hleast
  · rw [← coe_map_range_mul (fun i => rank (padded descending key n i)), map_padded key hn,
      Multiset.coe_add, List.append_assoc, List.replicate_append_replicate] at hparts
    exact eq_stableOrder hrank hmax hk hparts
  · have hfirst : ((List.range k).map fun i => rank (w (c * k + i))) =
        (List.range k).map fun i => rank (network descending a
          (fun t => padded descending key n (c * 2 ^ a + t)) i) :=
      List.map_congr_left fun i hi => congrArg rank (hkept c hc i (List.mem_range.mp hi))
    rw [hfirst]
    exact network_least hrank _ hkeep
  · rw [List.length_map, List.length_map]

theorem tournament_sorted (hrank : RanksPairs descending rank) (hmax : n ≤ SENTINEL_IDX)
    {a S tiles : Nat} (hk : k ≤ n) (hn : n ≤ tiles * 2 ^ a) (hkeep : k ≤ 2 ^ a)
    (htiles : 0 < tiles) (hspan : tiles * k ≤ 2 ^ S)
    (h : RunLaunches wide descending rows keys
      [.sortTile false tiles n (tiles * k) k (2 ^ a) false,
        .sortTile true 1 (tiles * k) (tiles * k) k (2 ^ S) false] ws ws') {row : Nat}
    (hrow : row < rows) : RowSorted descending keys n k (tiles * k) ws' row := by
  obtain ⟨smem, mid, hfirst, smem', last, hsecond, rfl⟩ := h
  have hfew : k ≤ tiles * k := Nat.le_mul_of_pos_left k htiles
  have hkept : ∀ c, c < tiles → ∀ i, i < k → mid (row * (tiles * k) + (c * k + i)) =
      network descending a
        (fun t => padded descending (fun i => keys (row * n + i)) n (c * 2 ^ a + t)) i := by
    intro c hc i hi
    have hat := sortTile_at (i := i)
      (X := fun t => padded descending (fun i => keys (row * n + i)) n (c * 2 ^ a + t)) hfirst hkeep
      (Nat.le_refl _) hrow hc hi rfl (fun t _ => ?_)
    · simpa only [Nat.zero_add, if_false, Bool.false_eq_true] using hat
    · unfold tileLoad padded
      simp only [Nat.zero_add, if_false, Bool.false_eq_true]
  unfold RowSorted
  rw [← tournament_stable (w := fun i => mid (row * (tiles * k) + i)) hrank
    (fun i => keys (row * n + i)) hmax hk hn hkeep hfew hspan hkept]
  refine List.map_congr_left fun i hi => ?_
  have hat := sortTile_at (i := i) (X := fun i => if i < tiles * k then
      mid (row * (tiles * k) + i) else sentinel descending) hsecond
    (hfew.trans hspan) (by omega) hrow Nat.one_pos (List.mem_range.mp hi) rfl (fun t _ => ?_)
  · simpa only [Nat.zero_mul, Nat.zero_add, if_false, Bool.false_eq_true] using hat
  · unfold tileLoad
    simp only [Nat.zero_mul, Nat.zero_add, if_false, Bool.false_eq_true, if_true]

/-! ## A full sort -/

/-- The rows of the workspace. -/
def Holds (rows pad : Nat) (ws : Nat → Pair K) (V : Nat → Nat → Pair K) : Prop :=
  ∀ row, row < rows → ∀ i, i < pad → ws (row * pad + i) = V row i

omit [BoundedOrder K] in
theorem Holds.step {pad blocks m s : Nat} {V : Nat → Nat → Pair K} [BoundedOrder K]
    (hV : Holds rows pad ws V) (hblocks : 0 < blocks) (hpad : 2 * 2 ^ m ∣ pad)
    (h : Stores (Launch.writes wide descending rows keys smem ws
      (.bitonicStep blocks pad (2 ^ m) (2 ^ s))) ws ws') :
    Holds rows pad ws' fun row => exchange (after descending) (upAt (2 ^ s)) (2 ^ m) (V row) := by
  intro row hrow i hi
  have hthreads : 0 < blocks * SORT_THREADS := Nat.mul_pos hblocks (Nat.succ_pos 1023)
  have hpairs : ∀ p, p ∈ gridItems (blocks * SORT_THREADS) (pad / 2) ↔ p < pad / 2 :=
    fun p => mem_gridItems hthreads
  have hstores := Stores.row h (fun r _ w hw => ((mem_exchanges hpairs hpad _).mp hw).1) hrow
  have hat := exchanges_at hpairs hpad hstores hi
  rw [if_pos hi] at hat
  simp only [Nat.zero_add] at hat
  rw [hat]
  exact exchange_congr (Nat.pow_pos (by decide)) hpad (hV row hrow) hi

theorem Holds.mergeLocal {a tiles s : Nat} {V : Nat → Nat → Pair K} (ha : TILE wide = 2 ^ a)
    (hV : Holds rows (tiles * 2 ^ a) ws V)
    (h : Stores (Launch.writes wide descending rows keys smem ws
      (.mergeLocal tiles (tiles * 2 ^ a) (2 ^ s))) ws ws') :
    Holds rows (tiles * 2 ^ a) ws' fun row =>
      crossAll (after descending) (upAt (2 ^ s)) (strides 0 a) (V row) := by
  have hthreads : 0 < SORT_THREADS := Nat.succ_pos 1023
  have hlast : ∀ c j, c < tiles → j < 2 ^ a → c * 2 ^ a + j < tiles * 2 ^ a :=
    fun c j => row_major_lt
  have hsteps : steps 1 (2 ^ a / 2) = strides 0 a := steps_eq 0 a
  have hwrites : WritesOf
      (fun x : Nat × Nat × Nat => x.1 < rows ∧ x.2.1 < tiles ∧ x.2.2 < 2 ^ a)
      (fun x => x.1 * (tiles * 2 ^ a) + (x.2.1 * 2 ^ a + x.2.2))
      (fun x => localSteps descending (x.2.1 * 2 ^ a) (2 ^ s) (2 ^ a) (strides 0 a)
        (storeAll ((gridItems SORT_THREADS (2 ^ a)).map fun load =>
          (load, ws (x.1 * (tiles * 2 ^ a) + x.2.1 * 2 ^ a + load))) smem) x.2.2)
      (Launch.writes wide descending rows keys smem ws
        (.mergeLocal tiles (tiles * 2 ^ a) (2 ^ s))) := by
    unfold Launch.writes
    rw [ha, hsteps]
    refine ⟨fun w hw => ?_, fun x hx => ?_⟩
    · obtain ⟨r, hr, hw⟩ := List.mem_flatMap.mp hw
      obtain ⟨c, hc, hw⟩ := List.mem_flatMap.mp hw
      obtain ⟨j, hj, rfl⟩ := List.mem_map.mp hw
      refine ⟨(r, c, j), ⟨List.mem_range.mp hr, List.mem_range.mp hc,
        (mem_gridItems hthreads).mp hj⟩, Prod.ext (Nat.add_assoc _ _ _) rfl⟩
    · refine List.mem_flatMap.mpr ⟨x.1, List.mem_range.mpr hx.1, List.mem_flatMap.mpr
        ⟨x.2.1, List.mem_range.mpr hx.2.1, List.mem_map.mpr
          ⟨x.2.2, (mem_gridItems hthreads).mpr hx.2.2, Prod.ext (Nat.add_assoc _ _ _) rfl⟩⟩⟩
  intro row hrow i hi
  have hpos : 0 < 2 ^ a := Nat.pow_pos (by decide)
  have hsplit := Nat.div_add_mod' i (2 ^ a)
  have hmod := Nat.mod_lt i hpos
  have htile : i / 2 ^ a < tiles := Nat.div_lt_of_lt_mul (by rwa [Nat.mul_comm])
  have hat := h.writesOf hwrites (x := (row, i / 2 ^ a, i % 2 ^ a)) (fun x y hx hy heq => ?_)
    ⟨hrow, htile, hmod⟩
  · dsimp only at hat
    rw [hsplit] at hat
    rw [hat, localSteps_shift (dvd_refl _) (Nat.dvd_mul_left _ _) (X := V row) (fun t ht => ?_) hmod,
      hsplit]
    rw [storeAll_items _ smem ((mem_gridItems hthreads).mpr ht), Nat.add_assoc]
    exact hV row hrow _ (hlast _ _ htile ht)
  · obtain ⟨hrows, hrest⟩ := flat_inj (hlast _ _ hx.2.1 hx.2.2) (hlast _ _ hy.2.1 hy.2.2) heq
    obtain ⟨htiles, hstores⟩ := flat_inj hx.2.2 hy.2.2 hrest
    exact Prod.ext hrows (Prod.ext htiles hstores)

/-- The launches of one list and then those of another. -/
theorem runLaunches_append {l l' : List Launch} : RunLaunches wide descending rows keys (l ++ l') ws ws' ↔
    ∃ mid, RunLaunches wide descending rows keys l ws mid ∧
      RunLaunches wide descending rows keys l' mid ws' := by
  induction l generalizing ws with
  | nil => exact ⟨fun h => ⟨ws, rfl, h⟩, fun ⟨mid, hmid, h⟩ => hmid ▸ h⟩
  | cons launch l ih =>
      constructor
      · rintro ⟨smem, next, hstores, h⟩
        obtain ⟨mid, hmid, h⟩ := ih.mp h
        exact ⟨mid, ⟨smem, next, hstores, hmid⟩, h⟩
      · rintro ⟨mid, ⟨smem, next, hstores, hmid⟩, h⟩
        exact ⟨smem, next, hstores, ih.mpr ⟨mid, hmid, h⟩⟩

/-- Steps between tiles. -/
theorem Holds.steps {pad blocks s b : Nat} {js : List Nat} {V : Nat → Nat → Pair K}
    (hV : Holds rows pad ws V) (hblocks : 0 < blocks) (hpad : 2 ^ b ∣ pad)
    (hjs : ∀ j ∈ js, ∃ m, m < b ∧ j = 2 ^ m)
    (h : RunLaunches wide descending rows keys
      (js.map fun j => .bitonicStep blocks pad j (2 ^ s)) ws ws') :
    Holds rows pad ws' fun row => crossAll (after descending) (upAt (2 ^ s)) js (V row) := by
  induction js generalizing ws V with
  | nil => exact (show ws' = ws from h) ▸ hV
  | cons j js ih =>
      obtain ⟨m, hm, rfl⟩ := hjs j List.mem_cons_self
      obtain ⟨smem, mid, hstores, h⟩ := h
      have hdvd : 2 * 2 ^ m ∣ pad := by
        rw [Nat.mul_comm, ← Nat.pow_succ]
        exact (Nat.pow_dvd_pow 2 hm).trans hpad
      exact ih (hV.step hblocks hdvd hstores) (fun j hj => hjs j (List.mem_cons_of_mem _ hj)) h

/-- The stages that cross tiles. -/
theorem Holds.stages {a t blocks : Nat} {ss : List Nat} {V : Nat → Nat → Pair K}
    (ha : TILE wide = 2 ^ a) (hblocks : 0 < blocks)
    (hss : ∀ s ∈ ss, a ≤ s ∧ 2 ^ s ∣ t * 2 ^ a) (hV : Holds rows (t * 2 ^ a) ws V)
    (h : RunLaunches wide descending rows keys ((ss.map (2 ^ ·)).flatMap fun k =>
      (RowSort.steps (TILE wide) (k / 2)).map (fun j => .bitonicStep blocks (t * 2 ^ a) j k) ++
        [.mergeLocal t (t * 2 ^ a) k]) ws ws') :
    Holds rows (t * 2 ^ a) ws' fun row => ss.foldl
      (fun v s => crossAll (after descending) (upAt (2 ^ s)) (strides 0 s) v) (V row) := by
  induction ss generalizing ws V with
  | nil => exact (show ws' = ws from h) ▸ hV
  | cons s ss ih =>
      obtain ⟨hle, hdvd⟩ := hss s List.mem_cons_self
      rw [List.map_cons, List.flatMap_cons, runLaunches_append] at h
      obtain ⟨mid, hstage, h⟩ := h
      obtain ⟨between, hsteps, hlocal⟩ := runLaunches_append.mp hstage
      obtain ⟨smem, last, hstores, rfl⟩ := hlocal
      rw [ha, steps_eq] at hsteps
      have hbetween := hV.steps hblocks hdvd (fun j hj => by
        obtain ⟨m, -, hm, rfl⟩ := mem_strides.mp hj
        exact ⟨m, hm, rfl⟩) hsteps
      have hmid := hbetween.mergeLocal ha hstores
      refine ih (fun s hs => hss s (List.mem_cons_of_mem _ hs)) ?_ h
      intro row hrow i hi
      change mid (row * (t * 2 ^ a) + i) =
        crossAll (after descending) (upAt (2 ^ s)) (strides 0 s) (V row) i
      rw [hmid row hrow i hi, strides_append hle]
      exact congrFun (List.foldl_append ..).symm i

theorem sort_sorted (hrank : RanksPairs descending rank) (hmax : n ≤ SENTINEL_IDX) {a S blocks : Nat}
    (ha : TILE wide = 2 ^ a) (hS : a ≤ S) (hn : n ≤ 2 ^ S) (hk : k ≤ n) (hblocks : 0 < blocks)
    (h : RunLaunches wide descending rows keys
      (.sortTile false (2 ^ S / 2 ^ a) n (2 ^ S) (2 ^ a) (2 ^ a) true ::
        (stages (TILE wide * 2) (2 ^ S)).flatMap fun k =>
          (steps (TILE wide) (k / 2)).map (fun j => .bitonicStep blocks (2 ^ S) j k) ++
            [.mergeLocal (2 ^ S / 2 ^ a) (2 ^ S) k]) ws ws') {row : Nat} (hrow : row < rows) :
    RowSorted descending keys n k (2 ^ S) ws' row := by
  obtain ⟨smem, mid, hfirst, h⟩ := h
  have hpos : 0 < 2 ^ a := Nat.pow_pos (by decide)
  have hwidth : 2 ^ S / 2 ^ a * 2 ^ a = 2 ^ S := Nat.div_mul_cancel (Nat.pow_dvd_pow 2 hS)
  have hrange : List.range' 1 S = List.range' 1 a ++ List.range' (a + 1) (S - a) := by
    have happend := List.range'_append_1 (s := 1) (m := a) (n := S - a)
    rw [Nat.add_sub_of_le hS, Nat.add_comm 1 a] at happend
    exact happend.symm
  -- the sorted tiles are the stages inside tiles
  have htiles : Holds rows (2 ^ S / 2 ^ a * 2 ^ a) mid fun row =>
      network descending a (padded descending (fun i => keys (row * n + i)) n) := by
    intro row hrow i hi
    have hmod := Nat.mod_lt i hpos
    have hsplit := Nat.div_add_mod' i (2 ^ a)
    have htile : i / 2 ^ a < 2 ^ S / 2 ^ a := Nat.div_lt_of_lt_mul (by rwa [Nat.mul_comm])
    have hat := sortTile_at (X := padded descending (fun i => keys (row * n + i)) n) hfirst
      (Nat.le_refl _) (Nat.le_of_eq hwidth) hrow htile hmod rfl (fun t _ => ?_)
    · simp only [if_true] at hat
      rw [hsplit] at hat
      rw [hwidth]
      exact hat
    · unfold tileLoad padded
      simp only [if_true, if_false, Bool.false_eq_true]
  have hstages : stages (TILE wide * 2) (2 ^ S) = (List.range' (a + 1) (S - a)).map (2 ^ ·) := by
    rw [ha, show 2 ^ a * 2 = 2 ^ (a + 1) from rfl, stages_eq, Nat.add_sub_add_right]
  rw [hstages] at h
  have hlast := Holds.stages (t := 2 ^ S / 2 ^ a) ha hblocks (fun s hs => ?_) htiles
    (by rw [hwidth]; exact h)
  · unfold RowSorted
    rw [← network_stable hrank (fun i => keys (row * n + i)) hmax hn hk]
    refine List.map_congr_left fun i hi => ?_
    have hlt : i < 2 ^ S := lt_of_lt_of_le (List.mem_range.mp hi) (hk.trans hn)
    have hat := hlast row hrow i (by rwa [hwidth])
    rw [hwidth] at hat
    rw [hat]
    unfold network
    rw [hrange, List.foldl_append]
  · rw [List.mem_range'_1] at hs
    exact ⟨by omega, hwidth.symm ▸ Nat.pow_dvd_pow 2 (by omega)⟩

end

end TorchMojoBackend.Kernels.RowSort
