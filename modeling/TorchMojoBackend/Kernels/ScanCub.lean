/-
  `Kernels.ScanCub`: the scan of one long row in three passes.

  A tile holds the row's elements and the identity past its end.  A thread merges thirty
  items, its exclusive prefix comes from its warp and the warps before, and a tile's from
  the totals of the tiles before, taken in order or in chunks.  All of these are merges
  of runs of the row, so what a thread adds to them is the prefix of each of its items.
-/
import Mathlib.Tactic.IntervalCases
import TorchMojoBackend.Kernels.ScanRows

set_option autoImplicit false

namespace TorchMojoBackend.Kernels.Scan

open TorchMojoBackend.Foundation

universe u v

variable {α : Type u} {β : Type v} {op : ScanOp α β} {data : Nat → α} {n : Nat} {size : Size}

/-! ## Accesses -/

theorem size_cases (size : Size) : size.1 = 1 ∨ size.1 = 2 ∨ size.1 = 4 ∨ size.1 = 8 := by
  obtain ⟨n, hn⟩ := size
  have hle := Nat.le_of_dvd (by decide) hn
  dsimp only
  interval_cases n
  all_goals revert hn; decide

/-- Accesses of 16 bytes divide a tile. -/
theorem vector_width (size : Size) : 0 < 16 / size.1 ∧ CUB_TILE / (16 / size.1) * (16 / size.1) =
    CUB_TILE := by
  obtain h | h | h | h := size_cases size <;> rw [h] <;> decide

theorem mem_positions_vector {k : Nat} : k ∈ positions (vectorAccesses size) ↔ k < CUB_TILE := by
  obtain ⟨hV, htile⟩ := vector_width size
  have hthreads : 0 < CUB_THREADS := by decide
  unfold positions vectorAccesses
  simp only [List.mem_flatMap, List.mem_filterMap, List.mem_map, List.mem_range]
  constructor
  · rintro ⟨a, ⟨tid, htid, j, hj, hsome⟩, e, he, rfl⟩
    split at hsome
    · rename_i hin
      obtain rfl := Option.some.inj hsome
      have hmul := Nat.mul_le_mul_right (16 / size.1) (Nat.succ_le_of_lt hin)
      rw [Nat.succ_mul, htile] at hmul
      dsimp only at he ⊢
      omega
    · cases hsome
  · intro hk
    have hvi : k / (16 / size.1) < CUB_TILE / (16 / size.1) :=
      Nat.div_lt_of_lt_mul (by rw [Nat.mul_comm, htile]; exact hk)
    have hsplit := Nat.div_add_mod' (k / (16 / size.1)) CUB_THREADS
    refine ⟨(k / (16 / size.1) * (16 / size.1), 16 / size.1), ⟨k / (16 / size.1) % CUB_THREADS,
      Nat.mod_lt _ hthreads, k / (16 / size.1) / CUB_THREADS, ?_, ?_⟩, k % (16 / size.1),
      Nat.mod_lt _ hV, Nat.div_add_mod' _ _⟩
    · exact (lt_pieces_iff hthreads).mpr (by omega)
    · rw [hsplit, if_pos hvi]

theorem mem_positions_scalar {stop k : Nat} : k ∈ positions (scalarAccesses stop) ↔ k < stop := by
  have hthreads : 0 < CUB_THREADS := by decide
  unfold positions scalarAccesses
  rw [List.flatMap_map]
  simp only [List.mem_flatMap, List.mem_map, List.mem_range, mem_gridItems hthreads]
  constructor
  · rintro ⟨a, ha, e, he, rfl⟩
    omega
  · intro hk
    exact ⟨k, hk, 0, Nat.one_pos, Nat.add_zero k⟩

/-! ## Tiles -/

/-- What a tile holds. -/
def tileValue (op : ScanOp α β) (data : Nat → α) (n t k : Nat) : β :=
  if t * CUB_TILE + k < n then op.load (data (t * CUB_TILE + k)) else op.identity

/-- Stores of a function at positions. -/
theorem storeAll_positions {accesses : List (Nat × Nat)} {stop : Nat}
    (hpos : ∀ k, k ∈ positions accesses ↔ k < stop) (f : Nat → β) (smem : Nat → β) {k : Nat}
    (hk : k < stop) : storeAll ((positions accesses).map fun k => (k, f k)) smem k = f k := by
  have hws : WritesOf (· < stop) id f ((positions accesses).map fun k => (k, f k)) :=
    ⟨fun w hw => by
      obtain ⟨x, hx, rfl⟩ := List.mem_map.mp hw
      exact ⟨x, (hpos x).mp hx, rfl⟩, fun x hx => List.mem_map.mpr ⟨x, (hpos x).mpr hx, rfl⟩⟩
  exact (Stores.inOrder _ smem).writesOf hws (fun _ _ _ _ h => h) hk

theorem lt_tileWidth_iff {t k : Nat} (hk : k < CUB_TILE) :
    k < tileWidth n t ↔ t * CUB_TILE + k < n := by
  unfold tileWidth
  omega

theorem cubTile_at {inAddr t k : Nat} (smem : Nat → β) (hk : k < CUB_TILE) :
    cubTile op size inAddr data n t smem k = tileValue op data n t k := by
  unfold cubTile
  split
  · rename_i hvector
    have hwidth : tileWidth n t = CUB_TILE :=
      of_decide_eq_true (Bool.and_eq_true_iff.mp hvector).1
    rw [storeAll_positions (fun k => mem_positions_vector)
      (fun k => op.load (data (t * CUB_TILE + k))) smem hk]
    exact (if_pos ((lt_tileWidth_iff hk).mp (hwidth ▸ hk))).symm
  · rw [storeAll_positions (fun k => mem_positions_scalar) (fun k => if k < tileWidth n t then
      op.load (data (t * CUB_TILE + k)) else op.identity) smem hk]
    exact ite_congr (propext (lt_tileWidth_iff hk)) (fun _ => rfl) fun _ => rfl

/-! ## Blocks -/

section
variable (hassoc : ∀ a b c, vmerge op (vmerge op a b) c = vmerge op a (vmerge op b c))
include hassoc

theorem cubWarps_eq (agg : Nat → β) (tid : Nat) :
    cubWarps op agg tid = fold1 (vmerge op) agg (tid / 32 * 32) (tid % 32) :=
  doubling_warp hassoc (by decide) agg (by decide) tid

theorem warpTot_eq (agg : Nat → β) (warp : Nat) :
    warpTot op agg warp = fold1 (vmerge op) agg (warp * 32) 31 := by
  unfold warpTot
  rw [cubWarps_eq hassoc, show (32 * warp + 31) / 32 = warp by omega,
    show (32 * warp + 31) % 32 = 31 by omega]

/-- The totals of the first warps. -/
theorem warpTots_eq (agg : Nat → β) (warp : Nat) :
    fold1 (vmerge op) (warpTot op agg) 0 warp = fold1 (vmerge op) agg 0 (warp * 32 + 31) := by
  rw [← fold1_runs hassoc agg 31 warp]
  exact fold1_congr fun j _ _ => warpTot_eq hassoc agg j

/-- The exclusive prefix of a thread. -/
theorem cubExcl_eq (agg : Nat → β) (tid : Nat) : cubExcl op agg tid =
    if tid = 0 then none else some (fold1 (vmerge op) agg 0 (tid - 1)) := by
  unfold cubExcl
  dsimp only
  have hsplit := Nat.div_add_mod' tid 32
  have hmod := Nat.mod_lt tid (show 0 < 32 by decide)
  by_cases hwarp : tid / 32 > 0
  · rw [if_pos hwarp, if_neg (show tid ≠ 0 by omega), warpTots_eq hassoc]
    have hbefore : (tid / 32 - 1) * 32 + 31 + 1 = tid / 32 * 32 := by omega
    by_cases hlane : tid % 32 > 0
    · rw [if_pos hlane, cubWarps_eq hassoc, show (tid - 1) / 32 = tid / 32 by omega,
        show (tid - 1) % 32 = tid % 32 - 1 by omega]
      have happend := fold1_append hassoc agg 0 ((tid / 32 - 1) * 32 + 31) (tid % 32 - 1)
      rw [Nat.zero_add, hbefore] at happend
      dsimp only
      rw [happend, show (tid / 32 - 1) * 32 + 31 + (tid % 32 - 1) + 1 = tid - 1 by omega]
    · rw [if_neg hlane]
      dsimp only
      rw [show (tid / 32 - 1) * 32 + 31 = tid - 1 by omega]
  · rw [if_neg hwarp]
    by_cases hlane : tid % 32 > 0
    · rw [if_pos hlane, if_neg (show tid ≠ 0 by omega), cubWarps_eq hassoc,
        show (tid - 1) / 32 * 32 = 0 by omega, show (tid - 1) % 32 = tid - 1 by omega]
    · rw [if_neg hlane, if_pos (show tid = 0 by omega)]

/-- The items of the first threads. -/
theorem cubAggs_eq (tile : Nat → β) (tid : Nat) : fold1 (vmerge op) (cubAgg op tile) 0 tid =
    fold1 (vmerge op) tile 0 (tid * CUB_ITEMS + (CUB_ITEMS - 1)) :=
  fold1_runs hassoc tile (CUB_ITEMS - 1) tid

theorem cubBlockTot_eq (tile : Nat → β) : cubBlockTot op (cubAgg op tile) =
    fold1 (vmerge op) tile 0 (CUB_TILE - 1) := by
  unfold cubBlockTot
  rw [warpTots_eq hassoc, cubAggs_eq hassoc]
  rfl

/-! ## Totals and prefixes of tiles -/

omit hassoc in
/-- A run of a tile is one of the row. -/
theorem tile_fold {t k : Nat} {tile : Nat → β}
    (htile : ∀ k, k < CUB_TILE → tile k = tileValue op data n t k) (hk : k < CUB_TILE)
    (hreal : t * CUB_TILE + k < n) : fold1 (vmerge op) tile 0 k =
      fold1 (vmerge op) (value op data) (t * CUB_TILE) k := by
  rw [← fold1_shift (value op data)]
  refine fold1_congr fun i _ hi => ?_
  rw [htile i (by omega)]
  exact if_pos (by omega)

/-- The totals of the tiles before tile `t`. -/
theorem totals_fold {t : Nat} {ws : Nat → β} (ht : 0 < t) (hreal : t * CUB_TILE < n)
    (hws : ∀ j, j < t → ws j = fold1 (vmerge op) (value op data) (j * CUB_TILE) (CUB_TILE - 1)) :
    fold1 (vmerge op) ws 0 (t - 1) = fold1 (vmerge op) (value op data) 0 (t * CUB_TILE - 1) := by
  have hruns := fold1_runs hassoc (value op data) (CUB_TILE - 1) (t - 1)
  have hwidth : CUB_TILE - 1 + 1 = CUB_TILE := by decide
  have hlast : (t - 1) * CUB_TILE + (CUB_TILE - 1) = t * CUB_TILE - 1 := by
    obtain ⟨k, rfl⟩ := Nat.exists_eq_add_of_le' (Nat.succ_le_of_lt ht)
    rw [Nat.succ_eq_add_one, Nat.zero_add, Nat.add_sub_cancel, Nat.add_mul, Nat.one_mul]
    omega
  rw [hwidth, hlast] at hruns
  rw [← hruns]
  exact fold1_congr fun j _ hj => hws j (by omega)

omit hassoc in
/-- The stores of a thread that has the prefix of its first tile. -/
theorem mem_prefixStores {ws : Nat → β} {tiles count i : Nat} (hi : 0 < i) {w : Nat × β} :
    w ∈ prefixStores op ws tiles count i (some (fold1 (vmerge op) ws 0 (i - 1))) ↔
      ∃ t, (i ≤ t ∧ t < i + count) ∧ w = (tiles + t, fold1 (vmerge op) ws 0 (t - 1)) := by
  induction count generalizing i with
  | zero =>
      refine iff_of_false List.not_mem_nil ?_
      rintro ⟨t, ht, -⟩
      omega
  | succ count ih =>
      have hnext : vmerge op (fold1 (vmerge op) ws 0 (i - 1)) (ws i) =
          fold1 (vmerge op) ws 0 (i + 1 - 1) := by
        obtain ⟨k, rfl⟩ := Nat.exists_eq_add_of_le' (Nat.succ_le_of_lt hi)
        change _ = vmerge op (fold1 (vmerge op) ws 0 k) (ws (0 + k + 1))
        rw [Nat.zero_add]
        rfl
      unfold prefixStores
      rw [List.mem_cons, hnext, ih (Nat.succ_pos i)]
      constructor
      · rintro (rfl | ⟨t, ht, rfl⟩)
        · exact ⟨i, by omega, rfl⟩
        · exact ⟨t, by omega, rfl⟩
      · rintro ⟨t, ht, rfl⟩
        by_cases heq : t = i
        · exact .inl (by rw [heq])
        · exact .inr ⟨t, by omega, rfl⟩

omit hassoc in
theorem prefixTot_eq {ws : Nat → β} {tiles tid : Nat}
    (h : prefixLo tiles tid < prefixHi tiles tid) : prefixTot op ws tiles tid =
      fold1 (vmerge op) ws (prefixLo tiles tid) (prefixHi tiles tid - prefixLo tiles tid - 1) := by
  have hrun : ∀ lo count, (List.range' lo (count + 1)).foldl
      (fun tot i => if i = lo then ws i else vmerge op tot (ws i)) op.identity =
      fold1 (vmerge op) ws lo count := by
    intro lo count
    induction count with
    | zero => exact if_pos rfl
    | succ count ih =>
        rw [List.range'_concat, List.foldl_append, ih, Nat.one_mul]
        change (if lo + (count + 1) = lo then _ else _) = _
        rw [if_neg (by omega)]
        rfl
  unfold prefixTot
  rw [← hrun, Nat.sub_add_cancel (by omega)]

/-- The chunks before a thread's. -/
theorem prefixPart_eq {ws : Nat → β} {tiles tid : Nat} (htid : tid < CUB_PREFIX_THREADS)
    (hfull : (tid + 1) * pieces tiles CUB_PREFIX_THREADS ≤ tiles)
    (hchunk : 0 < pieces tiles CUB_PREFIX_THREADS) : prefixPart op ws tiles tid =
      fold1 (vmerge op) ws 0 ((tid + 1) * pieces tiles CUB_PREFIX_THREADS - 1) := by
  unfold prefixPart
  rw [doubling_block hassoc _ (show CUB_PREFIX_THREADS ≤ 2 ^ 10 by decide) htid]
  generalize hc : pieces tiles CUB_PREFIX_THREADS = chunk at *
  have hruns := fold1_runs hassoc ws (chunk - 1) tid
  have hwidth : chunk - 1 + 1 = chunk := Nat.sub_add_cancel hchunk
  have hlast : tid * chunk + (chunk - 1) = (tid + 1) * chunk - 1 := by
    rw [Nat.succ_mul]
    omega
  rw [hwidth, hlast] at hruns
  rw [← hruns]
  refine fold1_congr fun j _ hj => ?_
  have hj' : (j + 1) * chunk ≤ tiles :=
    (Nat.mul_le_mul_right chunk (show j + 1 ≤ tid + 1 by omega)).trans hfull
  rw [Nat.succ_mul] at hj'
  have hlo : prefixLo tiles j = j * chunk := by
    unfold prefixLo
    rw [hc]
    omega
  have hhi : prefixHi tiles j = j * chunk + chunk := by
    unfold prefixHi
    rw [hlo, hc]
    omega
  rw [prefixTot_eq (by omega), hlo, hhi, Nat.add_sub_cancel_left]

/-- What a thread of the second pass stores. -/
theorem mem_chunkStores {ws : Nat → β} {tiles tid : Nat} (hchunk : 0 < pieces tiles CUB_PREFIX_THREADS)
    (htid : tid < CUB_PREFIX_THREADS) {w : Nat × β} :
    w ∈ prefixStores op ws tiles (prefixHi tiles tid - prefixLo tiles tid)
        (prefixLo tiles tid) (if tid > 0 ∧ prefixLo tiles tid > 0 then
          some (prefixPart op ws tiles (tid - 1)) else none) ↔
      ∃ t, (0 < t ∧ tid * pieces tiles CUB_PREFIX_THREADS ≤ t ∧
        t < (tid + 1) * pieces tiles CUB_PREFIX_THREADS ∧ t < tiles) ∧
        w = (tiles + t, fold1 (vmerge op) ws 0 (t - 1)) := by
  have hpart := @prefixPart_eq α β op hassoc ws tiles (tid - 1) (by omega)
  have hlo : prefixLo tiles tid = min (tid * pieces tiles CUB_PREFIX_THREADS) tiles := rfl
  have hhi : prefixHi tiles tid =
    min (prefixLo tiles tid + pieces tiles CUB_PREFIX_THREADS) tiles := rfl
  have hnext := Nat.succ_mul tid (pieces tiles CUB_PREFIX_THREADS)
  generalize pieces tiles CUB_PREFIX_THREADS = chunk at *
  generalize prefixHi tiles tid = hi at *
  generalize prefixLo tiles tid = lo at *
  rw [Nat.succ_eq_add_one] at hnext
  by_cases hreach : tiles ≤ tid * chunk
  · -- a chunk past the last tile
    rw [show hi - lo = 0 by omega]
    refine iff_of_false List.not_mem_nil ?_
    rintro ⟨t, ht, -⟩
    omega
  · by_cases hfirst : tid = 0
    · have hlo0 : lo = 0 := by
        rw [hlo, hfirst, Nat.zero_mul, Nat.zero_min]
      have hcount : hi - lo = hi - 1 + 1 := by omega
      rw [hcount, hlo0, if_neg (by omega)]
      change w ∈ prefixStores op ws tiles (hi - 1) 1 (some (ws 0)) ↔ _
      have hmem := @mem_prefixStores α β op ws tiles (hi - 1) 1 Nat.one_pos w
      rw [Nat.sub_self] at hmem
      rw [hfirst, Nat.zero_add, Nat.zero_mul, Nat.one_mul]
      refine hmem.trans (exists_congr fun t => and_congr_left fun _ => ?_)
      have hhi' : hi = min chunk tiles := by
        rw [hhi, hlo0, Nat.zero_add]
      clear hmem
      omega
    · have hpos : 0 < tid * chunk := Nat.mul_pos (by omega) hchunk
      rw [Nat.sub_add_cancel (by omega)] at hpart
      rw [if_pos ⟨by omega, by omega⟩, hpart (by omega) hchunk, show lo = tid * chunk by omega,
        mem_prefixStores hpos]
      refine exists_congr fun t => and_congr_left fun _ => ?_
      omega

/-- The second pass stores the exclusive prefixes of the tiles after the first. -/
theorem tilePrefixWrites_writesOf (ws : Nat → β) {tiles : Nat} (htiles : 0 < tiles) :
    WritesOf (fun t => 0 < t ∧ t < tiles) (tiles + ·) (fun t => fold1 (vmerge op) ws 0 (t - 1))
      (tilePrefixWrites op ws tiles) := by
  unfold tilePrefixWrites
  split
  · have hmem := fun w : Nat × β =>
      @mem_prefixStores α β op ws tiles (tiles - 1) 1 Nat.one_pos w
    refine ⟨fun w hw => ?_, fun t ht => ?_⟩
    · obtain ⟨t, ht, rfl⟩ := (hmem w).mp hw
      exact ⟨t, by omega, rfl⟩
    · exact (hmem _).mpr ⟨t, by omega, rfl⟩
  · have hthreads : 0 < CUB_PREFIX_THREADS := by decide
    have hreach := le_pieces_mul (n := tiles) hthreads
    have hchunk : 0 < pieces tiles CUB_PREFIX_THREADS :=
      (lt_pieces_iff hthreads).mpr (by omega)
    refine ⟨fun w hw => ?_, fun t ht => ?_⟩
    · obtain ⟨tid, htid, hw⟩ := List.mem_flatMap.mp hw
      obtain ⟨t, ht, rfl⟩ := (mem_chunkStores hassoc hchunk (List.mem_range.mp htid)).mp hw
      exact ⟨t, ⟨ht.1, ht.2.2.2⟩, rfl⟩
    · have htid : t / pieces tiles CUB_PREFIX_THREADS < CUB_PREFIX_THREADS :=
        Nat.div_lt_of_lt_mul (by omega)
      refine List.mem_flatMap.mpr ⟨_, List.mem_range.mpr htid,
        (mem_chunkStores hassoc hchunk htid).mpr ⟨t, ⟨ht.1, Nat.div_mul_le_self _ _, ?_, ht.2⟩, rfl⟩⟩
      rw [Nat.mul_comm]
      exact Nat.lt_mul_div_succ t hchunk

/-! ## The last pass -/

/-- The prefix before a thread's first item. -/
theorem tileExcl_eq {t tid tiles : Nat} {tile ws : Nat → β}
    (htile : ∀ k, k < CUB_TILE → tile k = tileValue op data n t k)
    (hws : 0 < t → ws (tiles + t) = fold1 (vmerge op) (value op data) 0 (t * CUB_TILE - 1))
    (htid : tid < CUB_THREADS) (hreal : t * CUB_TILE + tid * CUB_ITEMS < n) :
    tileExcl op ws tiles t (cubAgg op tile) tid =
      if t * CUB_TILE + tid * CUB_ITEMS = 0 then none
      else some (fold1 (vmerge op) (value op data) 0 (t * CUB_TILE + tid * CUB_ITEMS - 1)) := by
  have hTILE : CUB_TILE = 3840 := rfl
  have hITEMS : CUB_ITEMS = 30 := rfl
  have hTHREADS : CUB_THREADS = 128 := rfl
  have ht30 : tid * CUB_ITEMS = tid * 30 := rfl
  have ht3840 : t * CUB_TILE = t * 3840 := rfl
  -- the threads before, as a run of the row
  have hbefore : 0 < tid → fold1 (vmerge op) (cubAgg op tile) 0 (tid - 1) =
      fold1 (vmerge op) (value op data) (t * CUB_TILE) (tid * CUB_ITEMS - 1) := fun hpos => by
    have hprev : (tid - 1) * CUB_ITEMS = (tid - 1) * 30 := rfl
    rw [cubAggs_eq hassoc,
      show (tid - 1) * CUB_ITEMS + (CUB_ITEMS - 1) = tid * CUB_ITEMS - 1 by omega,
      tile_fold htile (by omega) (by omega)]
  unfold tileExcl
  rw [cubExcl_eq hassoc]
  by_cases ht : t > 0
  · rw [if_pos ht, hws ht, if_neg (show ¬ t * CUB_TILE + tid * CUB_ITEMS = 0 by omega)]
    by_cases htid0 : tid = 0
    · rw [if_pos htid0, htid0, Nat.zero_mul, Nat.add_zero]
    · rw [if_neg htid0]
      dsimp only
      have happend := fold1_append hassoc (value op data) 0 (t * CUB_TILE - 1)
        (tid * CUB_ITEMS - 1)
      rw [show 0 + (t * CUB_TILE - 1) + 1 = t * CUB_TILE by omega] at happend
      rw [hbefore (by omega), happend, show t * CUB_TILE - 1 + (tid * CUB_ITEMS - 1) + 1 =
        t * CUB_TILE + tid * CUB_ITEMS - 1 by omega]
  · obtain rfl : t = 0 := by omega
    rw [if_neg ht]
    by_cases htid0 : tid = 0
    · rw [if_pos htid0, if_pos (by omega)]
    · rw [if_neg htid0, if_neg (by omega), hbefore (by omega), Nat.zero_mul, Nat.zero_add]

/-- A thread's running merge is the prefix of its item. -/
theorem tileRun_eq {t tid tiles k : Nat} {tile ws : Nat → β}
    (htile : ∀ k, k < CUB_TILE → tile k = tileValue op data n t k)
    (hws : 0 < t → ws (tiles + t) = fold1 (vmerge op) (value op data) 0 (t * CUB_TILE - 1))
    (htid : tid < CUB_THREADS) (hk : k < CUB_ITEMS)
    (hreal : t * CUB_TILE + (tid * CUB_ITEMS + k) < n) :
    tileRun op tile (tileExcl op ws tiles t (cubAgg op tile) tid) tid k =
      fold1 (vmerge op) (value op data) 0 (t * CUB_TILE + (tid * CUB_ITEMS + k)) := by
  have hTILE : CUB_TILE = 3840 := rfl
  have hITEMS : CUB_ITEMS = 30 := rfl
  have hTHREADS : CUB_THREADS = 128 := rfl
  have ht30 : tid * CUB_ITEMS = tid * 30 := rfl
  have ht3840 : t * CUB_TILE = t * 3840 := rfl
  have hitem : ∀ j, j ≤ k → tile (tid * CUB_ITEMS + j) =
      value op data (t * CUB_TILE + (tid * CUB_ITEMS + j)) := fun j hj => by
    rw [htile _ (by omega)]
    exact if_pos (by omega)
  induction k with
  | zero =>
      have hfirst := hitem 0 (Nat.le_refl 0)
      rw [tileExcl_eq hassoc htile hws htid (by omega)]
      rw [Nat.add_zero] at hfirst ⊢
      by_cases hstart : t * CUB_TILE + tid * CUB_ITEMS = 0
      · rw [if_pos hstart, hstart]
        unfold tileRun
        dsimp only
        rw [hfirst, hstart]
        rfl
      · rw [if_neg hstart]
        unfold tileRun
        dsimp only
        rw [hfirst]
        obtain ⟨start, hprev⟩ := Nat.exists_eq_succ_of_ne_zero hstart
        rw [hprev, Nat.succ_sub_one]
        conv_rhs => unfold fold1
        rw [Nat.zero_add]
  | succ k ih =>
      unfold tileRun
      rw [ih (by omega) (by omega) fun j hj => hitem j (by omega), hitem (k + 1) (Nat.le_refl _),
        ← Nat.add_assoc (tid * CUB_ITEMS), ← Nat.add_assoc (t * CUB_TILE) _ 1]
      conv_rhs => unfold fold1
      rw [Nat.zero_add]

/-- What the threads store in shared memory. -/
theorem tileScanned_at {t tiles k : Nat} {tile ws : Nat → β}
    (htile : ∀ k, k < CUB_TILE → tile k = tileValue op data n t k)
    (hws : 0 < t → ws (tiles + t) = fold1 (vmerge op) (value op data) 0 (t * CUB_TILE - 1))
    (hk : k < CUB_TILE) (hreal : t * CUB_TILE + k < n) : tileScanned op tile ws tiles t k =
      fold1 (vmerge op) (value op data) 0 (t * CUB_TILE + k) := by
  have hwrites : WritesOf (fun x : Nat × Nat => x.1 < CUB_THREADS ∧ x.2 < CUB_ITEMS)
      (fun x => x.1 * CUB_ITEMS + x.2)
      (fun x => tileRun op tile (tileExcl op ws tiles t (cubAgg op tile) x.1) x.1 x.2)
      ((List.range CUB_THREADS).flatMap fun tid => (List.range CUB_ITEMS).map fun k =>
        (tid * CUB_ITEMS + k,
          tileRun op tile (tileExcl op ws tiles t (cubAgg op tile) tid) tid k)) := by
    refine ⟨fun w hw => ?_, fun x hx => ?_⟩
    · obtain ⟨tid, htid, hw⟩ := List.mem_flatMap.mp hw
      obtain ⟨k, hk, rfl⟩ := List.mem_map.mp hw
      exact ⟨(tid, k), ⟨List.mem_range.mp htid, List.mem_range.mp hk⟩, rfl⟩
    · exact List.mem_flatMap.mpr ⟨x.1, List.mem_range.mpr hx.1,
        List.mem_map.mpr ⟨x.2, List.mem_range.mpr hx.2, rfl⟩⟩
  have hsplit := Nat.div_add_mod' k CUB_ITEMS
  have hlane : k % CUB_ITEMS < CUB_ITEMS := Nat.mod_lt _ (by decide)
  have htid : k / CUB_ITEMS < CUB_THREADS := Nat.div_lt_of_lt_mul (by rw [Nat.mul_comm]; exact hk)
  have hat := (Stores.inOrder _ tile).writesOf hwrites
    (fun x y hx hy heq => Prod.ext_iff.mpr (flat_inj hx.2 hy.2 heq))
    (x := (k / CUB_ITEMS, k % CUB_ITEMS)) ⟨htid, hlane⟩
  dsimp only at hat
  rw [hsplit] at hat
  unfold tileScanned
  rw [hat, tileRun_eq hassoc htile hws htid hlane (by omega), hsplit]

end

theorem tileScanWrites_exact (hop : Lawful op) (hvalue : op.withIndex = false)
    {outAddr inAddr : Nat} {ws smem : Nat → β}
    (hws : ∀ t, 0 < t → t < pieces n CUB_TILE → ws (pieces n CUB_TILE + t) =
      fold1 (vmerge op) (value op data) 0 (t * CUB_TILE - 1)) :
    ExactWrites op data 1 n 1
      (tileScanWrites op size outAddr inAddr data n (pieces n CUB_TILE) ws smem) := by
  have hTILE : 0 < CUB_TILE := by decide
  -- the positions that a tile stores
  have hstored : ∀ t k, k ∈ positions (if vectorised size outAddr n t then vectorAccesses size
      else scalarAccesses (tileWidth n t)) ↔ k < CUB_TILE ∧ t * CUB_TILE + k < n := fun t k => by
    split
    · rename_i hvector
      have hwidth : tileWidth n t = CUB_TILE :=
        of_decide_eq_true (Bool.and_eq_true_iff.mp hvector).1
      rw [mem_positions_vector]
      exact ⟨fun hk => ⟨hk, (lt_tileWidth_iff hk).mp (hwidth ▸ hk)⟩, And.left⟩
    · rw [mem_positions_scalar]
      unfold tileWidth
      omega
  constructor
  · intro w hw
    obtain ⟨t, ht, hw⟩ := List.mem_flatMap.mp hw
    obtain ⟨k, hk, rfl⟩ := List.mem_map.mp hw
    obtain ⟨hk, hreal⟩ := (hstored t k).mp hk
    refine ⟨(0, t * CUB_TILE + k, 0), ⟨Nat.one_pos, hreal, Nat.one_pos⟩, ?_, ?_, fun hindex => ?_⟩
    · unfold addrOf
      dsimp only
      omega
    · dsimp only
      rw [tileScanned_at (hop.vassoc hvalue) (fun k hk => cubTile_at smem hk)
        (fun hpos => hws t hpos (List.mem_range.mp ht)) hk hreal]
      unfold prefixAt
      rw [prefixMerge_value hvalue]
      refine congrArg op.store (fold1_congr fun i _ _ => ?_)
      unfold lineOf value
      rw [Nat.zero_mul, Nat.zero_add, Nat.mul_one, Nat.add_zero]
    · rw [hvalue] at hindex
      cases hindex
  · rintro ⟨o, j, i⟩ ⟨ho, hj, hi⟩
    dsimp only at ho hj hi
    have hsplit := Nat.div_add_mod' j CUB_TILE
    have hmod := Nat.mod_lt j hTILE
    refine ⟨_, List.mem_flatMap.mpr ⟨j / CUB_TILE, List.mem_range.mpr
      ((lt_pieces_iff hTILE).mpr (by omega)), List.mem_map.mpr ⟨j % CUB_TILE,
      (hstored _ _).mpr ⟨hmod, by omega⟩, rfl⟩⟩, ?_⟩
    obtain rfl : o = 0 := by omega
    unfold addrOf
    dsimp only
    omega

/-! ## All passes -/

/-- What the three passes leave. -/
theorem Scan1dCub.exact (hop : Lawful op) (hvalue : op.withIndex = false) {outAddr inAddr : Nat}
    {smem : Nat → β} {m m' : Memory α β} (h : Scan1dCub op size outAddr inAddr data n smem m m') :
    ∃ (ws : Nat → β) (m₂ : Memory α β),
      ExactWrites op data 1 n 1
        (tileScanWrites op size outAddr inAddr data n (pieces n CUB_TILE) ws smem) ∧
      StoresOut op.withIndex
        (tileScanWrites op size outAddr inAddr data n (pieces n CUB_TILE) ws smem) m₂ m' ∧
      m₂.out = m.out ∧ m₂.idx = m.idx := by
  have hassoc := hop.vassoc hvalue
  have hTILE : 0 < CUB_TILE := by decide
  unfold Scan1dCub at h
  dsimp only at h
  split at h
  · rename_i hmany
    obtain ⟨m₁, m₂, hagg, hsecond, hscan⟩ := h
    -- the totals of the full tiles
    have htotals : ∀ t, t * CUB_TILE + (CUB_TILE - 1) < n →
        m₁.ws t = fold1 (vmerge op) (value op data) (t * CUB_TILE) (CUB_TILE - 1) := fun t hfull => by
      have ht : t < pieces n CUB_TILE := (lt_pieces_iff hTILE).mpr (by omega)
      have hat : m₁.ws t = cubBlockTot op (cubAgg op (cubTile op size inAddr data n t smem)) :=
        hagg.ws.map_at (fun _ _ _ _ heq => heq) (List.mem_range.mpr ht)
      rw [hat, cubBlockTot_eq hassoc]
      exact tile_fold (fun k hk => cubTile_at smem hk) (by omega) hfull
    refine ⟨m₂.ws, m₂, tileScanWrites_exact hop hvalue fun t hpos ht => ?_, hscan,
      hsecond.out.trans hagg.out, hsecond.idx.trans hagg.idx⟩
    have hreach := (lt_pieces_iff hTILE).mp ht
    rw [hsecond.ws.writesOf (tilePrefixWrites_writesOf hassoc m₁.ws (by omega))
      (fun x y _ _ heq => Nat.add_left_cancel heq) ⟨hpos, ht⟩]
    refine totals_fold hassoc hpos hreach fun j hj => htotals j ?_
    have hmul := Nat.mul_le_mul_right CUB_TILE (Nat.succ_le_of_lt hj)
    rw [Nat.succ_mul] at hmul
    omega
  · rename_i hone
    refine ⟨m.ws, m, tileScanWrites_exact hop hvalue fun t hpos ht => ?_, h, rfl, rfl⟩
    omega

end TorchMojoBackend.Kernels.Scan
