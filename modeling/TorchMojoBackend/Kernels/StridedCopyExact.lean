/-
  `Kernels.StridedCopyExact`: the routes of strided copies agree with the generic one.

  A route's guard makes the kernel's dimensions those of the layout, once dimensions of
  one element are dropped and a batch of two dimensions is merged.
-/
import Mathlib.Algebra.BigOperators.Pi
import TorchMojoBackend.Kernels.StridedCopyKernels

set_option autoImplicit false

namespace TorchMojoBackend.Kernels.StridedCopy

open TorchMojoBackend.Foundation TorchMojoBackend.Kernels.OpUtils

/-! ## Accesses -/

/-- A round stores the elements that its stores span, takes them from what it loads, and its
vector accesses of `width` elements are aligned to `align width` bytes. -/
structure Work.Exact (w : Work) (dtype : BitsType) (align : Nat → Nat) (dstAddr srcAddr : Int) :
    Prop where
  stored : w.elements.map Prod.fst =
    w.stores.flatMap fun x => (List.range x.2).map fun j : Nat => x.1 + (j : Int)
  loaded : ∀ e ∈ w.elements, ∃ x ∈ w.loads, ∃ j : Nat, j < x.2 ∧ e.2 = x.1 + j
  storesAligned : ∀ x ∈ w.stores, 1 < x.2 → (align x.2 : Int) ∣ dstAddr + x.1 * dtype.sizeOf
  loadsAligned : ∀ x ∈ w.loads, 1 < x.2 → (align x.2 : Int) ∣ srcAddr + x.1 * dtype.sizeOf

variable {dtype : BitsType} {align : Nat → Nat} {dstAddr srcAddr : Int}

theorem Work.move_exact {dst src : Int} {width : Nat}
    (hdst : 1 < width → (align width : Int) ∣ dstAddr + dst * dtype.sizeOf)
    (hsrc : 1 < width → (align width : Int) ∣ srcAddr + src * dtype.sizeOf) :
    (Work.move dst src width).Exact dtype align dstAddr srcAddr where
  stored := by
    simp only [Work.move, List.map_map, List.flatMap_singleton]
    rfl
  loaded := by
    rintro e he
    obtain ⟨j, hj, rfl⟩ := List.mem_map.mp he
    exact ⟨_, List.mem_singleton.mpr rfl, j, List.mem_range.mp hj, rfl⟩
  storesAligned := by
    intro x hx
    obtain rfl := List.mem_singleton.mp hx
    exact hdst
  loadsAligned := by
    intro x hx
    obtain rfl := List.mem_singleton.mp hx
    exact hsrc

/-- An aligned address stays so by whole vectors. -/
theorem aligned_add {addr o : Int} {width size : Nat} (haddr : ((width * size : Nat) : Int) ∣ addr)
    (ho : (width : Int) ∣ o) : ((width * size : Nat) : Int) ∣ addr + o * size := by
  refine dvd_add haddr ?_
  rw [Nat.cast_mul]
  exact mul_dvd_mul_right ho _

theorem copyStridedKernel_exact {blocks total : Nat} {ds : List (Dim (Int × Int))} :
    ∀ w ∈ copyStridedKernel blocks ds total, w.Exact dtype align dstAddr srcAddr := by
  intro w hw
  obtain ⟨i, -, rfl⟩ := List.mem_map.mp hw
  exact Work.move_exact (fun h => absurd h (by decide)) fun h => absurd h (by decide)

theorem copyRowStridedBody_exact {VEC ITEMS THREADS gx gy rows n : Nat} {pitch : Int}
    (hform : THREADS = 0 ∧ ITEMS = 1 ∨ THREADS = 256)
    (hvec : 1 < VEC → align VEC = VEC * dtype.sizeOf ∧
      ((VEC * dtype.sizeOf : Nat) : Int) ∣ dstAddr ∧ ((VEC * dtype.sizeOf : Nat) : Int) ∣ srcAddr ∧
      (VEC : Int) ∣ pitch) :
    ∀ w ∈ copyRowStridedBody VEC ITEMS THREADS gx gy rows (n * VEC) pitch,
      w.Exact dtype align dstAddr srcAddr := by
  intro w hw
  simp only [copyRowStridedBody, List.mem_flatMap, List.mem_range] at hw
  obtain ⟨blockY, -, blockX, -, tid, -, row, -, item, hitem, hw⟩ := hw
  rw [row_column hform hitem] at hw
  obtain ⟨-, hw⟩ := List.mem_ite_nil_right.mp hw
  obtain rfl := List.mem_singleton.mp hw
  have hcolumn : (VEC : Int) ∣ (((blockX * ITEMS + item) * 256 + tid) * VEC : Nat) :=
    Int.natCast_dvd_natCast.mpr (Nat.dvd_mul_left ..)
  refine Work.move_exact (fun h => ?_) fun h => ?_
  · obtain ⟨halign, hdst, -, -⟩ := hvec h
    rw [halign]
    refine aligned_add hdst (dvd_add (dvd_mul_of_dvd_right ?_ _) hcolumn)
    exact Int.natCast_dvd_natCast.mpr (Nat.dvd_mul_left ..)
  · obtain ⟨halign, -, hsrc, hpitch⟩ := hvec h
    rw [halign]
    exact aligned_add hsrc (dvd_add (dvd_mul_of_dvd_right hpitch _) hcolumn)

theorem transpose2dVecKernel_exact {VEC gx gz rows cols : Nat} {ld : Int} {batch : Nat}
    {dstBstride srcBstride : Int} (halign : align VEC = VEC * dtype.sizeOf)
    (hdst : ((VEC * dtype.sizeOf : Nat) : Int) ∣ dstAddr)
    (hsrc : ((VEC * dtype.sizeOf : Nat) : Int) ∣ srcAddr) (hcols : (VEC : Int) ∣ cols)
    (hld : (VEC : Int) ∣ ld) (hdstBstride : (VEC : Int) ∣ dstBstride)
    (hsrcBstride : (VEC : Int) ∣ srcBstride) :
    ∀ w ∈ transpose2dVecKernel VEC gx gz rows cols ld batch dstBstride srcBstride,
      w.Exact dtype align dstAddr srcAddr := by
  intro w hw
  simp only [transpose2dVecKernel, List.mem_flatMap, List.mem_range, List.mem_ite_nil_right,
    List.mem_singleton] at hw
  obtain ⟨blockZ, -, tid, -, b, -, q, -, -, rfl⟩ := hw
  have hmul : ∀ n : Nat, (VEC : Int) ∣ (n * VEC : Nat) := fun n =>
    Int.natCast_dvd_natCast.mpr (Nat.dvd_mul_left ..)
  refine ⟨?_, ?_, ?_, ?_⟩
  · simp only [transposeBlock, List.map_flatMap, List.map_map, List.flatMap_map]
    rfl
  · intro e he
    simp only [transposeBlock, List.mem_flatMap, List.mem_map, List.mem_range] at he ⊢
    obtain ⟨i, hi, j, hj, rfl⟩ := he
    refine ⟨_, ⟨j, hj, rfl⟩, i, hi, ?_⟩
    dsimp only
    rw [row_div hi, Nat.mul_add_mod_of_lt hi]
  · intro x hx _
    obtain ⟨i, -, rfl⟩ := List.mem_map.mp hx
    rw [halign]
    exact aligned_add hdst (dvd_add (dvd_add (dvd_mul_of_dvd_right hdstBstride _)
      (dvd_mul_of_dvd_right hcols _)) (hmul _))
  · intro x hx _
    obtain ⟨j, -, rfl⟩ := List.mem_map.mp hx
    rw [halign]
    exact aligned_add hsrc (dvd_add (dvd_add (dvd_mul_of_dvd_right hsrcBstride _)
      (dvd_mul_of_dvd_right hld _)) (hmul _))

theorem tileLoop_exact {TILE rows cols : Nat} {ld dstBstride srcBstride : Int} {c0 : Nat}
    (hTILE : 0 < TILE) {items : List (Nat × Nat)} {tile : Nat → Int} :
    ∀ w ∈ tileLoop TILE rows cols ld dstBstride srcBstride c0 items tile,
      w.Exact dtype align dstAddr srcAddr := by
  induction items generalizing tile with
  | nil => exact fun w hw => absurd hw List.not_mem_nil
  | cons x items ih =>
      obtain ⟨b, r0⟩ := x
      intro w hw
      obtain rfl | hw := List.mem_cons.mp hw
      · refine ⟨?_, ?_, ?_, ?_⟩
        · simp only [List.map_map, List.flatMap_map, List.range_one, List.map_singleton,
            Nat.cast_zero, add_zero, ← List.map_eq_flatMap]
          rfl
        · intro e he
          obtain ⟨x, hx, rfl⟩ := List.mem_map.mp he
          simp only [tileStores, List.mem_flatMap, List.mem_range, List.mem_ite_nil_right,
            mem_strided (show 0 < T2D_ROWS by decide) (Nat.le_add_left _ _),
            List.mem_singleton] at hx
          obtain ⟨tid, -, hc, y, ⟨-, hy, -⟩, hr, rfl⟩ := hx
          have htx := Nat.mod_lt tid hTILE
          have hload := (tileLoads_writesOf rows cols ld (b * srcBstride) r0 c0 hTILE).2
            (y, tid % TILE) ⟨⟨hy, hr⟩, htx, hc⟩
          refine ⟨_, List.mem_map.mpr ⟨_, hload, rfl⟩, 0, Nat.one_pos, ?_⟩
          exact (tile_read ld _ tile hTILE htx hc hy hr).trans (add_zero _).symm
        · intro x hx h
          obtain ⟨y, -, rfl⟩ := List.mem_map.mp hx
          exact absurd h (Nat.lt_irrefl 1)
        · intro x hx h
          obtain ⟨y, -, rfl⟩ := List.mem_map.mp hx
          exact absurd h (Nat.lt_irrefl 1)
      · exact ih w hw

theorem transpose2dKernel_exact {tile : Nat → Int} {TILE gx gy gz rows cols : Nat} {ld : Int}
    {batch : Nat} {dstBstride srcBstride : Int} (hTILE : 0 < TILE) :
    ∀ w ∈ transpose2dKernel tile TILE gx gy gz rows cols ld batch dstBstride srcBstride,
      w.Exact dtype align dstAddr srcAddr := by
  intro w hw
  simp only [transpose2dKernel, List.mem_flatMap] at hw
  obtain ⟨blockZ, -, blockY, -, blockX, -, hw⟩ := hw
  exact tileLoop_exact hTILE w hw

namespace Permutation

variable {p : Permutation}

/-- The run strides are whole vectors. -/
def WholeVectors (p : Permutation) (VEC : Nat) : Prop :=
  (VEC : Int) ∣ p.s0 ∧ (VEC : Int) ∣ p.s1 ∧ (VEC : Int) ∣ p.s2

theorem WholeVectors.runOffset {VEC : Nat} (h : p.WholeVectors VEC) (run : Nat) :
    (VEC : Int) ∣ p.runOffset run :=
  dvd_add (dvd_add (dvd_mul_of_dvd_right h.1 _) (dvd_mul_of_dvd_right h.2.1 _))
    (dvd_mul_of_dvd_right h.2.2 _)

/-- A vector at whole vectors from bases of an alignment that divides the vector's width. -/
theorem move_exact {VEC : Nat} {dst src : Int} (halign : align VEC ∣ VEC * dtype.sizeOf)
    (hdstAddr : (align VEC : Int) ∣ dstAddr) (hsrcAddr : (align VEC : Int) ∣ srcAddr)
    (hdst : (VEC : Int) ∣ dst) (hsrc : (VEC : Int) ∣ src) :
    (Work.move dst src VEC).Exact dtype align dstAddr srcAddr := by
  have hwhole : ∀ {o : Int}, (VEC : Int) ∣ o → (align VEC : Int) ∣ o * dtype.sizeOf := by
    intro o ho
    refine dvd_trans (Int.natCast_dvd_natCast.mpr halign) ?_
    rw [Nat.cast_mul]
    exact mul_dvd_mul_right ho _
  exact Work.move_exact (fun _ => dvd_add hdstAddr (hwhole hdst)) fun _ =>
    dvd_add hsrcAddr (hwhole hsrc)

theorem runGatherKernel_exact {VEC : Nat} (hVEC : p.WholeVectors VEC)
    (halign : align VEC ∣ VEC * dtype.sizeOf) (hdstAddr : (align VEC : Int) ∣ dstAddr)
    (hsrcAddr : (align VEC : Int) ∣ srcAddr) :
    ∀ w ∈ runGatherKernel p VEC, w.Exact dtype align dstAddr srcAddr := by
  intro w hw
  obtain ⟨j, -, rfl⟩ := List.mem_map.mp hw
  exact move_exact halign hdstAddr hsrcAddr (dvd_mul_left _ _)
    (dvd_add (hVEC.runOffset _) (Int.natCast_dvd_natCast.mpr (Nat.dvd_mul_left ..)))

theorem permuteCopyRowloopKernel_exact (hVEC : p.WholeVectors 4)
    (halign : align 4 ∣ 4 * dtype.sizeOf) (hdstAddr : (align 4 : Int) ∣ dstAddr)
    (hsrcAddr : (align 4 : Int) ∣ srcAddr) :
    ∀ w ∈ permuteCopyRowloopKernel p, w.Exact dtype align dstAddr srcAddr := by
  intro w hw
  simp only [permuteCopyRowloopKernel, List.mem_flatMap, List.mem_map] at hw
  obtain ⟨r, -, j, -, rfl⟩ := hw
  have hmul : ∀ n : Nat, ((4 : Nat) : Int) ∣ (n * 4 : Nat) := fun n =>
    Int.natCast_dvd_natCast.mpr (Nat.dvd_mul_left ..)
  exact move_exact halign hdstAddr hsrcAddr (dvd_add (hmul _) (hmul _))
    (dvd_add (hVEC.runOffset r) (hmul j))

theorem permuteCopyKernel_exact :
    ∀ w ∈ permuteCopyKernel p, w.Exact dtype align dstAddr srcAddr := by
  intro w hw
  obtain ⟨i, -, rfl⟩ := List.mem_map.mp hw
  exact Work.move_exact (fun h => absurd h (by decide)) fun h => absurd h (by decide)

end Permutation

/-! ## Routes of `_copy_strided` -/

/-- The rounds copy a layout, with vectors of the alignment. -/
structure Route (ws : List Work) (ds : List (Dim (Int × Int))) (dtype : BitsType)
    (align : Nat → Nat) (dstAddr srcAddr : Int) : Prop where
  copied : copied ws = (offsets ds : List (Int × Int))
  exact : ∀ w ∈ ws, w.Exact dtype align dstAddr srcAddr

theorem Route.of_offsets {ws : List Work} {ds ds' : List (Dim (Int × Int))}
    (h : Route ws ds dtype align dstAddr srcAddr) (heq : offsets ds' = offsets ds) :
    Route ws ds' dtype align dstAddr srcAddr :=
  ⟨h.copied.trans (congrArg _ heq.symm), h.exact⟩

/-- The bytes of a vector. -/
def vectorBytes (dtype : BitsType) (width : Nat) : Nat := width * dtype.sizeOf

theorem ceildiv_cover (n : Nat) {a b : Nat} (h : 0 < a * b) :
    n ≤ ceildiv n (a * b) * b * a := by
  rw [Nat.mul_assoc, Nat.mul_comm b a]
  exact ceildiv_mul_ge h

theorem copyRows_route {rows cols : Nat} {pitch : Int} (hrows : 0 < rows)
    (hdtype : dtype = .uint16 ∨ dtype = .uint32) :
    Route (copyRows dtype dstAddr srcAddr rows cols pitch)
      [⟨rows, ((cols : Int), pitch)⟩, ⟨cols, ((1 : Int), (1 : Int))⟩] dtype (vectorBytes dtype)
      dstAddr srcAddr := by
  have hgy : 0 < min rows MAX_GRID_Y := Nat.lt_min.mpr ⟨hrows, by decide⟩
  have hscalar : cols = cols * 1 := (Nat.mul_one _).symm
  obtain rfl | rfl := hdtype
  · unfold copyRows
    dsimp only
    split
    · rename_i hvec
      obtain ⟨hdst, hsrc, hcols, hpitch⟩ := hvec
      obtain ⟨n, rfl⟩ := Nat.dvd_of_mod_eq_zero hcols
      rw [Nat.mul_comm 8 n]
      have hcover : n ≤ ceildiv (n * 8) (256 * 8) * 1 * 256 := by
        have hge := ceildiv_cover (n * 8) (show 0 < 256 * 8 by decide)
        omega
      refine ⟨copied_copyRowStridedBody pitch (by decide) (.inl ⟨rfl, rfl⟩) hgy hcover,
        copyRowStridedBody_exact (.inl ⟨rfl, rfl⟩) fun _ => ⟨rfl, ?_, ?_, ?_⟩⟩
      · exact Int.dvd_of_emod_eq_zero hdst
      · exact Int.dvd_of_emod_eq_zero hsrc
      · exact Int.dvd_of_emod_eq_zero hpitch
    · have hcover : cols ≤ ceildiv (cols * 1) 256 * 1 * 256 := by
        rw [Nat.mul_one, Nat.mul_one]
        exact ceildiv_mul_ge (by decide)
      rw [hscalar]
      exact ⟨copied_copyRowStridedBody pitch (by decide) (.inl ⟨rfl, rfl⟩) hgy hcover,
        copyRowStridedBody_exact (.inl ⟨rfl, rfl⟩) fun h => absurd h (by decide)⟩
  · unfold copyRows
    dsimp only
    split
    · rename_i hvec
      obtain ⟨hdst, hsrc, hcols, hpitch⟩ := hvec
      obtain ⟨n, rfl⟩ := Nat.dvd_of_mod_eq_zero hcols
      rw [Nat.mul_comm 4 n]
      have hcover : n ≤ ceildiv (n * 4) (256 * 4) * 1 * 256 := by
        have hge := ceildiv_cover (n * 4) (show 0 < 256 * 4 by decide)
        omega
      refine ⟨copied_copyRowStridedBody pitch (by decide) (.inr rfl) hgy hcover,
        copyRowStridedBody_exact (.inr rfl) fun _ => ⟨rfl, ?_, ?_, ?_⟩⟩
      · exact Int.dvd_of_emod_eq_zero hdst
      · exact Int.dvd_of_emod_eq_zero hsrc
      · exact Int.dvd_of_emod_eq_zero hpitch
    · have hcover : cols ≤ ceildiv (cols * 1) (256 * 4) * 4 * 256 := by
        rw [Nat.mul_one]
        exact ceildiv_cover cols (by decide)
      rw [hscalar]
      exact ⟨copied_copyRowStridedBody pitch (by decide) (.inr rfl) hgy hcover,
        copyRowStridedBody_exact (.inr rfl) fun h => absurd h (by decide)⟩

theorem t2dvVec_bytes (dtype : BitsType) : t2dvVec dtype * dtype.sizeOf = 16 := by
  cases dtype <;> rfl

theorem t2dTile_pos (dtype : BitsType) : 0 < t2dTile dtype := by
  cases dtype <;> decide

theorem transposeVec_route {rows cols : Nat} {ld : Int} {batch : Nat} {dstBstride srcBstride : Int}
    {gx gz : Nat} (hgx : 0 < gx) (hgz : 0 < gz) (hdst : dstAddr % 16 = 0) (hsrc : srcAddr % 16 = 0)
    (hrows : t2dvVec dtype ∣ rows) (hcols : t2dvVec dtype ∣ cols)
    (hld : (t2dvVec dtype : Int) ∣ ld) (hdstBstride : (t2dvVec dtype : Int) ∣ dstBstride)
    (hsrcBstride : (t2dvVec dtype : Int) ∣ srcBstride) :
    Route (transpose2dVecKernel (t2dvVec dtype) gx gz rows cols ld batch dstBstride srcBstride)
      [⟨batch, (dstBstride, srcBstride)⟩, ⟨rows, ((cols : Int), (1 : Int))⟩,
        ⟨cols, ((1 : Int), ld)⟩] dtype (vectorBytes dtype) dstAddr srcAddr := by
  have hVEC : 0 < t2dvVec dtype := by
    cases dtype <;> decide
  refine ⟨?_, transpose2dVecKernel_exact rfl ?_ ?_ (Int.natCast_dvd_natCast.mpr hcols) hld
    hdstBstride hsrcBstride⟩
  · obtain ⟨r, rfl⟩ := hrows
    obtain ⟨c, rfl⟩ := hcols
    rw [Nat.mul_comm _ r, Nat.mul_comm _ c]
    exact copied_transpose2dVecKernel r c ld batch dstBstride srcBstride hVEC hgx hgz
  · rw [t2dvVec_bytes]
    exact Int.dvd_of_emod_eq_zero hdst
  · rw [t2dvVec_bytes]
    exact Int.dvd_of_emod_eq_zero hsrc

theorem transposeTile_route {rows cols : Nat} {ld : Int} {batch : Nat} {dstBstride srcBstride : Int}
    {gx gy gz : Nat} (tile : Nat → Int) (hgx : cols ≤ gx * t2dTile dtype) (hgy : 0 < gy)
    (hgz : 0 < gz) :
    Route (transpose2dKernel tile (t2dTile dtype) gx gy gz rows cols ld batch dstBstride srcBstride)
      [⟨batch, (dstBstride, srcBstride)⟩, ⟨rows, ((cols : Int), (1 : Int))⟩,
        ⟨cols, ((1 : Int), ld)⟩] dtype align dstAddr srcAddr :=
  ⟨copied_transpose2dKernel tile ld batch dstBstride srcBstride (t2dTile_pos dtype) hgx hgy hgz,
    transpose2dKernel_exact (t2dTile_pos dtype)⟩

namespace Layout

variable (l : Layout)

theorem dims_eq : l.dims = [⟨l.shape 0, (l.dstStrides 0, l.srcStrides 0)⟩,
    ⟨l.shape 1, (l.dstStrides 1, l.srcStrides 1)⟩, ⟨l.shape 2, (l.dstStrides 2, l.srcStrides 2)⟩,
    ⟨l.shape 3, (l.dstStrides 3, l.srcStrides 3)⟩, ⟨l.shape 4, (l.dstStrides 4, l.srcStrides 4)⟩,
    ⟨l.shape 5, (l.dstStrides 5, l.srcStrides 5)⟩, ⟨l.shape 6, (l.dstStrides 6, l.srcStrides 6)⟩,
    ⟨l.shape 7, (l.dstStrides 7, l.srcStrides 7)⟩] := rfl

variable {l}

theorem offsets_rows {device : Device} (h : l.rowsOk device dtype) : offsets l.dims =
    offsets [⟨l.shape 6, ((l.shape 7 : Int), l.srcStrides 6)⟩,
      ⟨l.shape 7, ((1 : Int), (1 : Int))⟩] := by
  obtain ⟨-, -, -, hone, h7, h6, hs7, -⟩ := h
  rw [dims_eq, offsets_one (hone 0 (by decide)), offsets_one (hone 1 (by decide)),
    offsets_one (hone 2 (by decide)), offsets_one (hone 3 (by decide)),
    offsets_one (hone 4 (by decide)), offsets_one (hone 5 (by decide)), h7, h6, hs7]

/-- A batch of one has no stride. -/
theorem offsets_transposed (h : l.transposed) : offsets l.dims =
    offsets [⟨l.shape 5, (if l.shape 5 > 1 then l.dstStrides 5 else 0,
        if l.shape 5 > 1 then l.srcStrides 5 else 0)⟩,
      ⟨l.shape 6, ((l.shape 7 : Int), (1 : Int))⟩, ⟨l.shape 7, ((1 : Int), l.srcStrides 7)⟩] := by
  obtain ⟨hone, -, -, -, h7, h6, hs6, -, -⟩ := h
  rw [dims_eq, offsets_one (hone 0 (by decide)), offsets_one (hone 1 (by decide)),
    offsets_one (hone 2 (by decide)), offsets_one (hone 3 (by decide)),
    offsets_one (hone 4 (by decide)), h7, h6, hs6]
  by_cases hbatch : l.shape 5 > 1
  · rw [if_pos hbatch, if_pos hbatch]
  · obtain hzero | hbatch : l.shape 5 = 0 ∨ l.shape 5 = 1 := by omega
    · simp [offsets, hzero]
    · rw [offsets_one (d := ⟨l.shape 5, _⟩) hbatch, offsets_one (d := ⟨l.shape 5, _⟩) hbatch]

theorem pos_of_count (h : count l.dims ≠ 0) (i : Fin MAX_RANK) : 0 < l.shape i := by
  refine Nat.pos_of_ne_zero fun hzero => h (List.prod_eq_zero ?_)
  exact List.mem_map.mpr ⟨_, List.mem_ofFn.mpr ⟨i, rfl⟩, hzero⟩

variable (l)

theorem copyStrided_route (device : Device) (tile : Nat → Int) :
    Route (copyStrided device dtype tile dstAddr srcAddr l) l.dims dtype (vectorBytes dtype)
      dstAddr srcAddr := by
  unfold copyStrided
  dsimp only
  split
  · rename_i hzero
    refine ⟨?_, fun w hw => absurd hw List.not_mem_nil⟩
    rw [copied_nil, List.length_eq_zero_iff.mp ((length_offsets l.dims).trans hzero)]
    rfl
  · rename_i htotal
    have hpos := l.pos_of_count htotal
    split
    · rename_i hrows
      exact (copyRows_route (hpos 6) hrows.1).of_offsets (offsets_rows hrows)
    · split
      · rename_i htransposed
        have hgz : 0 < min (l.shape 5) MAX_GRID_Y := Nat.lt_min.mpr ⟨hpos 5, by decide⟩
        refine Route.of_offsets ?_ (offsets_transposed htransposed)
        split
        · rename_i hvec
          obtain ⟨-, hrows, hcols, hld, hdst, hsrc, hbatch⟩ := hvec
          obtain ⟨-, -, -, -, -, -, -, -, hpitch⟩ := htransposed
          refine transposeVec_route (Nat.lt_of_lt_of_le Nat.one_pos (Nat.le_max_left _ _)) hgz hdst
            hsrc (Nat.dvd_of_mod_eq_zero hrows) (Nat.dvd_of_mod_eq_zero hcols)
            (Int.dvd_of_emod_eq_zero hld) ?_ ?_
          · split
            · rename_i hlong
              rw [(hpitch.resolve_left (by omega)).1]
              exact dvd_mul_of_dvd_right
                (Int.natCast_dvd_natCast.mpr (Nat.dvd_of_mod_eq_zero hcols)) _
            · exact dvd_zero _
          · split
            · rename_i hlong
              exact Int.dvd_of_emod_eq_zero (hbatch.resolve_left (by omega))
            · exact dvd_zero _
        · refine transposeTile_route tile (ceildiv_mul_ge (t2dTile_pos dtype)) ?_ hgz
          exact Nat.lt_min.mpr ⟨ceildiv_pos (hpos 6) (t2dTile_pos dtype), by decide⟩
      · exact ⟨copied_copyStridedKernel _, copyStridedKernel_exact⟩

end Layout

/-! ## Routes of `_permute_copy` -/

/-- The bytes a vector of a permuted copy is aligned to: those of the vector, but 16 for a gather
of 32. -/
def gatherBytes (device : Device) (dtype : BitsType) (width : Nat) : Nat :=
  if device.apple = false ∧ width * dtype.sizeOf = 32 then 16 else width * dtype.sizeOf

/-- The widths of a gather are of 32, 16 or 8 bytes. -/
theorem gatherWidths_bytes {device : Device} {VEC : Nat} (h : VEC ∈ gatherWidths device dtype) :
    device.apple = false ∧ VEC * dtype.sizeOf = 32 ∨ VEC * dtype.sizeOf = 16 ∨
      VEC * dtype.sizeOf = 8 := by
  have hdvd : dtype.sizeOf ∣ 8 := by
    cases dtype <;> decide
  obtain h | h := List.mem_append.mp h
  · split at h
    · exact absurd h List.not_mem_nil
    · rename_i happle
      obtain rfl := List.mem_singleton.mp h
      exact .inl ⟨Bool.eq_false_iff.mpr happle, Nat.div_mul_cancel (hdvd.trans (by decide))⟩
  · obtain rfl | h := List.mem_cons.mp h
    · exact .inr (.inl (Nat.div_mul_cancel (hdvd.trans (by decide))))
    · obtain rfl := List.mem_singleton.mp h
      exact .inr (.inr (Nat.div_mul_cancel hdvd))

/-- They have the alignment that they ask for. -/
theorem gatherBytes_eq {device : Device} {VEC : Nat} (h : VEC ∈ gatherWidths device dtype) :
    0 < VEC ∧ ALIGN dtype VEC ∣ VEC * dtype.sizeOf ∧
      gatherBytes device dtype VEC = ALIGN dtype VEC := by
  unfold gatherBytes ALIGN
  have hbytes := gatherWidths_bytes h
  refine ⟨Nat.pos_of_ne_zero fun hzero => ?_, ?_, ?_⟩
  · rw [hzero, Nat.zero_mul] at hbytes
    omega
  · obtain ⟨-, h32⟩ | h16 | h8 := hbytes
    · rw [h32]
      decide
    · rw [h16]
      decide
    · rw [h8]
      decide
  · obtain ⟨happle, h32⟩ | h16 | h8 := hbytes
    · rw [if_pos ⟨happle, h32⟩, h32]
      rfl
    · rw [if_neg fun h => absurd (h16.symm.trans h.2) (by decide), h16]
      rfl
    · rw [if_neg fun h => absurd (h8.symm.trans h.2) (by decide), h8]
      rfl

namespace Permutation

variable {p : Permutation}

theorem total_eq (p : Permutation) : count p.dims = p.total := by
  simp only [dims, count_cons, count_nil, total]
  ring

/-- The two leading dimensions are one batch. -/
theorem offsets_transposed (h : p.transposed) : offsets p.dims =
    offsets [⟨p.d0 * p.d1, (((p.d2 : Int) * p.d3), if p.d0 * p.d1 > 1 then p.s1 else 0)⟩,
      ⟨p.d2, ((p.d3 : Int), (1 : Int))⟩, ⟨p.d3, ((1 : Int), p.s3)⟩] := by
  obtain ⟨-, -, htotal, hs2, -, hs0, -⟩ := h
  have hpos : 0 < p.d0 * p.d1 := by
    refine Nat.pos_of_ne_zero fun hzero => ?_
    rw [total, hzero, Nat.zero_mul, Nat.zero_mul] at htotal
    exact absurd htotal (by decide)
  have hmerge : offsets p.dims = offsets [⟨p.d0 * p.d1, (((p.d2 : Int) * p.d3), p.s1)⟩,
      ⟨p.d2, ((p.d3 : Int), (1 : Int))⟩, ⟨p.d3, ((1 : Int), p.s3)⟩] := by
    unfold dims
    rw [hs2, Nat.cast_mul p.d2]
    obtain hone | hs0 := hs0
    · rw [offsets_one (d := ⟨p.d0, _⟩) hone, hone, Nat.one_mul]
    · have htiles : (((p.d1 * p.d2 * p.d3 : Nat) : Int), p.s0) =
          p.d1 • ((p.d2 : Int) * p.d3, p.s1) := by
        refine Prod.ext ?_ ?_
        · simp [mul_assoc]
        · simp [hs0]
      rw [htiles]
      exact offsets_merge p.d0 ⟨p.d1, ((p.d2 : Int) * p.d3, p.s1)⟩ _
  rw [hmerge]
  by_cases hbatch : p.d0 * p.d1 > 1
  · rw [if_pos hbatch]
  · have hone : p.d0 * p.d1 = 1 := by omega
    rw [offsets_one (d := ⟨p.d0 * p.d1, _⟩) hone, offsets_one (d := ⟨p.d0 * p.d1, _⟩) hone]

theorem permuteCopy_route (p : Permutation) (device : Device) (tile : Nat → Int) :
    Route (permuteCopy device dtype tile dstAddr srcAddr p) p.dims dtype (gatherBytes device dtype)
      dstAddr srcAddr := by
  unfold permuteCopy
  split
  · rename_i happle
    obtain ⟨happle, -, hs3, hd3, ⟨hs0, hs1, hs2⟩, hdst, hsrc⟩ := happle
    have hbytes : gatherBytes device dtype 4 = 4 * dtype.sizeOf :=
      if_neg fun h => absurd (h.1.symm.trans happle) (by decide)
    have hwhole : p.WholeVectors 4 :=
      ⟨Int.dvd_of_emod_eq_zero hs0, Int.dvd_of_emod_eq_zero hs1, Int.dvd_of_emod_eq_zero hs2⟩
    have hdst := Int.dvd_of_emod_eq_zero hdst
    have hsrc := Int.dvd_of_emod_eq_zero hsrc
    rw [← hbytes] at hdst hsrc
    have hdvd : gatherBytes device dtype 4 ∣ 4 * dtype.sizeOf := hbytes ▸ Nat.dvd_refl _
    split
    · exact ⟨copied_permuteCopyRowloopKernel (Nat.dvd_of_mod_eq_zero hd3) hs3,
        permuteCopyRowloopKernel_exact hwhole hdvd hdst hsrc⟩
    · exact ⟨copied_runGatherKernel (by decide) (Nat.dvd_of_mod_eq_zero hd3) hs3,
        runGatherKernel_exact hwhole hdvd hdst hsrc⟩
  · split
    · rename_i VEC hfind
      obtain ⟨hguard, hfind⟩ := Option.ite_none_right_eq_some.mp hfind
      have hok := List.find?_some hfind
      obtain ⟨hd3, hs0, hs1, hs2, hdst, hsrc⟩ := of_decide_eq_true hok
      obtain ⟨hpos, hdvd, hbytes⟩ := gatherBytes_eq (List.mem_of_find?_eq_some hfind)
      refine ⟨copied_runGatherKernel hpos (Nat.dvd_of_mod_eq_zero hd3) hguard.1,
        runGatherKernel_exact ⟨Int.dvd_of_emod_eq_zero hs0, Int.dvd_of_emod_eq_zero hs1,
          Int.dvd_of_emod_eq_zero hs2⟩ (hbytes ▸ hdvd) ?_ ?_⟩
      · rw [hbytes]
        exact Int.dvd_of_emod_eq_zero hdst
      · rw [hbytes]
        exact Int.dvd_of_emod_eq_zero hsrc
    · split
      · rename_i htransposed
        refine Route.of_offsets ?_ (offsets_transposed htransposed)
        obtain ⟨hd2, -, htotal, -⟩ := htransposed
        refine transposeTile_route tile (ceildiv_mul_ge (t2dTile_pos dtype)) ?_ ?_
        · exact Nat.lt_min.mpr ⟨ceildiv_pos (by omega) (t2dTile_pos dtype), by decide⟩
        · refine Nat.lt_min.mpr ⟨Nat.pos_of_ne_zero fun hzero => ?_, by decide⟩
          rw [total, hzero, Nat.zero_mul, Nat.zero_mul] at htotal
          exact absurd htotal (by decide)
      · exact ⟨copied_permuteCopyKernel p, permuteCopyKernel_exact⟩

end Permutation

/-! ## Index tuples -/

/-- The rounds write the element of each index tuple once, with the source's element at the
tuple, and nothing else. -/
structure Copies {ι : Type} (ws : List Work) (index : ι → Prop) (dst src : ι → Int) : Prop where
  once : ((ws.flatMap Work.elements).map Prod.fst).Nodup
  elements : ∀ e, e ∈ ws.flatMap Work.elements ↔ ∃ x, index x ∧ e = (dst x, src x)

/-- What the stores of the rounds leave of the destination, in any order. -/
theorem Copies.memory {ι : Type} {V : Type} {ws : List Work} {index : ι → Prop} {dst src : ι → Int}
    (h : Copies ws index dst src) {source m m' : Int → V}
    (hstores : Stores ((ws.flatMap Work.elements).map fun e => (e.1, source e.2)) m m') :
    (∀ x, index x → m' (dst x) = source (src x)) ∧
      ∀ o, (∀ x, index x → dst x ≠ o) → m' o = m o := by
  refine ⟨fun x hx => ?_, fun o ho => hstores.map_off fun e he => ?_⟩
  · refine hstores.map_at (i := (dst x, src x)) ?_ ((h.elements _).mpr ⟨x, hx, rfl⟩)
    exact fun a ha b hb heq => List.inj_on_of_nodup_map h.once ha hb heq
  · obtain ⟨x, hx, rfl⟩ := (h.elements e).mp he
    exact ho x hx

theorem Route.copies {ι : Type} {ws : List Work} {ds : List (Dim (Int × Int))} {index : ι → Prop}
    {dst src : ι → Int} (h : Route ws ds dtype align dstAddr srcAddr)
    (hmem : ∀ e, e ∈ offsets ds ↔ ∃ x, index x ∧ e = (dst x, src x))
    (hnodup : ((offsets ds).map Prod.fst).Nodup) : Copies ws index dst src := by
  have hperm : (ws.flatMap Work.elements).Perm (offsets ds) := Multiset.coe_eq_coe.mp h.copied
  exact ⟨(hperm.map Prod.fst).nodup_iff.mpr hnodup, fun e => hperm.mem_iff.trans (hmem e)⟩

/-- The offset of an index tuple. -/
def offsetOf {n : Nat} (strides : Fin n → Int) (x : Fin n → Nat) : Int := ∑ i, x i * strides i

theorem offsets_pairs {n : Nat} (shape : Fin n → Nat) (dst src : Fin n → Int) :
    offsets (List.ofFn fun i => ⟨shape i, (dst i, src i)⟩) =
      (tuples shape).map fun x => (offsetOf dst x, offsetOf src x) := by
  refine (offsets_ofFn _).trans (List.map_congr_left fun x _ => Prod.ext ?_ ?_)
  · simp [offsetOf, Prod.fst_sum]
  · simp [offsetOf, Prod.snd_sum]

theorem mem_offsets_pairs {n : Nat} (shape : Fin n → Nat) (dst src : Fin n → Int) (e : Int × Int) :
    e ∈ offsets (List.ofFn fun i => ⟨shape i, (dst i, src i)⟩) ↔
      ∃ x : Fin n → Nat, (∀ i, x i < shape i) ∧ e = (offsetOf dst x, offsetOf src x) := by
  rw [offsets_pairs, List.mem_map]
  exact exists_congr fun x => and_congr mem_tuples eq_comm

namespace Layout

variable (l : Layout)

/-- An index tuple of the shape. -/
def Index (x : Fin MAX_RANK → Nat) : Prop := ∀ i, x i < l.shape i

/-- Index tuples have addresses of their own. -/
def Distinct : Prop :=
  ∀ x y, l.Index x → l.Index y → offsetOf l.dstStrides x = offsetOf l.dstStrides y → x = y

variable {l} in
theorem nodup_dst (h : l.Distinct) : ((offsets l.dims).map Prod.fst).Nodup := by
  rw [dims, offsets_pairs, List.map_map]
  refine (nodup_tuples _).map_on fun x hx y hy heq => ?_
  exact h x y (mem_tuples.mp hx) (mem_tuples.mp hy) heq

end Layout

namespace Permutation

variable (p : Permutation)

def shape : Fin 4 → Nat := ![p.d0, p.d1, p.d2, p.d3]

/-- The strides of the output, which is contiguous. -/
def outStrides : Fin 4 → Int :=
  ![((p.d1 * p.d2 * p.d3 : Nat) : Int), ((p.d2 * p.d3 : Nat) : Int), p.d3, 1]

def inStrides : Fin 4 → Int := ![p.s0, p.s1, p.s2, p.s3]

/-- An index tuple of the output. -/
def Index (x : Fin 4 → Nat) : Prop := ∀ i, x i < p.shape i

theorem dims_eq :
    p.dims = List.ofFn fun i => ⟨p.shape i, (p.outStrides i, p.inStrides i)⟩ := rfl

theorem nodup_dst : ((offsets p.dims).map Prod.fst).Nodup := by
  have hfst : ((offsets p.dims : Multiset (Int × Int)).map Prod.fst) =
      (Multiset.range (p.runs * p.d3)).map fun i : Nat => (i : Int) := by
    rw [coe_offsets, ← Multiset.bind_singleton (Multiset.range _), bind_range_mul]
    simp only [Multiset.map_bind, Multiset.map_singleton]
  rw [Multiset.map_coe] at hfst
  rw [← Multiset.coe_nodup, hfst]
  exact (Multiset.nodup_range _).map fun i j heq => Int.ofNat_inj.mp heq

end Permutation

/-- Whichever kernel is launched, the element of each index tuple is written once, with the
source's element at the tuple; vector accesses are aligned to their widths, but a gather's
accesses of 32 bytes only to 16. -/
theorem copies_exact (device : Device) (dtype : BitsType) (tile : Nat → Int)
    (dstAddr srcAddr : Int) :
    (∀ l : Layout, l.Distinct →
      Copies (copyStrided device dtype tile dstAddr srcAddr l) l.Index (offsetOf l.dstStrides)
        (offsetOf l.srcStrides) ∧
      ∀ w ∈ copyStrided device dtype tile dstAddr srcAddr l,
        w.Exact dtype (vectorBytes dtype) dstAddr srcAddr) ∧
    ∀ p : Permutation,
      Copies (permuteCopy device dtype tile dstAddr srcAddr p) p.Index (offsetOf p.outStrides)
        (offsetOf p.inStrides) ∧
      ∀ w ∈ permuteCopy device dtype tile dstAddr srcAddr p,
        w.Exact dtype (gatherBytes device dtype) dstAddr srcAddr := by
  refine ⟨fun l hdistinct => ?_, fun p => ?_⟩
  · have hroute := @Layout.copyStrided_route dtype dstAddr srcAddr l device tile
    exact ⟨hroute.copies (mem_offsets_pairs _ _ _) (Layout.nodup_dst hdistinct), hroute.exact⟩
  · have hroute := @Permutation.permuteCopy_route dtype dstAddr srcAddr p device tile
    exact ⟨hroute.copies (mem_offsets_pairs p.shape p.outStrides p.inStrides) p.nodup_dst,
      hroute.exact⟩

/-- Two rows of three elements, read against both dimensions. -/
def reversedLayout : Layout where
  shape := ![1, 1, 1, 1, 1, 1, 2, 3]
  dstStrides := ![0, 0, 0, 0, 0, 0, 3, 1]
  srcStrides := ![0, 0, 0, 0, 0, 0, -3, -1]

theorem reversedLayout_distinct : reversedLayout.Distinct := by
  intro x y hx hy heq
  have hsum : ∀ x : Fin MAX_RANK → Nat,
      offsetOf reversedLayout.dstStrides x = x 6 * 3 + x 7 := by
    intro x
    refine (Fin.sum_univ_eight fun i : Fin 8 => (x i : Int) * reversedLayout.dstStrides i).trans ?_
    simp [reversedLayout]
    rfl
  rw [hsum, hsum] at heq
  funext i
  have hslot : ∀ i : Fin MAX_RANK, reversedLayout.shape i = 1 ∨ i = 6 ∨ i = 7 := by decide
  have hx7 : x 7 < 3 := hx 7
  have hy7 : y 7 < 3 := hy 7
  obtain hone | rfl | rfl := hslot i
  · have hxi := hx i
    have hyi := hy i
    rw [hone] at hxi hyi
    omega
  · omega
  · omega

theorem copies_exact_reversed :
    Copies (copyStrided ⟨true, true, false⟩ .uint32 (fun _ => 0) 4096 8212 reversedLayout)
      reversedLayout.Index (offsetOf reversedLayout.dstStrides)
      (offsetOf reversedLayout.srcStrides) :=
  ((copies_exact ⟨true, true, false⟩ .uint32 (fun _ => 0) 4096 8212).1 reversedLayout
    reversedLayout_distinct).1

/-- `view(1, 32, 4, 8).transpose(1, 2)`. -/
def headsPermutation : Permutation := ⟨1, 4, 32, 8, 1024, 8, 32, 1⟩

/-- A gather loads 32 bytes from an address that is aligned to 16 only. -/
theorem gather_misaligned : ∃ w ∈ permuteCopy ⟨true, true, false⟩ .uint32 (fun _ => 0) 16 4112
      headsPermutation, ∃ x ∈ w.loads, 1 < x.2 ∧
        ¬ (vectorBytes .uint32 x.2 : Int) ∣ 4112 + x.1 * (BitsType.uint32.sizeOf : Nat) := by
  have hroute : permuteCopy ⟨true, true, false⟩ .uint32 (fun _ => 0) 16 4112 headsPermutation =
      runGatherKernel headsPermutation 8 := rfl
  rw [hroute]
  refine ⟨_, List.mem_map.mpr ⟨0, (mem_gridItems (gsBlocks_pos _)).mpr (by decide), rfl⟩, _,
    List.mem_singleton.mpr rfl, by decide, by decide⟩

end TorchMojoBackend.Kernels.StridedCopy
