/-
  `Kernels.PoolMax`: max pooling and its two backwards.

  Where every window meets the input, the saved index of an output is a position of its
  window that holds the output.  Each backward then gives a position the gradients of the
  outputs that saved it, and a plane keeps its total.
-/
import TorchMojoBackend.Kernels.PoolWindows

set_option autoImplicit false

namespace TorchMojoBackend.Kernels.Pool

open TorchMojoBackend.Foundation

attribute [local instance] intOrder neZero_three

universe u v w

/-- A point of the window of an output. -/
def InBox (adaptive : Bool) (g : Geom) (o x : Int × Int × Int) : Prop :=
  InWindow adaptive g 0 o.1 x.1 ∧ InWindow adaptive g 1 o.2.1 x.2.1 ∧
    InWindow adaptive g 2 o.2.2 x.2.2

/-- Every window meets the input. -/
def Meets (adaptive : Bool) (g : Geom) : Prop :=
  ∀ dim o, 0 ≤ o → o < g.out dim → ∃ x, InWindow adaptive g dim o x

/-- Saved indices that are positions of their windows. -/
def Saves (adaptive : Bool) (g : Geom) (idx : Int → Int) : Prop :=
  ∀ p ∈ Finset.Ico 0 g.planes, ∀ o ∈ volume g.out,
    ∃ x, InBox adaptive g o x ∧ idx (volumeIndex g.out p o) = cellIndex g.in_ x

/-- The outputs that saved a position. -/
def savers (g : Geom) (idx : Int → Int) (j : Int) : Finset Int :=
  (Finset.Ico 0 (g.planes * outPlane g)).filter fun i =>
    i / outPlane g = j / inPlane g ∧ idx i = j % inPlane g

variable {adaptive : Bool} {g : Geom} {o x : Int × Int × Int} {p : Int}

theorem InBox.mem_volume (h : InBox adaptive g o x) (hg : g.Sized) (ho : o ∈ volume g.out) :
    x ∈ volume g.in_ := by
  obtain ⟨⟨hd, hdlt⟩, ⟨hh, hhlt⟩, hw, hwlt⟩ := Foundation.mem_volume.mp ho
  exact Foundation.mem_volume.mpr
    ⟨h.1.bounds hg hd hdlt, h.2.1.bounds hg hh hhlt, h.2.2.bounds hg hw hwlt⟩

/-! ## The forward -/

section
variable {α : Type u} {V : Type v} [LinearOrder V] [Scalar α V]

/-- The loops keep what they start with, or a position that they visit. -/
theorem foldl_visit (input : Int → α) (base : Int) (positions : List Int) (acc : α × Int) :
    (positions.foldl (visit input base) acc = acc ∧ ∀ q ∈ positions,
      Scalar.gt (input (base + q)) acc.1 = false ∧ Scalar.isNaN (input (base + q)) = false) ∨
    ∃ q ∈ positions, positions.foldl (visit input base) acc = (input (base + q), q) := by
  induction positions generalizing acc with
  | nil => exact .inl ⟨rfl, fun q hq => absurd hq List.not_mem_nil⟩
  | cons q positions ih =>
      rw [List.foldl_cons]
      by_cases htake : (Scalar.gt (input (base + q)) acc.1 || Scalar.isNaN (input (base + q))) = true
      · have hstep : visit input base acc q = (input (base + q), q) := if_pos htake
        rw [hstep]
        obtain ⟨hstay, -⟩ | ⟨r, hr, heq⟩ := ih (input (base + q), q)
        · exact .inr ⟨q, List.mem_cons_self, hstay⟩
        · exact .inr ⟨r, List.mem_cons_of_mem _ hr, heq⟩
      · have hstep : visit input base acc q = acc := if_neg htake
        rw [hstep]
        obtain ⟨hstay, hall⟩ | ⟨r, hr, heq⟩ := ih acc
        · refine .inl ⟨hstay, List.forall_mem_cons.mpr ⟨?_, hall⟩⟩
          rwa [Bool.not_eq_true, Bool.or_eq_false_iff] at htake
        · exact .inr ⟨r, List.mem_cons_of_mem _ hr, heq⟩

variable [MinOrNegInf α]

/-- From the first position and the least scalar, the loops end at a position that they
visit and at what it holds. -/
theorem foldl_visit_saved (input : Int → α) (base : Int) {positions : List Int} {first : Int}
    (hfirst : first ∈ positions) : ∃ q ∈ positions,
      positions.foldl (visit input base) (minOrNegInf, first) = (input (base + q), q) := by
  obtain ⟨hstay, hall⟩ | hsaved := foldl_visit input base positions (minOrNegInf, first)
  · obtain ⟨hgt, hnan⟩ := hall first hfirst
    refine ⟨first, hfirst, ?_⟩
    rw [hstay, MinOrNegInf.eq_of_not_gt _ hgt hnan]
  · exact hsaved

end

/-- The loops visit the points of the window. -/
theorem mem_visited (hg : adaptive = false → g.Windowed) (hs : g.Sized) {q : Int} :
    q ∈ visited adaptive g o.1 o.2.1 o.2.2 ↔
      ∃ x, InBox adaptive g o x ∧ q = cellIndex g.in_ x := by
  unfold visited InBox cellIndex
  simp only [List.mem_flatMap, List.mem_map, mem_taps adaptive hg (hs.out_pos _)]
  constructor
  · rintro ⟨d, hd, h, hh, w, hw, rfl⟩
    exact ⟨(d, h, w), ⟨hd, hh, hw⟩, rfl⟩
  · rintro ⟨x, ⟨hd, hh, hw⟩, rfl⟩
    exact ⟨x.1, hd, x.2.1, hh, x.2.2, hw, rfl⟩

/-- The saved index of an output, and what it holds. -/
theorem maxPool_saved {α : Type u} {V : Type v} [LinearOrder V] [Scalar α V] [MinOrNegInf α]
    (hg : adaptive = false → g.Windowed) (hs : g.Sized) (hmeets : Meets adaptive g)
    (ho : o ∈ volume g.out) (input : Int → α) :
    ∃ x, InBox adaptive g o x ∧
      maxPool adaptive g input (volumeIndex g.out p o) =
        (input (volumeIndex g.in_ p x), cellIndex g.in_ x) := by
  have hsplit : splitOut g (volumeIndex g.out p o) = (p, o) := volumeSplit_index ho
  obtain ⟨⟨hd, hdlt⟩, ⟨hh, hhlt⟩, hw, hwlt⟩ := mem_volume.mp ho
  have hstart : ∀ {dim : Fin 3} {c : Int}, 0 ≤ c → c < g.out dim →
      InWindow adaptive g dim c (window adaptive g dim c).1 := by
    intro dim c hc hlt
    obtain ⟨y, hy⟩ := hmeets dim c hc hlt
    have hmem := window_start_mem adaptive hg ((mem_taps adaptive hg (hs.out_pos dim)).mpr hy)
    exact (mem_taps adaptive hg (hs.out_pos dim)).mp hmem
  have hfirst := (mem_visited hg hs (o := o)).mpr
    ⟨((window adaptive g 0 o.1).1, (window adaptive g 1 o.2.1).1, (window adaptive g 2 o.2.2).1),
      ⟨hstart hd hdlt, hstart hh hhlt, hstart hw hwlt⟩, rfl⟩
  obtain ⟨q, hq, heq⟩ := foldl_visit_saved input (p * inPlane g) hfirst
  obtain ⟨x, hx, rfl⟩ := (mem_visited hg hs).mp hq
  refine ⟨x, hx, ?_⟩
  rw [volumeIndex_cell g.in_]
  unfold maxPool
  rw [hsplit]
  exact heq

/-! ## The backwards -/

section
variable {M : Type w} [AddCommMonoid M] {idx : Int → Int}

/-- The outputs that saved a point, plane by plane. -/
theorem sum_savers (hs : g.Sized) (gout : Int → M) (hp : p ∈ Finset.Ico 0 g.planes)
    (hx : x ∈ volume g.in_) :
    ∑ i ∈ savers g idx (volumeIndex g.in_ p x), gout i =
      ∑ o ∈ volume g.out, if idx (volumeIndex g.out p o) = cellIndex g.in_ x then
        gout (volumeIndex g.out p o) else 0 := by
  unfold savers
  rw [Finset.sum_filter]
  unfold outPlane inPlane
  rw [sum_volumes (fun dim => (hs.out_pos dim).le), volumeIndex_div hx, volumeIndex_mod hx]
  refine (Finset.sum_eq_single p ?_ fun h => absurd hp h).trans ?_
  · intro p' _ hne
    refine Finset.sum_eq_zero fun o ho => if_neg ?_
    rintro ⟨heq, -⟩
    rw [volumeIndex_div ho] at heq
    exact hne heq
  · refine Finset.sum_congr rfl fun o ho => ?_
    rw [volumeIndex_div ho]
    simp only [true_and]

/-- The gather of the 2-D form. -/
theorem maxPoolBackward_eq (hg : g.Windowed) (hidx : Saves false g idx) (gout : Int → M)
    (hp : p ∈ Finset.Ico 0 g.planes) (hx : x ∈ volume g.in_) :
    maxPoolBackward g gout idx (volumeIndex g.in_ p x) =
      ∑ i ∈ savers g idx (volumeIndex g.in_ p x), gout i := by
  have hsplit : splitIn g (volumeIndex g.in_ p x) = (p, x) := volumeSplit_index hx
  rw [sum_savers hg.toSized gout hp hx]
  unfold maxPoolBackward
  rw [hsplit]
  dsimp only
  rw [sum_box]
  refine Finset.sum_subset (fun o ho => ?_) fun o ho hout => if_neg fun heq => hout ?_
  · obtain ⟨hd, hhw⟩ := Finset.mem_product.mp ho
    obtain ⟨hh, hw⟩ := Finset.mem_product.mp hhw
    obtain ⟨hd, hdlt⟩ := Finset.mem_Ico.mp hd
    obtain ⟨hh, hhlt⟩ := Finset.mem_Ico.mp hh
    obtain ⟨hw, hwlt⟩ := Finset.mem_Ico.mp hw
    exact mem_volume.mpr ⟨maxOutRange_bounds hg hd hdlt, maxOutRange_bounds hg hh hhlt,
      maxOutRange_bounds hg hw hwlt⟩
  · -- an output that saved the position has it in its window
    obtain ⟨y, hy, hsaved⟩ := hidx p hp o ho
    obtain rfl : x = y := by
      refine cellIndex_inj hx (hy.mem_volume hg.toSized ho) ?_
      rw [← hsaved]
      exact heq.symm
    obtain ⟨⟨hd, hdlt⟩, ⟨hh, hhlt⟩, hw, hwlt⟩ := mem_volume.mp ho
    refine Finset.mem_product.mpr ⟨?_, Finset.mem_product.mpr ⟨?_, ?_⟩⟩
    · exact Finset.mem_Ico.mpr (mem_maxOutRange hg hd hdlt hy.1)
    · exact Finset.mem_Ico.mpr (mem_maxOutRange hg hh hhlt hy.2.1)
    · exact Finset.mem_Ico.mpr (mem_maxOutRange hg hw hwlt hy.2.2)

/-- What the scatter adds at a position. -/
theorem sum_amounts (hs : g.Sized) (hidx : Saves adaptive g idx) (gout : Int → M)
    (hp : p ∈ Finset.Ico 0 g.planes) (hx : x ∈ volume g.in_) :
    ((maxPoolScatter (g.planes * outPlane g) (outPlane g) (inPlane g) gout idx).map
      (amount (volumeIndex g.in_ p x))).sum =
        ∑ i ∈ savers g idx (volumeIndex g.in_ p x), gout i := by
  have hplanes : 0 < g.planes := by
    have := Finset.mem_Ico.mp hp
    omega
  have hout : 0 < outPlane g :=
    Int.mul_pos (Int.mul_pos (hs.out_pos 0) (hs.out_pos 1)) (hs.out_pos 2)
  have hcount : 0 < g.planes * outPlane g := Int.mul_pos hplanes hout
  have hthreads : 0 < (min ((g.planes * outPlane g + scatterBlock - 1) / scatterBlock)
      65535).toNat * scatterBlock := by
    have hblock : (scatterBlock : Int) = 256 := rfl
    rw [hblock]
    exact Nat.mul_pos (by omega) (by decide)
  unfold maxPoolScatter savers
  dsimp only
  rw [sum_map_filterMap, ((gridItems_perm _ hthreads).map _).sum_eq, sum_map_range,
    sum_range_cast (f := fun i => (if idx i ≥ 0 ∧ idx i < inPlane g then
      some (i / outPlane g * inPlane g + idx i, Update.add (gout i)) else none).elim 0
        (amount (volumeIndex g.in_ p x))), Finset.sum_filter]
  refine Finset.sum_congr rfl fun i hi => ?_
  obtain ⟨p', hp', o, ho, rfl⟩ := exists_volumeIndex (fun dim => (hs.out_pos dim).le) hi
  obtain ⟨y, hy, hsaved⟩ := hidx p' hp' o ho
  have hy := hy.mem_volume hs ho
  have hin : 0 ≤ cellIndex g.in_ y ∧ cellIndex g.in_ y < inPlane g :=
    Finset.mem_Ico.mp (cellIndex_mem hy)
  unfold outPlane
  rw [volumeIndex_div ho, hsaved, if_pos hin, Option.elim_some]
  unfold inPlane amount
  rw [← volumeIndex_cell, volumeIndex_div hx, volumeIndex_mod hx]
  refine if_congr ⟨fun heq => ?_, ?_⟩ rfl rfl
  · obtain ⟨rfl, rfl⟩ := volumeIndex_inj hy hx heq
    exact ⟨rfl, rfl⟩
  · rintro ⟨rfl, hcell⟩
    rw [cellIndex_inj hy hx hcell]

/-- The scatter of the 3-D and the adaptive form, in any order of its additions. -/
theorem maxPoolScatter_eq (hs : g.Sized) (hidx : Saves adaptive g idx) (gout : Int → M)
    (hp : p ∈ Finset.Ico 0 g.planes) (hx : x ∈ volume g.in_) {gin : Int → M}
    (hgin : Updates (maxPoolScatter (g.planes * outPlane g) (outPlane g) (inPlane g) gout idx)
      (fun _ => 0) gin) :
    gin (volumeIndex g.in_ p x) = ∑ i ∈ savers g idx (volumeIndex g.in_ p x), gout i := by
  rw [hgin.add_at fun w hw _ => ?_, zero_add, sum_amounts hs hidx gout hp hx]
  obtain ⟨i, -, hw⟩ := List.mem_filterMap.mp hw
  dsimp only at hw
  split at hw
  · exact ⟨gout i, by rw [← Option.some.inj hw]⟩
  · exact nomatch hw

/-- A plane keeps its total. -/
theorem sum_savers_plane (hs : g.Sized) (hidx : Saves adaptive g idx) (gout : Int → M)
    (hp : p ∈ Finset.Ico 0 g.planes) :
    ∑ x ∈ volume g.in_, ∑ i ∈ savers g idx (volumeIndex g.in_ p x), gout i =
      ∑ o ∈ volume g.out, gout (volumeIndex g.out p o) := by
  rw [Finset.sum_congr rfl fun x hx => sum_savers hs gout hp hx, Finset.sum_comm]
  refine Finset.sum_congr rfl fun o ho => ?_
  obtain ⟨y, hy, hsaved⟩ := hidx p hp o ho
  have hy := hy.mem_volume hs ho
  refine (Finset.sum_eq_single_of_mem y hy fun x hx hne => if_neg fun heq => hne ?_).trans
    (if_pos hsaved)
  exact cellIndex_inj hx hy (heq.symm.trans hsaved)

end

end TorchMojoBackend.Kernels.Pool
