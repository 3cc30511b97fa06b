/-
  `Foundation.DenseLayout`: layouts that fill their range of offsets.

  Everything in this file is independent of the modelled program.  A layout is dense if
  its offsets are the numbers below its count, each once.  With dimensions of two
  elements at least, sorted by stride, that is so just if every stride is the product of
  the extents before it.
-/
import Mathlib.Data.Set.Function
import Mathlib.Algebra.Order.Ring.Int
import Mathlib.Data.Int.ConditionallyCompleteOrder
import Mathlib.Order.ConditionallyCompleteLattice.Basic
import TorchMojoBackend.Foundation.Layout

set_option autoImplicit false

namespace TorchMojoBackend.Foundation

/-- The offsets are the numbers below the count, each once. -/
def Dense (ds : List (Dim Int)) : Prop :=
  (offsets ds).Perm ((List.range (count ds)).map fun k : Nat => (k : Int))

/-- The map from index tuples to offsets is one to one onto the numbers below the count. -/
theorem dense_ofFn_iff {n : Nat} (extent : Fin n → Nat) (stride : Fin n → Int) :
    Dense (List.ofFn fun i => ⟨extent i, stride i⟩) ↔
      Set.BijOn (fun x : Fin n → Nat => ∑ i, x i * stride i) {x | ∀ i, x i < extent i}
        (Set.Ico 0 ((∏ i, extent i : Nat) : Int)) := by
  have hcount : count (List.ofFn fun i => (⟨extent i, stride i⟩ : Dim Int)) = ∏ i, extent i := by
    rw [count, List.map_ofFn, List.prod_ofFn]
    rfl
  have hoffsets : offsets (List.ofFn fun i => (⟨extent i, stride i⟩ : Dim Int)) =
      (tuples extent).map fun x => ∑ i, x i * stride i := by
    rw [offsets_ofFn]
    exact List.map_congr_left fun x _ => Finset.sum_congr rfl fun i _ => nsmul_eq_mul _ _
  have hnd : ((List.range (∏ i, extent i)).map fun k : Nat => (k : Int)).Nodup :=
    List.nodup_range.map fun a b h => Int.ofNat_inj.mp h
  have hmem : ∀ o : Int, o ∈ (List.range (∏ i, extent i)).map (fun k : Nat => (k : Int)) ↔
      o ∈ Set.Ico 0 ((∏ i, extent i : Nat) : Int) := by
    intro o
    rw [List.mem_map, Set.mem_Ico]
    constructor
    · rintro ⟨k, hk, rfl⟩
      exact ⟨Int.natCast_nonneg k, Int.ofNat_lt.mpr (List.mem_range.mp hk)⟩
    · rintro ⟨hpos, hlt⟩
      exact ⟨o.toNat, List.mem_range.mpr (by omega), Int.toNat_of_nonneg hpos⟩
  unfold Dense
  rw [hcount, hoffsets]
  constructor
  · intro hperm
    have hinj := List.inj_on_of_nodup_map (hperm.nodup_iff.mpr hnd)
    refine ⟨fun x hx => ?_, fun x hx y hy h => ?_, fun o ho => ?_⟩
    · exact (hmem _).mp (hperm.mem_iff.mp (List.mem_map_of_mem (mem_tuples.mpr hx)))
    · exact hinj (mem_tuples.mpr hx) (mem_tuples.mpr hy) h
    · obtain ⟨x, hx, rfl⟩ := List.mem_map.mp (hperm.mem_iff.mpr ((hmem o).mpr ho))
      exact ⟨x, mem_tuples.mp hx, rfl⟩
  · intro hbij
    refine (List.perm_ext_iff_of_nodup (List.Nodup.map_on (fun x hx y hy h => ?_)
      (nodup_tuples extent)) hnd).mpr fun o => ?_
    · exact hbij.injOn (mem_tuples.mp hx) (mem_tuples.mp hy) h
    · rw [hmem, List.mem_map]
      constructor
      · rintro ⟨x, hx, rfl⟩
        exact hbij.mapsTo (mem_tuples.mp hx)
      · intro ho
        obtain ⟨x, hx, h⟩ := hbij.surjOn ho
        exact ⟨x, mem_tuples.mpr hx, h⟩

/-! ## Rearranging -/

theorem dense_perm {ds ds' : List (Dim Int)} (h : ds.Perm ds') : Dense ds ↔ Dense ds' := by
  unfold Dense
  rw [count_perm h]
  exact (offsets_perm h).congr_left _

/-- A dimension of one element adds nothing. -/
theorem dense_cons_one {d : Dim Int} (hone : d.extent = 1) (ds : List (Dim Int)) :
    Dense (d :: ds) ↔ Dense ds := by
  unfold Dense
  rw [offsets_one hone, count_cons, hone, Nat.one_mul]

/-- The dimensions of two elements and more decide. -/
theorem dense_filter {ds : List (Dim Int)} (hpos : ∀ d ∈ ds, d.extent ≠ 0) :
    Dense (ds.filter fun d => decide (2 ≤ d.extent)) ↔ Dense ds := by
  have hsame : offsets (ds.filter fun d => decide (2 ≤ d.extent)) = offsets ds ∧
      count (ds.filter fun d => decide (2 ≤ d.extent)) = count ds := by
    induction ds with
    | nil => exact ⟨rfl, rfl⟩
    | cons d ds ih =>
        obtain ⟨hoff, hcount⟩ := ih fun d hd => hpos d (List.mem_cons_of_mem _ hd)
        by_cases htwo : 2 ≤ d.extent
        · rw [List.filter_cons_of_pos (by simpa using htwo), count_cons, count_cons, hcount]
          exact ⟨by simp only [offsets, hoff], rfl⟩
        · have hne := hpos d List.mem_cons_self
          have hone : d.extent = 1 := by omega
          rw [List.filter_cons_of_neg (by simpa using htwo), offsets_one hone, count_cons, hone,
            Nat.one_mul]
          exact ⟨hoff, hcount⟩
  unfold Dense
  rw [hsame.1, hsame.2]

/-- A dimension that continues the numbers below `p` makes more of them. -/
theorem dense_merge (p : Nat) (d : Dim Int) (hstride : d.stride = p) (ds : List (Dim Int)) :
    Dense (⟨p, 1⟩ :: d :: ds) ↔ Dense (⟨p * d.extent, 1⟩ :: ds) := by
  have hd : d = ⟨d.extent, p • (1 : Int)⟩ := by
    rw [nsmul_eq_mul, mul_one, ← hstride]
  have hmerge : offsets (d :: ⟨p, 1⟩ :: ds) = offsets (⟨p * d.extent, 1⟩ :: ds) := by
    rw [hd, Nat.mul_comm]
    exact offsets_merge d.extent (⟨p, 1⟩ : Dim Int) ds
  rw [dense_perm (List.Perm.swap d ⟨p, 1⟩ ds)]
  unfold Dense
  rw [hmerge, count_cons, count_cons, count_cons, Nat.mul_left_comm, Nat.mul_assoc]

/-! ## Chains -/

/-- Every stride is `p` times the extents before it. -/
def Chain (p : Nat) : List (Dim Int) → Prop
  | [] => True
  | d :: ds => d.stride = p ∧ Chain (p * d.extent) ds

/-- The numbers below `p`. -/
theorem dense_stride_one (p : Nat) : Dense [⟨p, 1⟩] := by
  have hoff : offsets [(⟨p, 1⟩ : Dim Int)] = (List.range p).map fun k : Nat => (k : Int) := by
    simp only [offsets, List.map_singleton, nsmul_eq_mul, mul_one, add_zero]
    exact List.map_eq_flatMap.symm
  unfold Dense
  rw [hoff, count_cons, count_nil, Nat.mul_one]

/-- Above the numbers below `p` a chain is dense. -/
theorem dense_of_chain {p : Nat} {ds : List (Dim Int)} (h : Chain p ds) :
    Dense (⟨p, 1⟩ :: ds) := by
  induction ds generalizing p with
  | nil => exact dense_stride_one p
  | cons d ds ih => exact (dense_merge p d h.1 ds).mpr (ih h.2)

/-- Offsets of strides from `s` on are zero or not below `s`. -/
theorem offsets_ge {s : Int} (hs : 0 ≤ s) {ds : List (Dim Int)} (hle : ∀ d ∈ ds, s ≤ d.stride)
    {o : Int} (ho : o ∈ offsets ds) : o = 0 ∨ s ≤ o := by
  induction ds generalizing o with
  | nil => exact Or.inl (mem_offsets_nil.mp ho)
  | cons d ds ih =>
      obtain ⟨i, -, o', ho', rfl⟩ := mem_offsets_cons.mp ho
      have hd := hle d List.mem_cons_self
      have ho' := ih (fun d hd => hle d (List.mem_cons_of_mem _ hd)) ho'
      cases i with
      | zero =>
          rw [zero_nsmul, zero_add]
          exact ho'
      | succ i =>
          have hnonneg : 0 ≤ i • d.stride := nsmul_nonneg (hs.trans hd) i
          rw [succ_nsmul]
          omega

theorem zero_mem_offsets {ds : List (Dim Int)} (hpos : ∀ d ∈ ds, d.extent ≠ 0) :
    0 ∈ offsets ds := by
  induction ds with
  | nil => exact List.mem_singleton.mpr rfl
  | cons d ds ih =>
      refine mem_offsets_cons.mpr ⟨0, Nat.pos_of_ne_zero (hpos d List.mem_cons_self), 0, ?_, ?_⟩
      · exact ih fun d hd => hpos d (List.mem_cons_of_mem _ hd)
      · rw [zero_nsmul, zero_add]

theorem count_pos {ds : List (Dim Int)} (hpos : ∀ d ∈ ds, d.extent ≠ 0) : 0 < count ds := by
  rw [← length_offsets]
  exact List.length_pos_of_mem (zero_mem_offsets hpos)

/-- Offsets that are all different come from one index of the first dimension. -/
theorem index_unique {d : Dim Int} {ds : List (Dim Int)} (hnd : (offsets (d :: ds)).Nodup)
    {i j : Nat} (hi : i < d.extent) (hj : j < d.extent) {o o' : Int} (ho : o ∈ offsets ds)
    (ho' : o' ∈ offsets ds) (heq : i • d.stride + o = j • d.stride + o') : i = j := by
  by_contra hne
  have hsymm : Std.Symm (Function.onFun List.Disjoint fun i : Nat =>
      (offsets ds).map (i • d.stride + ·)) := ⟨fun _ _ h => h.symm⟩
  have hdisj := (List.nodup_flatMap.mp hnd).2.forall (List.mem_range.mpr hi)
    (List.mem_range.mpr hj) hne
  exact hdisj (List.mem_map_of_mem ho) (heq ▸ List.mem_map_of_mem ho')

theorem chain_of_dense {p : Nat} (hp : 0 < p) {ds : List (Dim Int)}
    (hsize : ∀ d ∈ ds, 2 ≤ d.extent) (hpos : ∀ d ∈ ds, 0 ≤ d.stride)
    (hsorted : ds.Pairwise fun d e => d.stride ≤ e.stride) (h : Dense (⟨p, 1⟩ :: ds)) :
    Chain p ds := by
  induction ds generalizing p with
  | nil => trivial
  | cons d ds ih =>
      obtain ⟨hle, hsorted⟩ := List.pairwise_cons.mp hsorted
      have htwo := hsize d List.mem_cons_self
      have hnonneg := hpos d List.mem_cons_self
      have hrest : ∀ e ∈ ds, e.extent ≠ 0 := fun e he => by
        have := hsize e (List.mem_cons_of_mem _ he)
        omega
      have hrest' : ∀ e ∈ (⟨p, 1⟩ : Dim Int) :: ds, e.extent ≠ 0 := by
        intro e he
        rcases List.mem_cons.mp he with rfl | he
        · exact hp.ne'
        · exact hrest e he
      have hstride : d.stride = p := by
        refine le_antisymm ?_ ?_
        · -- the number `p` is an offset
          by_contra hgt
          have hmem : (p : Int) ∈ offsets (⟨p, 1⟩ :: d :: ds) := by
            refine h.mem_iff.mpr (List.mem_map_of_mem (List.mem_range.mpr ?_))
            have hcount := count_pos hrest
            rw [count_cons, count_cons]
            calc p < p * 2 := by omega
              _ ≤ p * (d.extent * count ds) := Nat.mul_le_mul_left _
                (htwo.trans (Nat.le_mul_of_pos_right _ hcount))
          obtain ⟨i, hi, o, ho, heq⟩ := mem_offsets_cons.mp hmem
          rw [nsmul_eq_mul, mul_one] at heq
          have hlt : i < p := hi
          have hleast : ∀ e ∈ d :: ds, d.stride ≤ e.stride := by
            intro e he
            rcases List.mem_cons.mp he with rfl | he
            · exact le_refl _
            · exact hle e he
          have := offsets_ge hnonneg hleast ho
          omega
        · -- a smaller stride meets the numbers below `p`
          by_contra hlt
          have hnd : (offsets (d :: ⟨p, 1⟩ :: ds)).Nodup := by
            have hdense := (dense_perm (List.Perm.swap d ⟨p, 1⟩ ds)).mp h
            exact hdense.nodup_iff.mpr (List.nodup_range.map fun a b h => Int.ofNat_inj.mp h)
          have hmem : d.stride ∈ offsets ((⟨p, 1⟩ : Dim Int) :: ds) := by
            refine mem_offsets_cons.mpr ⟨d.stride.toNat, by dsimp only; omega, 0,
              zero_mem_offsets hrest, ?_⟩
            rw [nsmul_eq_mul, mul_one, add_zero, Int.toNat_of_nonneg hnonneg]
          have := index_unique hnd (i := 0) (j := 1) (by omega) (by omega) hmem
            (zero_mem_offsets hrest') (by rw [zero_nsmul, zero_add, one_nsmul, add_zero])
          omega
      refine ⟨hstride, ih (Nat.mul_pos hp (by omega))
        (fun e he => hsize e (List.mem_cons_of_mem _ he))
        (fun e he => hpos e (List.mem_cons_of_mem _ he)) hsorted ?_⟩
      exact (dense_merge p d hstride ds).mp h

/-- Sorted dimensions are dense just if they are a chain. -/
theorem dense_iff_chain {ds : List (Dim Int)} (hsize : ∀ d ∈ ds, 2 ≤ d.extent)
    (hpos : ∀ d ∈ ds, 0 ≤ d.stride) (hsorted : ds.Pairwise fun d e => d.stride ≤ e.stride) :
    Dense ds ↔ Chain 1 ds := by
  rw [← dense_cons_one (d := ⟨1, 1⟩) rfl]
  exact ⟨chain_of_dense Nat.one_pos hsize hpos hsorted, dense_of_chain⟩

/-- In a chain of dimensions of which those of one element are left out, a stride is the number of
elements before it. -/
theorem stride_of_chain {ds : List (Dim Int)} {p : Nat} (hpos : ∀ d ∈ ds, d.extent ≠ 0)
    (h : Chain p (ds.filter fun d => decide (2 ≤ d.extent))) (k : Nat) (hk : k < ds.length)
    (htwo : 2 ≤ ds[k].extent) :
    ds[k].stride = (p * ((ds.take k).map Dim.extent).prod : Nat) := by
  induction ds generalizing p k with
  | nil => exact absurd hk (Nat.not_lt_zero k)
  | cons d ds ih =>
      have hrest := fun e he => hpos e (List.mem_cons_of_mem d he)
      by_cases hd : 2 ≤ d.extent
      · rw [List.filter_cons_of_pos (by simpa using hd)] at h
        cases k with
        | zero =>
            rw [List.take_zero, List.map_nil, List.prod_nil, Nat.mul_one]
            exact h.1
        | succ k =>
            rw [List.take_succ_cons, List.map_cons, List.prod_cons, ← Nat.mul_assoc]
            exact ih hrest h.2 k (Nat.lt_of_succ_lt_succ hk) htwo
      · have hone : d.extent = 1 := by
          have := hpos d List.mem_cons_self
          omega
        rw [List.filter_cons_of_neg (by simpa using hd)] at h
        cases k with
        | zero => exact absurd htwo hd
        | succ k =>
            rw [List.take_succ_cons, List.map_cons, List.prod_cons, hone, Nat.one_mul]
            exact ih hrest h k (Nat.lt_of_succ_lt_succ hk) htwo

/-- In a dense layout a dimension of two elements has a stride. -/
theorem stride_ne_zero {ds : List (Dim Int)} (h : Dense ds) (hpos : ∀ d ∈ ds, d.extent ≠ 0)
    {d : Dim Int} (hd : d ∈ ds) (htwo : 2 ≤ d.extent) : d.stride ≠ 0 := by
  intro hzero
  have hdense := (dense_perm (List.perm_cons_erase hd)).mp h
  have hnd : (offsets (d :: ds.erase d)).Nodup :=
    hdense.nodup_iff.mpr (List.nodup_range.map fun a b h => Int.ofNat_inj.mp h)
  have hmem : 0 ∈ offsets (ds.erase d) :=
    zero_mem_offsets fun e he => hpos e (List.mem_of_mem_erase he)
  have := index_unique hnd (i := 0) (j := 1) (by omega) (by omega) hmem hmem (by
    rw [hzero, nsmul_zero, nsmul_zero])
  omega

end TorchMojoBackend.Foundation
