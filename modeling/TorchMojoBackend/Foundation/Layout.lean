/-
  `Foundation.Layout`: strided layouts.

  Everything in this file is independent of the modelled program.  A layout is a list of
  dimensions with extents and strides; strides are of any commutative monoid, so that one
  layout may place its elements in several tensors at once.  The list of its offsets does
  not depend on the order of the dimensions, up to order, and a dimension that tiles the
  one below it merges with it.
-/
import Mathlib.Algebra.Group.Action.Defs
import Mathlib.Algebra.Group.Prod
import Mathlib.Algebra.BigOperators.Fin
import Mathlib.Algebra.BigOperators.Group.List.Basic
import TorchMojoBackend.Foundation.Launch

set_option autoImplicit false

namespace TorchMojoBackend.Foundation

universe u

/-- A dimension of a layout. -/
structure Dim (S : Type u) where
  extent : Nat
  stride : S
  deriving DecidableEq

/-! ## Index tuples -/

/-- The index tuples below extents. -/
def tuples : {n : Nat} → (Fin n → Nat) → List (Fin n → Nat)
  | 0, _ => [fun i => i.elim0]
  | _ + 1, extent => (List.range (extent 0)).flatMap fun x =>
      (tuples fun i => extent i.succ).map fun y => Fin.cons x y

theorem mem_tuples {n : Nat} {extent x : Fin n → Nat} :
    x ∈ tuples extent ↔ ∀ i, x i < extent i := by
  induction n with
  | zero => exact iff_of_true (List.mem_singleton.mpr (Subsingleton.elim _ _)) fun i => i.elim0
  | succ n ih =>
      simp only [tuples, List.mem_flatMap, List.mem_range, List.mem_map, ih, Fin.forall_fin_succ]
      constructor
      · rintro ⟨a, ha, y, hy, rfl⟩
        exact ⟨ha, hy⟩
      · rintro ⟨hzero, hsucc⟩
        exact ⟨x 0, hzero, Fin.tail x, hsucc, Fin.cons_self_tail x⟩

theorem nodup_tuples {n : Nat} (extent : Fin n → Nat) : (tuples extent).Nodup := by
  induction n with
  | zero => exact List.nodup_singleton _
  | succ n ih =>
      have hinj : ∀ {a b : Nat} {y z : Fin n → Nat},
          (Fin.cons a y : Fin (n + 1) → Nat) = Fin.cons b z → a = b ∧ y = z :=
        fun h => Fin.cons_inj.mp h
      refine List.nodup_flatMap.mpr ⟨fun a _ => (ih _).map fun y z h => (hinj h).2, ?_⟩
      refine List.nodup_range.imp fun {a b} hne x hx hx' => ?_
      obtain ⟨y, -, rfl⟩ := List.mem_map.mp hx
      obtain ⟨z, -, h⟩ := List.mem_map.mp hx'
      exact hne (hinj h).1.symm

section
variable {S : Type u} [AddCommMonoid S]

/-- The number of elements. -/
def count (ds : List (Dim S)) : Nat := (ds.map Dim.extent).prod

/-- The offsets of the elements, the last dimension fastest. -/
def offsets : List (Dim S) → List S
  | [] => [0]
  | d :: ds => (List.range d.extent).flatMap fun i => (offsets ds).map (i • d.stride + ·)

/-- The offset of an index, peeled from the last dimension; `ds` lists it first. -/
def unravel : List (Dim S) → Nat → S
  | [], _ => 0
  | [d], rest => rest • d.stride
  | d :: ds, rest => (rest % d.extent) • d.stride + unravel ds (rest / d.extent)

omit [AddCommMonoid S] in
@[simp] theorem count_nil : count ([] : List (Dim S)) = 1 := rfl

omit [AddCommMonoid S] in
@[simp] theorem count_cons (d : Dim S) (ds : List (Dim S)) :
    count (d :: ds) = d.extent * count ds := List.prod_cons

theorem mem_offsets_nil {o : S} : o ∈ offsets ([] : List (Dim S)) ↔ o = 0 := List.mem_singleton

theorem mem_offsets_cons {d : Dim S} {ds : List (Dim S)} {o : S} :
    o ∈ offsets (d :: ds) ↔ ∃ i, i < d.extent ∧ ∃ o' ∈ offsets ds, i • d.stride + o' = o := by
  simp only [offsets, List.mem_flatMap, List.mem_range, List.mem_map]

/-- The offsets, tuple by tuple. -/
theorem offsets_ofFn {n : Nat} (dim : Fin n → Dim S) : offsets (List.ofFn dim) =
    (tuples fun i => (dim i).extent).map fun x => ∑ i, x i • (dim i).stride := by
  induction n with
  | zero => rfl
  | succ n ih =>
      rw [List.ofFn_succ]
      simp only [offsets, tuples, ih, List.map_flatMap, List.map_map]
      refine List.flatMap_congr fun x _ => List.map_congr_left fun y _ => ?_
      simp only [Function.comp_apply, Fin.sum_univ_succ, Fin.cons_zero, Fin.cons_succ]

/-- The offsets are the sums of the strides over the index tuples. -/
theorem mem_offsets_ofFn {n : Nat} (dim : Fin n → Dim S) {o : S} :
    o ∈ offsets (List.ofFn dim) ↔ ∃ index : Fin n → Nat,
      (∀ i, index i < (dim i).extent) ∧ o = ∑ i, index i • (dim i).stride := by
  rw [offsets_ofFn, List.mem_map]
  exact exists_congr fun x => and_congr mem_tuples eq_comm

theorem length_offsets (ds : List (Dim S)) : (offsets ds).length = count ds := by
  induction ds with
  | nil => rfl
  | cons d ds ih =>
      simp only [offsets, List.length_flatMap, List.length_map, ih, count_cons, List.map_const',
        List.length_range, List.sum_replicate]
      rfl

/-! ## Rearranging -/

theorem offsets_swap (d d' : Dim S) (ds : List (Dim S)) :
    (offsets (d :: d' :: ds)).Perm (offsets (d' :: d :: ds)) := by
  have hpair : ∀ d d' : Dim S, offsets (d :: d' :: ds) =
      (List.range d.extent).flatMap fun i => (List.range d'.extent).flatMap fun j =>
        (offsets ds).map (i • d.stride + j • d'.stride + ·) := by
    intro d d'
    simp only [offsets, List.map_flatMap, List.map_map, Function.comp_def, add_assoc]
  rw [hpair, hpair]
  refine (flatMap_comm_perm _ _ _).trans (List.Perm.of_eq ?_)
  simp only [add_comm]

theorem offsets_cons_perm (d : Dim S) {ds ds' : List (Dim S)}
    (h : (offsets ds).Perm (offsets ds')) : (offsets (d :: ds)).Perm (offsets (d :: ds')) :=
  List.Perm.flatMap_left _ fun _ _ => h.map _

/-- The order of the dimensions does not matter. -/
theorem offsets_perm {ds ds' : List (Dim S)} (h : ds.Perm ds') :
    (offsets ds).Perm (offsets ds') := by
  induction h with
  | nil => exact List.Perm.refl _
  | cons d _ ih => exact offsets_cons_perm d ih
  | swap d d' ds => exact offsets_swap d' d ds
  | trans _ _ ih ih' => exact ih.trans ih'

/-- A dimension of one element. -/
theorem offsets_one {d : Dim S} (hone : d.extent = 1) (ds : List (Dim S)) :
    offsets (d :: ds) = offsets ds := by
  simp only [offsets, hone, List.range_one, List.flatMap_singleton, zero_nsmul, zero_add,
    List.map_id']

/-- A dimension that tiles the one below it. -/
theorem offsets_merge (a : Nat) (d : Dim S) (ds : List (Dim S)) :
    offsets (⟨a, d.extent • d.stride⟩ :: d :: ds) = offsets (⟨a * d.extent, d.stride⟩ :: ds) := by
  simp only [offsets, range_mul, List.flatMap_assoc, List.map_flatMap, List.map_map,
    Function.comp_def, List.flatMap_map]
  refine List.flatMap_congr fun i _ => List.flatMap_congr fun j _ => ?_
  refine List.map_congr_left fun o _ => ?_
  rw [add_nsmul, Nat.mul_comm, mul_nsmul, add_assoc]

theorem count_perm {ds ds' : List (Dim S)} (h : ds.Perm ds') : count ds = count ds' := by
  rw [← length_offsets, ← length_offsets, (offsets_perm h).length_eq]

/-- A dimension in two parts. -/
theorem offsets_split (a b : Nat) (s : S) (ds : List (Dim S)) : offsets (⟨a + b, s⟩ :: ds) =
    offsets (⟨a, s⟩ :: ds) ++ (offsets (⟨b, s⟩ :: ds)).map (a • s + ·) := by
  simp only [offsets, List.range_add, List.flatMap_append, List.flatMap_map, List.map_flatMap,
    List.map_map, Function.comp_def, add_nsmul, add_assoc]

/-- The indices peeled off give the offsets. -/
theorem unravel_perm (ds : List (Dim S)) :
    ((List.range (count ds)).map (unravel ds)).Perm (offsets ds) := by
  induction ds with
  | nil => exact List.Perm.refl _
  | cons d ds ih =>
      have hstep : ∀ q r, q < count ds → r < d.extent →
          unravel (d :: ds) (q * d.extent + r) = r • d.stride + unravel ds q := by
        intro q r hq hr
        cases ds with
        | nil =>
            obtain rfl : q = 0 := Nat.lt_one_iff.mp hq
            rw [Nat.zero_mul, Nat.zero_add]
            exact (add_zero _).symm
        | cons d' ds =>
            change ((q * d.extent + r) % d.extent) • d.stride +
              unravel (d' :: ds) ((q * d.extent + r) / d.extent) = _
            rw [Nat.mul_add_mod', Nat.mod_eq_of_lt hr, Nat.mul_comm q,
              Nat.mul_add_div (Nat.zero_lt_of_lt hr), Nat.div_eq_of_lt hr, Nat.add_zero]
      rw [count_cons, Nat.mul_comm, range_mul, List.map_flatMap]
      have hrows : ((List.range (count ds)).flatMap fun q =>
          ((List.range d.extent).map fun r => q * d.extent + r).map (unravel (d :: ds))) =
          (List.range (count ds)).flatMap fun q =>
            (List.range d.extent).flatMap fun r => [r • d.stride + unravel ds q] := by
        refine List.flatMap_congr fun q hq => ?_
        rw [List.map_map, ← List.map_eq_flatMap]
        refine List.map_congr_left fun r hr => ?_
        exact hstep q r (List.mem_range.mp hq) (List.mem_range.mp hr)
      rw [hrows]
      refine (flatMap_comm_perm _ _ _).trans ?_
      refine List.Perm.flatMap_left _ fun r _ => ?_
      rw [← List.map_eq_flatMap]
      have hmap := ih.map (r • d.stride + ·)
      rwa [List.map_map] at hmap

end

end TorchMojoBackend.Foundation
