/-
  `Foundation.RowMajor`: index lists in row-major order.

  Everything in this file is independent of the modelled program.  A shape is a list of
  extents of any length, an index is a list below it, and its place is its position among
  all of them in row-major order.
-/
import Mathlib.Data.List.Forall2
import TorchMojoBackend.Foundation.Layout

set_option autoImplicit false

namespace TorchMojoBackend.Foundation

/-- The indices of a shape, in row-major order. -/
def indices : List Nat → List (List Nat)
  | [] => [[]]
  | n :: shape => (List.range n).flatMap fun i => (indices shape).map (i :: ·)

/-- The position of an index in row-major order. -/
def flatIndex : List Nat → List Nat → Nat
  | _ :: shape, i :: x => i * shape.prod + flatIndex shape x
  | _, _ => 0

/-- The sum of strides over an index. -/
def along : List Int → List Nat → Int
  | s :: strides, i :: x => i * s + along strides x
  | _, _ => 0

theorem mem_indices {shape x : List Nat} : x ∈ indices shape ↔ List.Forall₂ (· < ·) x shape := by
  induction shape generalizing x with
  | nil => exact List.mem_singleton.trans List.forall₂_nil_right_iff.symm
  | cons n shape ih =>
      simp only [indices, List.mem_flatMap, List.mem_range, List.mem_map, ih]
      constructor
      · rintro ⟨i, hi, y, hy, rfl⟩
        exact .cons hi hy
      · rintro (_ | ⟨hi, hy⟩)
        exact ⟨_, hi, _, hy, rfl⟩

theorem length_of_mem_indices {shape x : List Nat} (hx : x ∈ indices shape) :
    x.length = shape.length := (mem_indices.mp hx).length_eq

/-- The indices come in the order of their positions. -/
theorem map_flatIndex (shape : List Nat) :
    (indices shape).map (flatIndex shape) = List.range shape.prod := by
  induction shape with
  | nil => rfl
  | cons n shape ih =>
      rw [List.prod_cons, range_mul, indices, List.map_flatMap]
      refine List.flatMap_congr fun i _ => ?_
      rw [← ih, List.map_map, List.map_map]
      rfl

theorem length_indices (shape : List Nat) : (indices shape).length = shape.prod := by
  rw [← List.length_map (flatIndex shape), map_flatIndex, List.length_range]

theorem nodup_indices (shape : List Nat) : (indices shape).Nodup := by
  refine List.Nodup.of_map (flatIndex shape) ?_
  rw [map_flatIndex]
  exact List.nodup_range

theorem flatIndex_lt {shape x : List Nat} (hx : x ∈ indices shape) :
    flatIndex shape x < shape.prod := by
  have hmem := List.mem_map_of_mem (f := flatIndex shape) hx
  rwa [map_flatIndex, List.mem_range] at hmem

theorem flatIndex_inj {shape x y : List Nat} (hx : x ∈ indices shape) (hy : y ∈ indices shape)
    (h : flatIndex shape x = flatIndex shape y) : x = y := by
  have hnodup : ((indices shape).map (flatIndex shape)).Nodup := by
    rw [map_flatIndex]
    exact List.nodup_range
  exact List.inj_on_of_nodup_map hnodup hx hy h

/-- The index at a position. -/
theorem exists_index {shape : List Nat} {i : Nat} (hi : i < shape.prod) :
    ∃ x ∈ indices shape, flatIndex shape x = i := by
  have hmem : i ∈ (indices shape).map (flatIndex shape) := by
    rwa [map_flatIndex, List.mem_range]
  exact List.mem_map.mp hmem

theorem indices_getElem {shape x : List Nat} (hx : x ∈ indices shape) :
    (indices shape)[flatIndex shape x]? = some x := by
  obtain ⟨i, hi, rfl⟩ := List.getElem_of_mem hx
  have hat : ((indices shape).map (flatIndex shape))[i]? = some i := by
    rw [map_flatIndex, List.getElem?_range (by rwa [length_indices] at hi)]
  rw [List.getElem?_map, List.getElem?_eq_getElem hi] at hat
  rw [Option.some.inj hat, List.getElem?_eq_getElem hi]

/-! ## Leading and trailing dimensions -/

theorem indices_append (shape shape' : List Nat) :
    indices (shape ++ shape') =
      (indices shape).flatMap fun x => (indices shape').map (x ++ ·) := by
  induction shape with
  | nil =>
      rw [List.nil_append, indices, List.flatMap_singleton]
      exact (List.map_id' _).symm
  | cons n shape ih =>
      rw [List.cons_append, indices, indices, ih, List.flatMap_assoc]
      refine List.flatMap_congr fun i _ => ?_
      rw [List.map_flatMap, List.flatMap_map]
      refine List.flatMap_congr fun x _ => ?_
      rw [List.map_map]
      rfl

theorem mem_indices_append {shape shape' x y : List Nat} (hx : x ∈ indices shape)
    (hy : y ∈ indices shape') : x ++ y ∈ indices (shape ++ shape') := by
  rw [indices_append]
  exact List.mem_flatMap.mpr ⟨x, hx, List.mem_map_of_mem hy⟩

theorem flatIndex_append {shape x : List Nat} (hx : x.length = shape.length)
    (shape' y : List Nat) : flatIndex (shape ++ shape') (x ++ y) =
      flatIndex shape x * shape'.prod + flatIndex shape' y := by
  induction shape generalizing x with
  | nil =>
      obtain rfl := List.eq_nil_of_length_eq_zero hx
      rw [List.nil_append, List.nil_append, flatIndex.eq_def [] [], Nat.zero_mul, Nat.zero_add]
  | cons n shape ih =>
      obtain ⟨i, x, rfl⟩ := List.exists_cons_of_length_eq_add_one hx
      rw [List.cons_append, List.cons_append, flatIndex, flatIndex, ih (Nat.succ.inj hx),
        List.prod_append, Nat.add_mul, Nat.mul_assoc, Nat.add_assoc]

theorem along_append {strides : List Int} {x : List Nat} (hx : x.length = strides.length)
    (strides' : List Int) (y : List Nat) :
    along (strides ++ strides') (x ++ y) = along strides x + along strides' y := by
  induction strides generalizing x with
  | nil =>
      obtain rfl := List.eq_nil_of_length_eq_zero hx
      rw [List.nil_append, List.nil_append, along.eq_def [] [], Int.zero_add]
  | cons s strides ih =>
      obtain ⟨i, x, rfl⟩ := List.exists_cons_of_length_eq_add_one hx
      rw [List.cons_append, List.cons_append, along, along, ih (Nat.succ.inj hx), Int.add_assoc]

/-- The offsets of a layout are its strides along the indices. -/
theorem offsets_zip {shape : List Nat} {strides : List Int} (h : strides.length = shape.length) :
    offsets ((shape.zip strides).map fun d => (⟨d.1, d.2⟩ : Dim Int)) =
      (indices shape).map (along strides) := by
  induction shape generalizing strides with
  | nil =>
      obtain rfl := List.eq_nil_of_length_eq_zero h
      rfl
  | cons n shape ih =>
      obtain ⟨s, strides, rfl⟩ := List.exists_cons_of_length_eq_add_one h
      rw [List.zip_cons_cons, List.map_cons, offsets, ih (Nat.succ.inj h), indices,
        List.map_flatMap]
      refine List.flatMap_congr fun i _ => ?_
      rw [List.map_map, List.map_map]
      refine List.map_congr_left fun x _ => ?_
      rw [Function.comp_apply, Function.comp_apply, along, nsmul_eq_mul]

end TorchMojoBackend.Foundation
