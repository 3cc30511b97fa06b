/-
  `Foundation.DimOrder`: indices whose dimensions are visited in another order.

  Everything in this file is independent of the modelled program.  The dimensions are
  records with an extent and any number of strides.  In whatever order they are peeled off a
  position, the positions run over all indices once, with the same sums of strides.
-/
import TorchMojoBackend.Foundation.RowMajor

set_option autoImplicit false

namespace TorchMojoBackend.Foundation

/-- The index at a position, peeled from the first dimension. -/
def peel : List Nat → Nat → List Nat
  | [], _ => []
  | n :: shape, rest => rest % n :: peel shape (rest / n)

/-- An injection into a list that is not longer. -/
theorem perm_of_injOn {α β : Type*} {l : List α} {l' : List β} {f : α → β} (hnodup : l.Nodup)
    (hmem : ∀ a ∈ l, f a ∈ l') (hinj : ∀ a ∈ l, ∀ b ∈ l, f a = f b → a = b)
    (hlen : l'.length ≤ l.length) : (l.map f).Perm l' := by
  have hmap : (l.map f).Nodup := List.Nodup.map_on hinj hnodup
  have hsub : l.map f ⊆ l' := by
    intro b hb
    obtain ⟨a, ha, rfl⟩ := List.mem_map.mp hb
    exact hmem a ha
  exact (List.subperm_of_subset hmap hsub).perm_of_length_le (by rwa [List.length_map])

theorem peel_mem {shape : List Nat} {i : Nat} (hi : i < shape.prod) :
    peel shape i ∈ indices shape := by
  rw [mem_indices]
  induction shape generalizing i with
  | nil => exact .nil
  | cons n shape ih =>
      rw [List.prod_cons] at hi
      have hn : 0 < n := Nat.pos_of_mul_pos_right (Nat.zero_lt_of_lt hi)
      exact .cons (Nat.mod_lt _ hn) (ih (Nat.div_lt_of_lt_mul hi))

theorem peel_inj {shape : List Nat} {i j : Nat} (hi : i < shape.prod) (hj : j < shape.prod)
    (h : peel shape i = peel shape j) : i = j := by
  induction shape generalizing i j with
  | nil =>
      rw [List.prod_nil] at hi hj
      omega
  | cons n shape ih =>
      rw [List.prod_cons] at hi hj
      obtain ⟨hmod, hrest⟩ := List.cons.inj h
      have hdiv := ih (Nat.div_lt_of_lt_mul hi) (Nat.div_lt_of_lt_mul hj) hrest
      rw [← Nat.div_add_mod i n, ← Nat.div_add_mod j n, hdiv, hmod]

theorem peel_perm (shape : List Nat) :
    ((List.range shape.prod).map (peel shape)).Perm (indices shape) := by
  refine perm_of_injOn List.nodup_range (fun i hi => peel_mem (List.mem_range.mp hi)) ?_ ?_
  · exact fun i hi j hj => peel_inj (List.mem_range.mp hi) (List.mem_range.mp hj)
  · rw [length_indices, List.length_range]

/-- The indices of rearranged dimensions. -/
theorem exists_rearranged {δ : Type*} (size : δ → Nat) {ds ds' : List δ} (h : ds.Perm ds') :
    ∃ f : List Nat → List Nat,
      (∀ x ∈ indices (ds.map size), f x ∈ indices (ds'.map size)) ∧
      (∀ x ∈ indices (ds.map size), ∀ y ∈ indices (ds.map size), f x = f y → x = y) ∧
      ∀ stride : δ → Int, ∀ x ∈ indices (ds.map size),
        along (ds'.map stride) (f x) = along (ds.map stride) x := by
  simp only [mem_indices]
  induction h with
  | nil => exact ⟨id, fun _ hx => hx, fun _ _ _ _ h => h, fun _ _ _ => rfl⟩
  | cons d _ ih =>
      obtain ⟨f, hmem, hinj, halong⟩ := ih
      refine ⟨fun x => x.head?.toList ++ f x.tail, ?_, ?_, ?_⟩
      · rintro _ (_ | ⟨hi, hx⟩)
        exact .cons hi (hmem _ hx)
      · rintro _ (_ | ⟨hi, hx⟩) _ (_ | ⟨hj, hy⟩) heq
        obtain ⟨rfl, hrest⟩ := List.cons.inj heq
        rw [hinj _ hx _ hy hrest]
      · rintro stride _ (_ | ⟨hi, hx⟩)
        exact congrArg _ (halong stride _ hx)
  | swap d d' ds =>
      refine ⟨fun x => x.tail.head?.toList ++ (x.head?.toList ++ x.tail.tail), ?_, ?_, ?_⟩
      · rintro _ (_ | ⟨hi, _ | ⟨hj, hx⟩⟩)
        exact .cons hj (.cons hi hx)
      · rintro _ (_ | ⟨hi, _ | ⟨hj, hx⟩⟩) _ (_ | ⟨hi', _ | ⟨hj', hx'⟩⟩) heq
        obtain ⟨rfl, heq⟩ := List.cons.inj heq
        obtain ⟨rfl, rfl⟩ := List.cons.inj heq
        rfl
      · rintro stride _ (_ | ⟨hi, _ | ⟨hj, hx⟩⟩)
        exact Int.add_left_comm _ _ _
  | trans _ _ ih ih' =>
      obtain ⟨f, hmem, hinj, halong⟩ := ih
      obtain ⟨f', hmem', hinj', halong'⟩ := ih'
      refine ⟨fun x => f' (f x), fun x hx => hmem' _ (hmem x hx), ?_, ?_⟩
      · exact fun x hx y hy heq => hinj x hx y hy (hinj' _ (hmem x hx) _ (hmem y hy) heq)
      · exact fun stride x hx => (halong' stride _ (hmem x hx)).trans (halong stride x hx)

/-- The positions of the indices, where the dimensions are peeled off in another order. -/
theorem exists_position {δ : Type*} (size : δ → Nat) {ds ds' : List δ} (h : ds.Perm ds') :
    ∃ place : List Nat → Nat,
      ((indices (ds.map size)).map place).Perm (List.range (ds.map size).prod) ∧
      ∀ stride : δ → Int, ∀ x ∈ indices (ds.map size),
        along (ds'.map stride) (peel (ds'.map size) (place x)) = along (ds.map stride) x := by
  obtain ⟨f, hmem, hinj, halong⟩ := exists_rearranged size h
  have hprod : (ds'.map size).prod = (ds.map size).prod := (h.map size).prod_eq.symm
  have hpos : ∀ x, ∃ i, x ∈ indices (ds.map size) →
      i < (ds.map size).prod ∧ peel (ds'.map size) i = f x := by
    intro x
    by_cases hx : x ∈ indices (ds.map size)
    · obtain ⟨i, hi, heq⟩ := List.mem_map.mp ((peel_perm _).mem_iff.mpr (hmem x hx))
      exact ⟨i, fun _ => ⟨hprod ▸ List.mem_range.mp hi, heq⟩⟩
    · exact ⟨0, fun h => absurd h hx⟩
  choose place hplace using hpos
  refine ⟨place, perm_of_injOn (nodup_indices _) ?_ ?_ ?_, fun stride x hx => ?_⟩
  · exact fun x hx => List.mem_range.mpr (hplace x hx).1
  · intro x hx y hy heq
    refine hinj x hx y hy ?_
    rw [← (hplace x hx).2, ← (hplace y hy).2, heq]
  · rw [length_indices, List.length_range]
  · rw [(hplace x hx).2]
    exact halong stride x hx

end TorchMojoBackend.Foundation
