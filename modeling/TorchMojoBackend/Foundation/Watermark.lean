/-
  `Foundation.Watermark`: numbers served out of order under a low watermark.

  Everything at or below `base` is finished, nothing above `high` was ever
  handed out, and the numbers between them are each in exactly one of three
  sets: done, pending and failed.  Done numbers that reach the watermark are
  absorbed by it.
-/
import Mathlib.Data.Finset.Basic
import Mathlib.Order.Interval.Finset.Nat

set_option autoImplicit false

namespace TorchMojoBackend.Foundation

/-- The numbers of `(base, high]`, each in exactly one of three sets. -/
structure Watermark (base high : Nat) (done pending failed : Finset Nat) : Prop where
  le : base ≤ high
  mem_iff : ∀ g, (base < g ∧ g ≤ high) ↔ g ∈ done ∨ g ∈ pending ∨ g ∈ failed
  done_pending : Disjoint done pending
  done_failed : Disjoint done failed
  pending_failed : Disjoint pending failed

namespace Watermark

variable {base high : Nat} {done pending failed : Finset Nat}

/-- Nothing handed out yet. -/
theorem start (base : Nat) : Watermark base base ∅ ∅ ∅ where
  le := le_rfl
  mem_iff g := by
    simp only [Finset.notMem_empty, or_self, iff_false, not_and, not_le]
    exact id
  done_pending := Finset.disjoint_empty_left _
  done_failed := Finset.disjoint_empty_left _
  pending_failed := Finset.disjoint_empty_left _

/-- The three sets make up the interval. -/
theorem union_eq (h : Watermark base high done pending failed) :
    done ∪ pending ∪ failed = Finset.Ioc base high := by
  ext g
  simp only [Finset.mem_union, Finset.mem_Ioc, h.mem_iff g, or_assoc]

theorem notMem_of_gt (h : Watermark base high done pending failed) {g : Nat}
    (hg : high < g) : g ∉ done ∧ g ∉ pending ∧ g ∉ failed := by
  have hnot : ¬ (g ∈ done ∨ g ∈ pending ∨ g ∈ failed) := fun hmem =>
    absurd ((h.mem_iff g).mpr hmem).2 (not_le.mpr hg)
  simpa only [not_or] using hnot

/-- The numbers up to a new high mark are handed out. -/
theorem extend (h : Watermark base high done pending failed) {high' : Nat}
    (hle : high ≤ high') :
    Watermark base high' done (pending ∪ Finset.Ioc high high') failed where
  le := h.le.trans hle
  mem_iff g := by
    have hmem := h.mem_iff g
    have hbase := h.le
    simp only [Finset.mem_union, Finset.mem_Ioc]
    constructor
    · intro hg
      by_cases hgh : g ≤ high
      · obtain hd | hp | hf := hmem.mp ⟨hg.1, hgh⟩
        · exact .inl hd
        · exact .inr (.inl (.inl hp))
        · exact .inr (.inr hf)
      · exact .inr (.inl (.inr ⟨not_le.mp hgh, hg.2⟩))
    · rintro (hd | (hp | hnew) | hf)
      · have := hmem.mpr (.inl hd)
        omega
      · have := hmem.mpr (.inr (.inl hp))
        omega
      · omega
      · have := hmem.mpr (.inr (.inr hf))
        omega
  done_pending := by
    refine Finset.disjoint_union_right.mpr ⟨h.done_pending, ?_⟩
    refine Finset.disjoint_left.mpr fun g hd hnew => ?_
    exact (h.notMem_of_gt (Finset.mem_Ioc.mp hnew).1).1 hd
  done_failed := h.done_failed
  pending_failed := by
    refine Finset.disjoint_union_left.mpr ⟨h.pending_failed, ?_⟩
    refine Finset.disjoint_left.mpr fun g hnew hf => ?_
    exact (h.notMem_of_gt (Finset.mem_Ioc.mp hnew).1).2.2 hf

/-- The failed numbers are handed out again. -/
theorem retry (h : Watermark base high done pending failed) :
    Watermark base high done (pending ∪ failed) ∅ where
  le := h.le
  mem_iff g := by simp [h.mem_iff g]
  done_pending := Finset.disjoint_union_right.mpr ⟨h.done_pending, h.done_failed⟩
  done_failed := Finset.disjoint_empty_right _
  pending_failed := Finset.disjoint_empty_right _

/-- Pending numbers fail. -/
theorem fail (h : Watermark base high done pending failed) {gens : Finset Nat}
    (hgens : gens ⊆ pending) :
    Watermark base high done (pending \ gens) (failed ∪ gens) where
  le := h.le
  mem_iff g := by
    have hsub := @hgens g
    simp only [h.mem_iff g, Finset.mem_union, Finset.mem_sdiff]
    tauto
  done_pending := h.done_pending.mono_right Finset.sdiff_subset
  done_failed := Finset.disjoint_union_right.mpr
    ⟨h.done_failed, h.done_pending.mono_right hgens⟩
  pending_failed := Finset.disjoint_union_right.mpr
    ⟨h.pending_failed.mono_left Finset.sdiff_subset, Finset.sdiff_disjoint⟩

/-- Pending numbers are done. -/
theorem succeed (h : Watermark base high done pending failed) {gens : Finset Nat}
    (hgens : gens ⊆ pending) :
    Watermark base high (done ∪ gens) (pending \ gens) failed where
  le := h.le
  mem_iff g := by
    have hsub := @hgens g
    simp only [h.mem_iff g, Finset.mem_union, Finset.mem_sdiff]
    tauto
  done_pending := Finset.disjoint_union_left.mpr
    ⟨h.done_pending.mono_right Finset.sdiff_subset, Finset.disjoint_sdiff⟩
  done_failed := Finset.disjoint_union_left.mpr
    ⟨h.done_failed, h.pending_failed.mono_left hgens⟩
  pending_failed := h.pending_failed.mono_left Finset.sdiff_subset

/-- The watermark absorbs the done number right above it. -/
theorem advance (h : Watermark base high done pending failed) (hnext : base + 1 ∈ done) :
    Watermark (base + 1) high (done.erase (base + 1)) pending failed where
  le := ((h.mem_iff (base + 1)).mpr (.inl hnext)).2
  mem_iff g := by
    have hmem := h.mem_iff g
    have hp : base + 1 ∉ pending := Finset.disjoint_left.mp h.done_pending hnext
    have hf : base + 1 ∉ failed := Finset.disjoint_left.mp h.done_failed hnext
    by_cases hg : g = base + 1
    · subst hg
      simp [hp, hf]
    · rw [Finset.mem_erase, and_iff_right hg, ← hmem]
      omega
  done_pending := h.done_pending.mono_left (Finset.erase_subset _ _)
  done_failed := h.done_failed.mono_left (Finset.erase_subset _ _)
  pending_failed := h.pending_failed

/-! ## Absorbing a whole prefix -/

/-- Absorb done numbers while the one right above the watermark is done.  The fuel
bounds the iterations; the number of done numbers is enough. -/
def absorb : Nat → Nat → Finset Nat → Nat × Finset Nat
  | 0, base, done => (base, done)
  | fuel + 1, base, done =>
    if base + 1 ∈ done then absorb fuel (base + 1) (done.erase (base + 1)) else (base, done)

theorem le_absorb (fuel base : Nat) (done : Finset Nat) : base ≤ (absorb fuel base done).1 := by
  induction fuel generalizing base done with
  | zero => exact le_rfl
  | succ fuel ih =>
      rw [absorb]
      split
      · exact (Nat.le_succ base).trans (ih _ _)
      · exact le_rfl

/-- What is absorbed was done, and nothing else leaves the done set. -/
theorem mem_absorb (fuel base : Nat) (done : Finset Nat) (g : Nat) :
    g ∈ done ↔ g ∈ (absorb fuel base done).2 ∨
      (g ∈ done ∧ base < g ∧ g ≤ (absorb fuel base done).1) := by
  induction fuel generalizing base done with
  | zero =>
      simp only [absorb]
      exact ⟨.inl, fun h => h.elim id And.left⟩
  | succ fuel ih =>
      rw [absorb]
      split
      · rename_i hnext
        have hrec := ih (base + 1) (done.erase (base + 1))
        have hle := le_absorb fuel (base + 1) (done.erase (base + 1))
        by_cases hg : g = base + 1
        · subst hg
          exact ⟨fun h => .inr ⟨h, by omega, hle⟩, fun _ => hnext⟩
        · rw [Finset.mem_erase, and_iff_right hg] at hrec
          rw [hrec]
          constructor
          · rintro (h | ⟨h, hlt, hup⟩)
            · exact .inl h
            · exact .inr ⟨hrec.mp h, by omega, hup⟩
          · rintro (h | ⟨h, -, -⟩)
            · exact .inl h
            · exact h
      · exact ⟨.inl, fun h => h.elim id And.left⟩

/-- Everything the watermark passes was done. -/
theorem mem_of_absorbed (fuel base : Nat) (done : Finset Nat) {g : Nat} (hlt : base < g)
    (hle : g ≤ (absorb fuel base done).1) : g ∈ done := by
  induction fuel generalizing base done with
  | zero =>
      simp only [absorb] at hle
      omega
  | succ fuel ih =>
      rw [absorb] at hle
      split at hle
      · rename_i hnext
        by_cases hg : g = base + 1
        · exact hg ▸ hnext
        · exact Finset.mem_of_mem_erase (ih _ _ (by omega) hle)
      · exact absurd hle (by simp only; omega)

theorem absorbed (fuel : Nat) (h : Watermark base high done pending failed) :
    Watermark (absorb fuel base done).1 high (absorb fuel base done).2 pending failed := by
  induction fuel generalizing base done with
  | zero => exact h
  | succ fuel ih =>
      rw [absorb]
      split
      · rename_i hnext
        exact ih (h.advance hnext)
      · exact h

end Watermark

end TorchMojoBackend.Foundation
