/-
  `Foundation.RingBuffer`: a window of numbered items in a ring of cells.

  Everything in this file is independent of the modelled program.  Item `e`
  (from 1 on) lives in cell `(e - 1) % size`; the items `lo < e ≤ hi` are in
  their cells and the cells of the next items are free.
-/
import Mathlib.Data.Nat.ModEq
import Mathlib.Logic.Function.Basic

set_option autoImplicit false

namespace TorchMojoBackend.Foundation

universe u

/-- The cell of item `e`. -/
def ringSlot (size e : Nat) : Nat := (e - 1) % size

/-- Items less than a ring apart live in different cells. -/
theorem ringSlot_ne {size e q : Nat} (he : 0 < e) (hlt : e < q) (hq : q < e + size) :
    ringSlot size e ≠ ringSlot size q := by
  intro heq
  have hdvd : size ∣ (q - 1) - (e - 1) := (Nat.modEq_iff_dvd' (by omega)).mp heq
  have hle := Nat.le_of_dvd (by omega) hdvd
  omega

theorem ringSlot_add (size : Nat) {e : Nat} (he : 0 < e) :
    ringSlot size (e + size) = ringSlot size e := by
  unfold ringSlot
  have h : e + size - 1 = e - 1 + size := by omega
  rw [h, Nat.add_mod_right]

/-- Two numbers of a window of `size` have different remainders. -/
theorem mod_ne_of_window {size lo e q : Nat} (he : lo < e) (hee : e ≤ lo + size) (hq : lo < q)
    (hqq : q ≤ lo + size) (hne : e ≠ q) : e % size ≠ q % size := by
  intro heq
  have habs : |(q : Int) - e| < size := abs_lt.mpr ⟨by omega, by omega⟩
  exact hne (Nat.ModEq.eq_of_abs_lt heq habs)

/-- The items after `lo` up to `hi` are in their cells, busy and good; the cells
the next items take are not busy. -/
structure RingHolds {Cell : Type u} (size : Nat) (busy : Cell → Prop) (good : Nat → Cell → Prop)
    (cells : Nat → Cell) (lo hi : Nat) : Prop where
  order : lo ≤ hi
  window : hi ≤ lo + size
  held : ∀ e, lo < e → e ≤ hi → busy (cells (ringSlot size e))
  contents : ∀ e, lo < e → e ≤ hi → good e (cells (ringSlot size e))
  free : ∀ q, hi < q → q ≤ lo + size → ¬ busy (cells (ringSlot size q))

namespace RingHolds

variable {Cell : Type u} {size : Nat} {busy : Cell → Prop} {good : Nat → Cell → Prop}
  {cells : Nat → Cell} {lo hi : Nat}

theorem empty {c : Cell} (hc : ¬ busy c) : RingHolds size busy good (fun _ => c) 0 0 where
  order := Nat.le_refl 0
  window := Nat.zero_le _
  held e h0 h1 := by omega
  contents e h0 h1 := by omega
  free q _ _ := hc

theorem imp (h : RingHolds size busy good cells lo hi) {P : Nat → Cell → Prop}
    (himp : ∀ e c, lo < e → e ≤ hi → good e c → P e c) :
    RingHolds size busy P cells lo hi :=
  { h with contents := fun e hlo hhi => himp e _ hlo hhi (h.contents e hlo hhi) }

/-- Two items of the window and of those to come next are in different cells. -/
theorem slot_ne {e q : Nat} (he : lo < e) (hq : lo < q) (hee : e ≤ lo + size)
    (hqq : q ≤ lo + size) (hne : e ≠ q) : ringSlot size e ≠ ringSlot size q := by
  obtain hlt | hgt := Nat.lt_or_gt_of_ne hne
  · exact ringSlot_ne (by omega) hlt (by omega)
  · exact (ringSlot_ne (by omega) hgt (by omega)).symm

/-- The cell of the next item is free exactly when the item a ring before is gone. -/
theorem next_free_iff (h : RingHolds size busy good cells lo hi) (hsize : 0 < size) :
    ¬ busy (cells (ringSlot size (hi + 1))) ↔ hi < lo + size := by
  constructor
  · intro hfree
    by_contra hfull
    have hwindow := h.window
    have hheld := h.held (hi + 1 - size) (by omega) (by omega)
    have heq : hi + 1 - size + size = hi + 1 := by omega
    rw [← heq, ringSlot_add size (by omega)] at hfree
    exact hfree hheld
  · intro hlt
    exact h.free (hi + 1) (Nat.lt_succ_self hi) hlt

/-- Change the cell of an item of the window. -/
theorem update (h : RingHolds size busy good cells lo hi) {e : Nat} {c : Cell} (hlo : lo < e)
    (hhi : e ≤ hi) (hbusy : busy c) (hgood : good e c) :
    RingHolds size busy good (Function.update cells (ringSlot size e) c) lo hi := by
  have hwindow := h.window
  have hother : ∀ q, lo < q → q ≤ lo + size → q ≠ e →
      Function.update cells (ringSlot size e) c (ringSlot size q) = cells (ringSlot size q) :=
    fun q hq hqq hne => Function.update_of_ne (slot_ne hq hlo hqq (by omega) hne) c cells
  refine { h with held := ?_, contents := ?_, free := ?_ }
  · intro q hq hqhi
    by_cases hne : q = e
    · subst hne
      rwa [Function.update_self]
    · rw [hother q hq (by omega) hne]
      exact h.held q hq hqhi
  · intro q hq hqhi
    by_cases hne : q = e
    · subst hne
      rwa [Function.update_self]
    · rw [hother q hq (by omega) hne]
      exact h.contents q hq hqhi
  · intro q hq hqq
    rw [hother q (by omega) hqq (by omega)]
    exact h.free q hq hqq

/-- Write to the cell of the next item, which stays free. -/
theorem update_next (h : RingHolds size busy good cells lo hi) {c : Cell}
    (hnext : hi < lo + size) (hc : ¬ busy c) :
    RingHolds size busy good (Function.update cells (ringSlot size (hi + 1)) c) lo hi := by
  have horder := h.order
  have hother : ∀ q, lo < q → q ≤ lo + size → q ≠ hi + 1 →
      Function.update cells (ringSlot size (hi + 1)) c (ringSlot size q) =
        cells (ringSlot size q) :=
    fun q hq hqq hne => Function.update_of_ne (slot_ne hq (by omega) hqq hnext hne) c cells
  refine { h with held := ?_, contents := ?_, free := ?_ }
  · intro q hq hqhi
    rw [hother q hq (by omega) (by omega)]
    exact h.held q hq hqhi
  · intro q hq hqhi
    rw [hother q hq (by omega) (by omega)]
    exact h.contents q hq hqhi
  · intro q hq hqq
    by_cases hne : q = hi + 1
    · subst hne
      rwa [Function.update_self]
    · rw [hother q (by omega) hqq hne]
      exact h.free q hq hqq

/-- The next item takes its cell. -/
theorem push (h : RingHolds size busy good cells lo hi) {c : Cell} (hnext : hi < lo + size)
    (hbusy : busy c) (hgood : good (hi + 1) c) :
    RingHolds size busy good (Function.update cells (ringSlot size (hi + 1)) c) lo (hi + 1) := by
  have horder := h.order
  have hother : ∀ q, lo < q → q ≤ lo + size → q ≠ hi + 1 →
      Function.update cells (ringSlot size (hi + 1)) c (ringSlot size q) =
        cells (ringSlot size q) :=
    fun q hq hqq hne => Function.update_of_ne (slot_ne hq (by omega) hqq hnext hne) c cells
  refine ⟨by omega, hnext, ?_, ?_, ?_⟩
  · intro q hq hqhi
    by_cases hne : q = hi + 1
    · subst hne
      rwa [Function.update_self]
    · rw [hother q hq (by omega) hne]
      exact h.held q hq (by omega)
  · intro q hq hqhi
    by_cases hne : q = hi + 1
    · subst hne
      rwa [Function.update_self]
    · rw [hother q hq (by omega) hne]
      exact h.contents q hq (by omega)
  · intro q hq hqq
    rw [hother q (by omega) hqq (by omega)]
    exact h.free q (by omega) hqq

/-- The oldest item leaves its cell. -/
theorem pop (h : RingHolds size busy good cells lo hi) {c : Cell} (hlt : lo < hi)
    (hc : ¬ busy c) :
    RingHolds size busy good (Function.update cells (ringSlot size (lo + 1)) c) (lo + 1) hi := by
  have hwindow := h.window
  have hother : ∀ q, lo < q → q ≤ lo + size → q ≠ lo + 1 →
      Function.update cells (ringSlot size (lo + 1)) c (ringSlot size q) =
        cells (ringSlot size q) :=
    fun q hq hqq hne =>
      Function.update_of_ne (slot_ne hq (Nat.lt_succ_self lo) hqq (by omega) hne) c cells
  refine ⟨hlt, by omega, ?_, ?_, ?_⟩
  · intro q hq hqhi
    rw [hother q (by omega) (by omega) (by omega)]
    exact h.held q (by omega) hqhi
  · intro q hq hqhi
    rw [hother q (by omega) (by omega) (by omega)]
    exact h.contents q (by omega) hqhi
  · intro q hq hqq
    by_cases hle : q ≤ lo + size
    · rw [hother q (by omega) hle (by omega)]
      exact h.free q hq hle
    · have heq : q = lo + 1 + size := by omega
      rw [heq, ringSlot_add size (Nat.succ_pos lo), Function.update_self]
      exact hc

end RingHolds

end TorchMojoBackend.Foundation
