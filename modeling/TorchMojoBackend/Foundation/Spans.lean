/-
  `Foundation.Spans`: rounding, half-open spans of naturals and tilings.

  Everything in this file is independent of the modelled program.
-/
import Mathlib.Data.List.Pairwise
import Mathlib.Data.List.Range
import Mathlib.Data.Nat.Basic

set_option autoImplicit false

namespace TorchMojoBackend.Foundation

/-! ## Rounding -/

/-- The least multiple of `a` that is at least `x`. -/
def alignUp (x a : Nat) : Nat := (x + a - 1) / a * a

theorem dvd_alignUp (x a : Nat) : a ∣ alignUp x a := Nat.dvd_mul_left a _

theorem alignUp_lt {x a : Nat} (ha : 0 < a) : alignUp x a < x + a := by
  have h := Nat.div_mul_le_self (x + a - 1) a
  unfold alignUp
  omega

theorem le_alignUp {x a : Nat} (ha : 0 < a) : x ≤ alignUp x a := by
  have hdiv := Nat.div_add_mod (x + a - 1) a
  have hmod := Nat.mod_lt (x + a - 1) ha
  unfold alignUp
  rw [Nat.mul_comm]
  omega

/-- Rounding up does not pass a multiple. -/
theorem alignUp_le {x y a : Nat} (hdvd : a ∣ y) (h : x ≤ y) : alignUp x a ≤ y := by
  obtain ⟨b, rfl⟩ := hdvd
  obtain rfl | ha := Nat.eq_zero_or_pos a
  · simp [alignUp]
  have hdiv : (x + a - 1) / a ≤ b := by
    have hle : x + a - 1 ≤ a * b + (a - 1) := by omega
    calc (x + a - 1) / a ≤ (a * b + (a - 1)) / a := Nat.div_le_div_right hle
      _ = b + (a - 1) / a := Nat.mul_add_div ha b (a - 1)
      _ = b := by rw [Nat.div_eq_of_lt (by omega : a - 1 < a), Nat.add_zero]
  unfold alignUp
  rw [Nat.mul_comm]
  exact Nat.mul_le_mul_left a hdiv

/-- Rounding a multiple of `m` up to a multiple of `w * m`. -/
theorem alignUp_mul {x w m : Nat} (hm : 0 < m) : alignUp x w * m = alignUp (x * m) (w * m) := by
  obtain rfl | hw := Nat.eq_zero_or_pos w
  · simp [alignUp]
  have hwm : 0 < w * m := Nat.mul_pos hw hm
  refine Nat.le_antisymm ?_ ?_
  · obtain ⟨b, hb⟩ := dvd_alignUp (x * m) (w * m)
    have hle : x ≤ w * b := by
      have h := le_alignUp (x := x * m) hwm
      rw [hb, Nat.mul_right_comm] at h
      exact Nat.le_of_mul_le_mul_right h hm
    rw [hb, Nat.mul_right_comm]
    exact Nat.mul_le_mul_right m (alignUp_le ⟨b, rfl⟩ hle)
  · exact alignUp_le (Nat.mul_dvd_mul_right (dvd_alignUp x w) m)
      (Nat.mul_le_mul_right m (le_alignUp hw))

/-- The pieces of size `c` that `n` needs. -/
def pieces (n c : Nat) : Nat := (n + c - 1) / c

theorem lt_pieces_iff {n c k : Nat} (hc : 0 < c) : k < pieces n c ↔ k * c < n := by
  unfold pieces
  rw [Nat.lt_iff_add_one_le, Nat.le_div_iff_mul_le hc, Nat.succ_mul]
  omega

theorem le_pieces_mul {n c : Nat} (hc : 0 < c) : n ≤ pieces n c * c :=
  le_alignUp hc

theorem pieces_mul_lt {n c : Nat} (hc : 0 < c) : pieces n c * c < n + c :=
  alignUp_lt hc

/-! ## Spans -/

/-- The naturals from `off` up to `off + len`. -/
structure Span where
  off : Nat
  len : Nat
  deriving DecidableEq, Repr

namespace Span

def stop (s : Span) : Nat := s.off + s.len

instance : Membership Nat Span where
  mem s i := s.off ≤ i ∧ i < s.stop

theorem mem_iff {s : Span} {i : Nat} : i ∈ s ↔ s.off ≤ i ∧ i < s.stop := Iff.rfl

instance (s : Span) (i : Nat) : Decidable (i ∈ s) :=
  inferInstanceAs (Decidable (_ ∧ _))

/-- One span ends before the other starts. -/
def Apart (a b : Span) : Prop := a.stop ≤ b.off ∨ b.stop ≤ a.off

/-- Every natural of `a` is one of `b`. -/
def Within (a b : Span) : Prop := b.off ≤ a.off ∧ a.stop ≤ b.stop

theorem Apart.symm {a b : Span} (h : a.Apart b) : b.Apart a := Or.symm h

theorem Apart.not_mem {a b : Span} (h : a.Apart b) {i : Nat} (hi : i ∈ a) : i ∉ b := by
  intro hj
  obtain h | h := h
  · have := hi.2
    have := hj.1
    omega
  · have := hi.1
    have := hj.2
    omega

theorem Within.mem {a b : Span} (h : a.Within b) {i : Nat} (hi : i ∈ a) : i ∈ b :=
  ⟨Nat.le_trans h.1 hi.1, Nat.lt_of_lt_of_le hi.2 h.2⟩

theorem Within.trans {a b c : Span} (hab : a.Within b) (hbc : b.Within c) : a.Within c :=
  ⟨Nat.le_trans hbc.1 hab.1, Nat.le_trans hab.2 hbc.2⟩

theorem Apart.of_within {a b c d : Span} (h : a.Apart b) (hc : c.Within a) (hd : d.Within b) :
    c.Apart d := by
  obtain h | h := h
  · exact .inl (Nat.le_trans hc.2 (Nat.le_trans h hd.1))
  · exact .inr (Nat.le_trans hd.2 (Nat.le_trans h hc.1))

/-- Move a span up. -/
def shift (s : Span) (base : Nat) : Span := ⟨base + s.off, s.len⟩

theorem Apart.shift {a b : Span} (h : a.Apart b) (base : Nat) :
    (a.shift base).Apart (b.shift base) := by
  unfold Apart Span.shift stop at *
  dsimp only
  omega

end Span

/-! ## Rows of slots -/

/-- Slot `j` of a row of slots of `size` each. -/
def slotAt (base size j : Nat) : Span := ⟨base + j * size, size⟩

theorem slotAt_stop (base size j : Nat) : (slotAt base size j).stop = base + (j + 1) * size := by
  unfold slotAt Span.stop
  rw [Nat.succ_mul, Nat.add_assoc]

theorem slotAt_stop_le (base size : Nat) {j n : Nat} (h : j < n) :
    (slotAt base size j).stop ≤ base + n * size := by
  rw [slotAt_stop]
  exact Nat.add_le_add_left (Nat.mul_le_mul_right size h) base

/-- Different slots of a row are apart. -/
theorem slotAt_apart {base size j k : Nat} (h : j ≠ k) :
    (slotAt base size j).Apart (slotAt base size k) := by
  obtain h | h := Nat.lt_or_gt_of_ne h
  · exact .inl (slotAt_stop_le _ _ h)
  · exact .inr (slotAt_stop_le _ _ h)

/-- A row of slots covers what lies from its base to its end. -/
theorem mem_slots_iff {base size n i : Nat} (hsize : 0 < size) :
    (∃ j, j < n ∧ i ∈ slotAt base size j) ↔ base ≤ i ∧ i < base + n * size := by
  constructor
  · rintro ⟨j, hj, hi⟩
    have hbase : base ≤ (slotAt base size j).off := Nat.le_add_right base _
    exact ⟨Nat.le_trans hbase hi.1, Nat.lt_of_lt_of_le hi.2 (slotAt_stop_le base size hj)⟩
  · rintro ⟨hbase, hi⟩
    have hdiv := Nat.div_add_mod (i - base) size
    have hmod := Nat.mod_lt (i - base) hsize
    have hlt : (i - base) / size < n := Nat.div_lt_of_lt_mul (by rw [Nat.mul_comm]; omega)
    refine ⟨(i - base) / size, hlt, ?_⟩
    rw [Span.mem_iff, slotAt_stop, Nat.succ_mul]
    unfold slotAt
    dsimp only
    rw [Nat.mul_comm] at hdiv
    omega

/-! ## Tilings -/

/-- The spans `piece 0, …, piece (m - 1)` follow one another and cover exactly
the naturals below `n`. -/
structure Tiles (n m : Nat) (piece : Nat → Span) : Prop where
  cover : ∀ i, i < n ↔ ∃ k, k < m ∧ i ∈ piece k
  ordered : ∀ j k, j < k → k < m → (piece j).stop ≤ (piece k).off

namespace Tiles

variable {n m : Nat} {piece : Nat → Span}

theorem apart (h : Tiles n m piece) {j k : Nat} (hj : j < m) (hk : k < m) (hne : j ≠ k) :
    (piece j).Apart (piece k) := by
  obtain hlt | hgt := Nat.lt_or_gt_of_ne hne
  · exact .inl (h.ordered j k hlt hk)
  · exact .inr (h.ordered k j hgt hj)

end Tiles

/-- Piece `k` of `n` cut into pieces of size `c`. -/
def chunk (n c k : Nat) : Span := ⟨k * c, min c (n - k * c)⟩

theorem mem_chunk_iff {n c k i : Nat} : i ∈ chunk n c k ↔ k * c ≤ i ∧ i < (k + 1) * c ∧ i < n := by
  rw [Span.mem_iff]
  unfold chunk Span.stop
  rw [Nat.succ_mul]
  dsimp only
  omega

/-- Cutting into pieces of one size tiles. -/
theorem tiles_chunk {n c : Nat} (hc : 0 < c) : Tiles n (pieces n c) (chunk n c) where
  cover i := by
    constructor
    · intro hi
      have hle : i / c * c ≤ i := Nat.div_mul_le_self i c
      refine ⟨i / c, (lt_pieces_iff hc).mpr (Nat.lt_of_le_of_lt hle hi), ?_⟩
      have hlt : i < (i / c + 1) * c := by
        rw [Nat.mul_comm]
        exact Nat.lt_mul_div_succ i hc
      exact mem_chunk_iff.mpr ⟨hle, hlt, hi⟩
    · rintro ⟨k, -, hi⟩
      exact (mem_chunk_iff.mp hi).2.2
  ordered j k hjk hk := by
    have hmul : (j + 1) * c ≤ k * c := Nat.mul_le_mul_right c hjk
    rw [Nat.succ_mul] at hmul
    unfold chunk Span.stop
    dsimp only
    omega

theorem chunk_len_pos {n c k : Nat} (hc : 0 < c) (hk : k < pieces n c) : 0 < (chunk n c k).len := by
  have := (lt_pieces_iff hc).mp hk
  unfold chunk
  dsimp only
  omega

theorem chunk_len_le (n c k : Nat) : (chunk n c k).len ≤ c := Nat.min_le_left _ _

end TorchMojoBackend.Foundation
