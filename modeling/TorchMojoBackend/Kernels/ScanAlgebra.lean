/-
  `Kernels.ScanAlgebra`: the merges of the scans.

  A scan is lawful when its merge is associative and its identity does nothing on the
  left.  Exact sums and products are.  The selecting scans keep the later of two unless
  it ranks below, with NaN above the numbers, so they are too, and what they keep of
  several elements is one of them with its index.
-/
import Mathlib.Algebra.Group.Defs
import Mathlib.Order.WithBot
import TorchMojoBackend.Foundation.Scalar
import TorchMojoBackend.Kernels.Scan

set_option autoImplicit false

namespace TorchMojoBackend.Kernels.Scan

open TorchMojoBackend.Foundation

universe u v w

variable {α : Type u} {β : Type v} {V : Type w}

/-- The merge is associative and the identity is one on the left. -/
structure Lawful (op : ScanOp α β) : Prop where
  assoc : ∀ a b c, merge op (merge op a b) c = merge op a (merge op b c)
  left : ∀ a, (merge op (op.identity, -1) a).1 = a.1
  leftIndex : op.withIndex = true → ∀ a, (merge op (op.identity, -1) a).2 = a.2

/-! ## Value scans -/

section
variable {op : ScanOp α β}

theorem merge_value (h : op.withIndex = false) (a b : β × Int) :
    merge op a b = (vmerge op a.1 b.1, a.2) := by
  unfold vmerge merge
  rw [h]
  rfl

theorem Lawful.vassoc (hop : Lawful op) (h : op.withIndex = false) (a b c : β) :
    vmerge op (vmerge op a b) c = vmerge op a (vmerge op b c) := by
  have hassoc := hop.assoc (a, -1) (b, -1) (c, -1)
  simp only [merge_value h] at hassoc
  exact (Prod.mk.inj hassoc).1

theorem Lawful.vleft (hop : Lawful op) (a : β) : vmerge op op.identity a = a := hop.left (a, -1)

end

/-- `SumScan` on exact elements. -/
def sumScan (β : Type v) [Zero β] [Add β] : ScanOp β β where
  withIndex := false
  rounds := true
  wide := false
  load := id
  store := id
  identity := 0
  combine := (· + ·)
  takeLater _ _ := true

/-- `ProdScan` on exact elements. -/
def prodScan (β : Type v) [One β] [Mul β] : ScanOp β β where
  withIndex := false
  rounds := true
  wide := false
  load := id
  store := id
  identity := 1
  combine := (· * ·)
  takeLater _ _ := true

theorem sumScan_lawful (β : Type v) [AddMonoid β] : Lawful (sumScan β) where
  assoc a b c := Prod.ext (add_assoc a.1 b.1 c.1) rfl
  left a := zero_add a.1
  leftIndex h := absurd h Bool.false_ne_true

theorem prodScan_lawful (β : Type v) [Monoid β] : Lawful (prodScan β) where
  assoc a b c := Prod.ext (mul_assoc a.1 b.1 c.1) rfl
  left a := one_mul a.1
  leftIndex h := absurd h Bool.false_ne_true

/-! ## Selecting scans -/

section
variable [LinearOrder V] [Scalar β V]

/-- `MaxScan`; the identity is the lowest element. -/
def maxScan (lowest : β) : ScanOp β β where
  withIndex := true
  rounds := false
  wide := false
  load := id
  store := id
  identity := lowest
  combine a b := if Scalar.isNaN b || (!Scalar.isNaN a && Scalar.ge b a) then b else a
  takeLater cur nxt := Scalar.isNaN nxt || (!Scalar.isNaN cur && Scalar.ge nxt cur)

/-- `MinScan`; the identity is the highest element. -/
def minScan (highest : β) : ScanOp β β where
  withIndex := true
  rounds := false
  wide := false
  load := id
  store := id
  identity := highest
  combine a b := if Scalar.isNaN b || (!Scalar.isNaN a && Scalar.le b a) then b else a
  takeLater cur nxt := Scalar.isNaN nxt || (!Scalar.isNaN cur && Scalar.le nxt cur)

/-- A merge that keeps the later element unless it ranks below. -/
theorem lawful_of_rank {op : ScanOp β β} {K : Type*} [LinearOrder K] (rank : β → K)
    (hindex : op.withIndex = true)
    (htake : ∀ a b, op.takeLater a b = true ↔ rank a ≤ rank b)
    (hidentity : ∀ a, rank op.identity ≤ rank a) : Lawful op := by
  have hmerge : ∀ a b, merge op a b = if rank a.1 ≤ rank b.1 then b else a := fun a b => by
    unfold merge
    rw [if_pos hindex]
    exact ite_congr (propext (htake _ _)) (fun _ => rfl) fun _ => rfl
  have hleft : ∀ a, merge op (op.identity, -1) a = a := fun a => by
    rw [hmerge, if_pos (hidentity a.1)]
  refine ⟨fun a b c => ?_, fun a => by rw [hleft], fun _ a => by rw [hleft]⟩
  simp only [hmerge]
  -- the later of two that tie wins on both sides
  by_cases hab : rank a.1 ≤ rank b.1 <;> by_cases hbc : rank b.1 ≤ rank c.1
  · rw [if_pos hab, if_pos hbc, if_pos (hab.trans hbc)]
  · rw [if_pos hab, if_neg hbc, if_pos hab]
  · rw [if_neg hab, if_pos hbc]
  · have hac : ¬ rank a.1 ≤ rank c.1 := fun h =>
      hbc (le_of_lt (not_le.mp hab) |>.trans h)
    rw [if_neg hab, if_neg hbc, if_neg hab, if_neg hac]

/-- The numbers, NaN above them. -/
def rankUp (a : β) : WithTop V :=
  match Scalar.value a with
  | none => ⊤
  | some x => (x : V)

/-- The numbers the other way, NaN above them. -/
def rankDown (a : β) : WithTop Vᵒᵈ :=
  match Scalar.value a with
  | none => ⊤
  | some x => (OrderDual.toDual x : Vᵒᵈ)

/-- The lowest element is a number, and no number is below it. -/
def Lowest (low : β) : Prop := ∃ b : V, Scalar.value low = some b ∧
  ∀ (a : β) (x : V), Scalar.value a = some x → b ≤ x

/-- The highest element is a number, and no number is above it. -/
def Highest (high : β) : Prop := ∃ b : V, Scalar.value high = some b ∧
  ∀ (a : β) (x : V), Scalar.value a = some x → x ≤ b

theorem maxScan_lawful {lowest : β} (h : Lowest lowest) : Lawful (maxScan lowest) := by
  refine lawful_of_rank rankUp rfl (fun a b => ?_) fun a => ?_
  · change (Scalar.isNaN b || (!Scalar.isNaN a && Scalar.ge b a)) = true ↔ _
    unfold rankUp Scalar.isNaN Scalar.ge Scalar.le
    cases Scalar.value a <;> cases Scalar.value b <;> simp
  · obtain ⟨b, hb, hleast⟩ := h
    change rankUp lowest ≤ rankUp a
    unfold rankUp
    rw [hb]
    cases ha : Scalar.value a with
    | none => exact le_top
    | some x => exact WithTop.coe_le_coe.mpr (hleast a x ha)

theorem minScan_lawful {highest : β} (h : Highest highest) : Lawful (minScan highest) := by
  refine lawful_of_rank rankDown rfl (fun a b => ?_) fun a => ?_
  · change (Scalar.isNaN b || (!Scalar.isNaN a && Scalar.le b a)) = true ↔ _
    unfold rankDown Scalar.isNaN Scalar.le
    cases Scalar.value a <;> cases Scalar.value b <;> simp
  · obtain ⟨b, hb, hmost⟩ := h
    change rankDown highest ≤ rankDown a
    unfold rankDown
    rw [hb]
    cases ha : Scalar.value a with
    | none => exact le_top
    | some x => exact WithTop.coe_le_coe.mpr (hmost a x ha)

end

/-! ## Prefixes -/

section
variable (op : ScanOp α β)

/-- The elements of a line with their indices. -/
def element (x : Nat → α) (k : Nat) : β × Int := (op.load (x k), k)

/-- The merge of the elements of a line up to the `r`-th. -/
def prefixMerge (x : Nat → α) (r : Nat) : β × Int := fold1 (merge op) (element op x) 0 r

/-- A state and a prefix, as far as a scan shows them. -/
def Shows (a b : β × Int) : Prop := a.1 = b.1 ∧ (op.withIndex = true → a.2 = b.2)

variable {op}

/-- The seed of a prefix does not show. -/
theorem Lawful.seeded_shows (hop : Lawful op) (x : Nat → α) (r : Nat) :
    Shows op (seeded (merge op) (op.identity, -1) (element op x) (r + 1)) (prefixMerge op x r) :=
  ⟨hop.left _, fun h => hop.leftIndex h _⟩

/-- A merge of a selecting scan keeps one of its elements with its index. -/
theorem prefixMerge_selects (h : op.withIndex = true) (x : Nat → α) (r : Nat) :
    ∃ k, k ≤ r ∧ prefixMerge op x r = (op.load (x k), (k : Int)) := by
  induction r with
  | zero => exact ⟨0, Nat.le_refl _, rfl⟩
  | succ r ih =>
      obtain ⟨k, hk, heq⟩ := ih
      have hstep : prefixMerge op x (r + 1) =
          merge op (prefixMerge op x r) (element op x (0 + r + 1)) := rfl
      rw [hstep]
      unfold merge
      rw [if_pos h]
      split
      · exact ⟨r + 1, Nat.le_refl _, by rw [Nat.zero_add]; rfl⟩
      · exact ⟨k, Nat.le_succ_of_le hk, heq⟩

/-- The value of a prefix of a value scan. -/
theorem prefixMerge_value (h : op.withIndex = false) (x : Nat → α) (r : Nat) :
    (prefixMerge op x r).1 = fold1 (vmerge op) (fun k => op.load (x k)) 0 r := by
  induction r with
  | zero => rfl
  | succ r ih =>
      have hstep : prefixMerge op x (r + 1) =
          merge op (prefixMerge op x r) (element op x (0 + r + 1)) := rfl
      rw [hstep, merge_value h, ih]
      rfl

end

end TorchMojoBackend.Kernels.Scan
