/-
  `Ops.Linalg.Launches`: the launches of the factorization and solve kernels.

  Source: tmb/ops/linalg.mojo (`_k_potrf`, `_k_trsm`), tmb/kernels/linalg/entry.mojo (`_blocks`).
-/
import TorchMojoBackend.Foundation.BatchLaunch
import TorchMojoBackend.Kernels.Linalg.Potrf
import TorchMojoBackend.Kernels.Linalg.TriangularSystem
import TorchMojoBackend.Kernels.Linalg.Trsm
import TorchMojoBackend.Ops.Linalg.Views

set_option autoImplicit false

namespace TorchMojoBackend.Ops.Linalg

open TorchMojoBackend.Foundation
open TorchMojoBackend.Kernels.Linalg

def LA_THREADS : Nat := 256
def LA_MAX_BLOCKS : Nat := 65535

/-- `_blocks` -/
def _blocks (n : Nat) : Nat := max 1 (min n LA_MAX_BLOCKS)

theorem blocks_pos (n : Nat) : 0 < _blocks n := Nat.lt_of_lt_of_le Nat.one_pos (Nat.le_max_left _ _)

theorem threads_pos : 0 < LA_THREADS := by decide

section

variable {K : Type}

/-! ## Launches -/

/-- `_k_potrf`: the tensor and its status in the end. -/
def _k_potrf [Zero K] [One K] [Sub K] [Mul K] [Div K] [LT K] [DecidableLT K] (sqrt : K → K) (a : T K)
    (info : Int → Int) : Must (T K × (Int → Int)) :=
  let n := a.cols
  let batch := a._batch_count
  if batch = 0 then pure (a, info)
  else do
    let m ← Must.any fun m : ∀ c, Cell.Val K c =>
      (∀ x, m (.a x) = a.storage x) ∧ ∀ x, m (.info x) = info x
    let m' ← launch (fun c => (∃ x, c = .a x) ∨ ∃ x, c = .info x)
      (fun (blk : Fin (_blocks batch)) (t : Fin LA_THREADS) =>
        _potrf_kernel sqrt n a.rs a.cs (_bstride a) batch blk t) m
    pure (a.withStorage fun x => m' (.a x), fun x => m' (.info x))

/-- `_k_trsm` -/
def _k_trsm [Field K] (a b : T K) (upper trans unit : Bool) : Must (T K) :=
  let batch := b._batch_count
  if batch = 0 ∨ b.numel = 0 then pure b
  else do
    let a_rs := if trans then a.cs else a.rs
    let a_cs := if trans then a.rs else a.cs
    let m ← Must.any fun m : ∀ c, Cell.Val K c =>
      (∀ x, m (.a x) = a.storage x) ∧ ∀ x, m (.b x) = b.storage x
    let chunks := (b.cols + TRSM_COLS - 1) / TRSM_COLS
    let m' ← launch (fun c => ∃ x, c = .b x)
      (fun (blk : Fin (_blocks (batch * chunks))) (t : Fin LA_THREADS) =>
        _trsm_kernel b.rows b.cols a_rs a_cs (_bstride a) b.rs b.cs (_bstride b) batch (upper == trans)
          unit blk t) m
    pure (b.withStorage fun x => m' (.b x))

/-! ## What they leave -/

theorem addr_el {t : T K} (h : 0 ≤ _bstride t) {x : List Nat} (hx : x ∈ indices t._batch_dims) (i k : Nat) :
    el t.rs t.cs (flatIndex t._batch_dims x * _bstride t) i k = t.addr x i k := by
  rw [el, T.addr, along_bstride h hx]

theorem entries_of_injective {t : T K} (hinj : t.Injective) (h : 0 ≤ _bstride t) :
    Entries t._batch_count t.rows t.cols t.rs t.cs (_bstride t) := by
  intro b b' i k i' k' hb hb' hd hd' heq
  obtain ⟨x, hx, rfl⟩ := exists_index hb
  obtain ⟨y, hy, rfl⟩ := exists_index hb'
  rw [addr_el h hx, addr_el h hy] at heq
  obtain ⟨rfl, hi, hk⟩ := hinj x hx y hy i k i' k' hd.1 hd.2 hd'.1 hd'.2 heq
  exact ⟨rfl, hi, hk⟩

theorem indices_of_empty {dims x : List Nat} (h : dims.prod = 0) : x ∉ indices dims := fun hx => by
  have hlt := flatIndex_lt hx
  omega

/-- The factorization of every matrix of the batch. -/
theorem k_potrf_spec [Zero K] [One K] [Sub K] [Mul K] [Div K] [LT K] [DecidableLT K] (sqrt : K → K)
    {a : T K} (info : Int → Int) (hsquare : a.rows = a.cols) (hinj : a.Injective) (hb : 0 ≤ _bstride a) :
    (_k_potrf sqrt a info).run fun r => ∃ storage, r.1 = a.withStorage storage ∧
      ∀ x ∈ indices a._batch_dims,
        r.2 (flatIndex a._batch_dims x) = ((potrf sqrt (List.range a.cols) (a.elem x)).1 : Int) ∧
        ∀ i k, i < a.cols → k < a.cols → r.1.elem x i k =
          if i < k then 0 else (potrf sqrt (List.range a.cols) (a.elem x)).2 i k := by
  unfold _k_potrf
  dsimp only
  by_cases hcount : a._batch_count = 0
  · rw [if_pos hcount]
    exact ⟨a.storage, rfl, fun x hx => absurd hx (indices_of_empty hcount)⟩
  · rw [if_neg hcount]
    rintro m ⟨hma, -⟩
    have hentries := entries_of_injective hinj hb
    rw [hsquare] at hentries
    refine launch_of (potrf_grid (blocks_pos _) threads_pos hentries m) ?_ fun m' hm' => ?_
    · rintro c ⟨b, -, ⟨i, k, -, rfl⟩ | rfl⟩
      · exact .inl ⟨_, rfl⟩
      · exact .inr ⟨_, rfl⟩
    · refine ⟨_, rfl, fun x hx => ?_⟩
      have hdone := hm' _ (flatIndex_lt hx)
      have hstart : (fun i k => m (.a (el a.rs a.cs (flatIndex a._batch_dims x * _bstride a) i k))) =
          a.elem x := funext fun i => funext fun k => by rw [hma, addr_el hb hx]; rfl
      rw [hstart] at hdone
      refine ⟨hdone.1, fun i k hi hk => ?_⟩
      rw [← hdone.2 i k hi hk, addr_el hb hx]
      rfl

/-- What `_k_trsm` leaves: for every matrix of the batch `trsm`, one right-hand side at a time. -/
theorem k_trsm_elem [Field K] {a b : T K} {upper trans unit : Bool} (hbatch : a._batch_dims = b._batch_dims)
    (hinj : b.Injective) (ha : 0 ≤ _bstride a) (hb : 0 ≤ _bstride b) :
    (_k_trsm a b upper trans unit).run fun r => ∃ storage, r = b.withStorage storage ∧
      ∀ x ∈ indices b._batch_dims, ∀ i c, i < b.rows → c < b.cols → r.elem x i c =
        trsm b.rows (upper == trans) unit (fun i k => if trans then a.elem x k i else a.elem x i k)
          (fun i => b.elem x i c) i := by
  unfold _k_trsm
  dsimp only
  by_cases hempty : b._batch_count = 0 ∨ b.numel = 0
  · rw [if_pos hempty]
    refine ⟨b.storage, rfl, fun x hx i c hi hc => ?_⟩
    have hcount : b._batch_count ≠ 0 := fun h => indices_of_empty h hx
    have hnumel : b._batch_count * (b.rows * b.cols) = 0 := hempty.resolve_left hcount
    have hrows : b.rows * b.cols ≠ 0 := Nat.mul_ne_zero (by omega) (by omega)
    exact absurd hnumel (Nat.mul_ne_zero hcount hrows)
  · rw [if_neg hempty]
    rintro m ⟨hma, hmb⟩
    refine launch_of (trsm_grid (blocks_pos _) threads_pos (entries_of_injective hinj hb) m) ?_
      fun m' hm' => ?_
    · rintro c ⟨task, -, i, k, -, rfl⟩
      exact ⟨_, rfl⟩
    · refine ⟨_, rfl, fun x hx i c hi hc => ?_⟩
      have hdone := hm' _ (flatIndex_lt hx) i c ⟨hi, hc⟩
      have hmatrix : (fun i k => m (.a (el (if trans then a.cs else a.rs) (if trans then a.rs else a.cs)
          (flatIndex b._batch_dims x * _bstride a) i k))) =
          fun i k => if trans then a.elem x k i else a.elem x i k := by
        funext i k
        rw [hma, ← hbatch]
        rw [← hbatch] at hx
        cases trans with
        | true =>
            rw [if_pos rfl, if_pos rfl, if_pos rfl, T.elem, ← addr_el ha hx, el, el, Int.add_right_comm]
        | false =>
            rw [if_neg Bool.false_ne_true, if_neg Bool.false_ne_true, if_neg Bool.false_ne_true, T.elem,
              ← addr_el ha hx]
      have hrhs : (fun i => m (.b (el b.rs b.cs (flatIndex b._batch_dims x * _bstride b) i c))) =
          fun i => b.elem x i c := funext fun i => by
        rw [hmb, addr_el hb hx]
        rfl
      dsimp only at hdone
      rw [hmatrix, hrhs, addr_el hb hx] at hdone
      exact hdone

/-- It solves a triangular system for every matrix of the batch. -/
theorem k_trsm_solves [Field K] (a b : T K) (upper trans unit : Bool)
    (hbatch : a._batch_dims = b._batch_dims) (hinj : b.Injective) (ha : 0 ≤ _bstride a) (hb : 0 ≤ _bstride b)
    (hdiag : unit = false → ∀ x ∈ indices b._batch_dims, ∀ i < b.rows, a.elem x i i ≠ 0) :
    (_k_trsm a b upper trans unit).run fun r => ∃ storage, r = b.withStorage storage ∧
      ∀ x ∈ indices b._batch_dims, toMatrix b.rows b.rows (fun i k =>
          if trans then triangle upper unit (a.elem x) k i else triangle upper unit (a.elem x) i k) *
        toMatrix b.rows b.cols (r.elem x) = toMatrix b.rows b.cols (b.elem x) := by
  refine (_k_trsm a b upper trans unit).mono ?_ (k_trsm_elem hbatch hinj ha hb)
  rintro r ⟨storage, hr, helem⟩
  refine ⟨storage, hr, fun x hx => ?_⟩
  have hsystem := trsm_system b.rows (upper == trans) unit
    (fun i k => if trans then a.elem x k i else a.elem x i k) b.cols (fun hunit i hi => by
      have hne := hdiag hunit x hx i hi
      cases trans with
      | true => exact hne
      | false => exact hne) (b.elem x)
  rw [← hsystem, toMatrix_congr (helem x hx)]
  congr 1
  cases trans with
  | true =>
      refine toMatrix_congr fun i k _ _ => ?_
      have hupper : (!(upper == true)) = !upper := by cases upper <;> rfl
      simp only [if_true, hupper]
      rw [triangle_transpose (!upper) unit (a.elem x) i k, Bool.not_not]
  | false =>
      have hupper : (!(upper == false)) = upper := by cases upper <;> rfl
      simp only [Bool.false_eq_true, if_false, hupper]

end

end TorchMojoBackend.Ops.Linalg
