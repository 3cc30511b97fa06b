/-
  `Ops.Linalg.Cholesky`: the Cholesky operators.

  Source: tmb/ops/linalg.mojo (`_cholesky`, `_cholesky_inverse`, `op_cholesky_solve_helper`,
  `_check_square`, `_linear_solve_check`).
-/
import TorchMojoBackend.Kernels.Linalg.Cholesky
import TorchMojoBackend.Ops.Linalg.Launches

set_option autoImplicit false

namespace TorchMojoBackend.Ops.Linalg

open TorchMojoBackend.Foundation
open TorchMojoBackend.Kernels.Linalg
open Matrix

section

variable {K : Type} [Field K]

/-- `_check_square` -/
def _check_square (t : T K) (name arg : String) : Except String Unit :=
  if t.cols ≠ t.rows then
    .error (name ++ ": " ++ arg ++ " must be batches of square matrices, but they are " ++
      toString t.rows ++ " by " ++ toString t.cols ++ " matrices")
  else .ok ()

/-- `_linear_solve_check` -/
def _linear_solve_check (B A : T K) (name : String) : Except String Unit := do
  if A.cols ≠ A.rows then
    .error ("A must be batches of square matrices, but they are " ++ toString A.cols ++ " by " ++
      toString A.rows ++ " matrices")
  if A.cols ≠ B.rows then
    .error ("Incompatible matrix sizes for " ++ name ++ ": each A matrix is " ++ toString A.cols ++
      " by " ++ toString A.cols ++ " but each b matrix is " ++ toString B.rows ++ " by " ++
      toString B.cols)

/-- `_cholesky`: the factor and its status. -/
def _cholesky [LT K] [DecidableLT K] (sqrt : K → K) (A : T K) (upper : Bool) : Must (T K × (Int → Int)) := do
  let fresh ← Must.any fun _ : Int → K => True
  let L := _clone_f A fresh
  let info ← Must.any fun _ : Int → Int => True
  if L.numel = 0 then pure (L, fun _ => 0)
  else if upper then do
    -- U^T U = A from A's upper triangle is the lower factor of A^T
    let r ← _k_potrf sqrt L._mT info
    pure (L.withStorage r.1.storage, r.2)
  else do
    let r ← _k_potrf sqrt L info
    pure (L.withStorage r.1.storage, r.2)

/-- `op_linalg_cholesky_ex`, without `check_errors`. -/
def op_linalg_cholesky_ex [LT K] [DecidableLT K] (sqrt : K → K) (A : T K) (upper : Bool) :
    Except String (Must (T K × (Int → Int))) := do
  _check_square A "linalg.cholesky" "A"
  pure (_cholesky sqrt A upper)

/-- `_cholesky_inverse` -/
def _cholesky_inverse (A : T K) (upper : Bool) : Must (T K) := do
  let fresh ← Must.any fun _ : Int → K => True
  let X := _new_f A._batch_dims A.rows A.cols fresh
  if X.numel = 0 then pure X
  else do
    let spare ← Must.any fun _ : Int → K => True
    let Af := _flat A spare
    let Y ← _k_trsm Af (_eye_into X) upper upper false
    _k_trsm Af Y upper (!upper) false

/-- `op_cholesky_inverse` -/
def op_cholesky_inverse (A : T K) (upper : Bool) : Except String (Must (T K)) := do
  _check_square A "cholesky_inverse" "A"
  pure (_cholesky_inverse A upper)

/-- `op_cholesky_solve_helper` -/
def op_cholesky_solve_helper (B A : T K) (upper : Bool) : Except String (Must (T K)) := do
  _linear_solve_check B A "cholesky_solve"
  pure do
    let fresh ← Must.any fun _ : Int → K => True
    let spare ← Must.any fun _ : Int → K => True
    let Af := _clone_f A spare
    let Y ← _k_trsm Af (_clone_f B fresh) upper upper false
    _k_trsm Af Y upper (!upper) false

end

/-! ## The factorization -/

/-- The symmetric matrix that a triangle of `M` gives. -/
def given {K : Type} (upper : Bool) (M : Nat → Nat → K) (i k : Nat) : K :=
  if (if upper then i ≤ k else k ≤ i) then M i k else M k i

/-- `U^T U` of an upper triangle, `L L^T` of a lower one. -/
def factorProduct {K : Type} [CommRing K] (upper : Bool) (n : Nat) (F : Nat → Nat → K) :
    Matrix (Fin n) (Fin n) K :=
  if upper then (toMatrix n n (upperPart F))ᵀ * toMatrix n n (upperPart F)
  else toMatrix n n (lowerPart F) * (toMatrix n n (lowerPart F))ᵀ

/-- `F` and `info` are the Cholesky factorization of the matrix that a triangle of `M` gives. -/
structure CholeskyOf (upper : Bool) (n : Nat) (M F : Nat → Nat → ℝ) (info : Int) : Prop where
  triangular : ∀ i k, i < n → k < n → (if upper then k < i else i < k) → F i k = 0
  posDef : info = 0 ↔ (toMatrix n n (given upper M)).PosDef
  factor : info = 0 → (∀ i < n, 0 < F i i) ∧ factorProduct upper n F = toMatrix n n (given upper M)
  minor : info ≠ 0 → ∃ q : Nat, info = q + 1 ∧ FirstMinor (given upper M) n (q + 1) ∧
    (∀ i < q, 0 < F i i) ∧ factorProduct upper q F = toMatrix q q (given upper M)

section

variable {K : Type} [Field K] [LT K] [DecidableLT K] (sqrt : K → K)

/-- The elements that `_cholesky` leaves. -/
def choleskyElem (upper : Bool) (n : Nat) (M : Nat → Nat → K) (i k : Nat) : K :=
  if upper then if k < i then 0 else (potrf sqrt (List.range n) fun i k => M k i).2 k i
  else if i < k then 0 else (potrf sqrt (List.range n) M).2 i k

/-- The status that `_cholesky` leaves. -/
def choleskyInfo (upper : Bool) (n : Nat) (M : Nat → Nat → K) : Nat :=
  if upper then (potrf sqrt (List.range n) fun i k => M k i).1 else (potrf sqrt (List.range n) M).1

end

theorem lowerPart_clear {K : Type} [CommRing K] (W : Nat → Nat → K) :
    lowerPart (fun i k => if i < k then 0 else W i k) = lowerPart W := by
  funext i k
  unfold lowerPart
  by_cases hki : k ≤ i
  · rw [if_pos hki, if_pos hki]
    exact if_neg (Nat.not_lt_of_le hki)
  · rw [if_neg hki, if_neg hki]

theorem given_transpose {K : Type} (M : Nat → Nat → K) : given true M = given false fun i k => M k i := by
  funext i k
  change (if i ≤ k then M i k else M k i) = if k ≤ i then M k i else M i k
  by_cases hik : i = k
  · rw [hik, if_pos (Nat.le_refl k)]
  · by_cases hlt : i < k
    · rw [if_pos (Nat.le_of_lt hlt), if_neg (Nat.not_le_of_lt hlt)]
    · rw [if_neg (by omega), if_pos (by omega)]

/-- The upper factor of a matrix is the transpose of the lower factor of its transpose. -/
theorem CholeskyOf.transpose {n : Nat} {M F : Nat → Nat → ℝ} {info : Int}
    (h : CholeskyOf false n (fun i k => M k i) F info) : CholeskyOf true n M (fun i k => F k i) info := by
  obtain ⟨htri, hposDef, hfactor, hminor⟩ := h
  rw [← given_transpose] at hposDef hfactor hminor
  exact ⟨fun i k hi hk hki => htri k i hk hi hki, hposDef, hfactor, hminor⟩

theorem choleskyOf_lower (n : Nat) (M : Nat → Nat → ℝ) : CholeskyOf false n M
    (choleskyElem Real.sqrt false n M) (choleskyInfo Real.sqrt false n M : Int) := by
  have hsame : given false M = symmetric M := rfl
  have hproduct : ∀ q, factorProduct false q (choleskyElem Real.sqrt false n M) =
      toMatrix q q (lowerPart (potrf Real.sqrt (List.range n) M).2) *
        (toMatrix q q (lowerPart (potrf Real.sqrt (List.range n) M).2))ᵀ := fun q => by
    unfold factorProduct choleskyElem
    simp only [Bool.false_eq_true, if_false]
    rw [lowerPart_clear]
  have hdiag : ∀ i, choleskyElem Real.sqrt false n M i i = (potrf Real.sqrt (List.range n) M).2 i i :=
    fun i => if_neg (Nat.lt_irrefl i)
  obtain ⟨hposDef, hfactor, hminor⟩ := potrf_posDef M n
  rw [← hsame] at hposDef hfactor hminor
  refine ⟨fun i k _ _ hik => if_pos hik, ?_, fun hzero => ?_, fun hne => ?_⟩
  · rw [← hposDef]
    exact Int.natCast_eq_zero
  · obtain ⟨hpos, heq⟩ := hfactor (Int.natCast_eq_zero.mp hzero)
    exact ⟨fun i hi => (hdiag i).symm ▸ hpos i hi, (hproduct n).trans heq⟩
  · have hne' : (potrf Real.sqrt (List.range n) M).1 ≠ 0 := fun h => hne (Int.natCast_eq_zero.mpr h)
    obtain ⟨q, hq⟩ := Nat.exists_eq_succ_of_ne_zero hne'
    obtain ⟨hfirst, hleading⟩ := hminor hne'
    obtain ⟨hpos, heq⟩ := hleading q hq.symm
    rw [hq] at hfirst
    exact ⟨q, congrArg Nat.cast hq, hfirst, fun i hi => (hdiag i).symm ▸ hpos i hi,
      (hproduct q).trans heq⟩

theorem choleskyOf_elem (upper : Bool) (n : Nat) (M : Nat → Nat → ℝ) : CholeskyOf upper n M
    (choleskyElem Real.sqrt upper n M) (choleskyInfo Real.sqrt upper n M : Int) := by
  cases upper with
  | false => exact choleskyOf_lower n M
  | true => exact (choleskyOf_lower n fun i k => M k i).transpose

/-- The result depends on the given triangle only. -/
theorem cholesky_congr {K : Type} [Field K] [LT K] [DecidableLT K] (sqrt : K → K) {upper : Bool}
    {n : Nat} {M M' : Nat → Nat → K}
    (h : ∀ i k, i < n → k < n → (if upper then i ≤ k else k ≤ i) → M i k = M' i k) :
    choleskyInfo sqrt upper n M = choleskyInfo sqrt upper n M' ∧ ∀ i k, i < n → k < n →
      choleskyElem sqrt upper n M i k = choleskyElem sqrt upper n M' i k := by
  have hrange : ∀ j ∈ List.range n, j < n := fun j hj => List.mem_range.mp hj
  cases upper with
  | false =>
      have hlow : ∀ i k, k ≤ i → i < n → M i k = M' i k := fun i k hki hi => h i k hi (by omega) hki
      obtain ⟨hinfo, helem⟩ := potrf_congr sqrt hrange hlow
      refine ⟨hinfo, fun i k hi hk => ?_⟩
      unfold choleskyElem
      simp only [Bool.false_eq_true, if_false]
      by_cases hik : i < k
      · rw [if_pos hik, if_pos hik]
      · rw [if_neg hik, if_neg hik]
        exact helem i k (by omega) hi
  | true =>
      have hlow : ∀ i k, k ≤ i → i < n → (fun i k => M k i) i k = (fun i k => M' k i) i k :=
        fun i k hki hi => h k i (by omega) hi hki
      obtain ⟨hinfo, helem⟩ := potrf_congr sqrt hrange hlow
      refine ⟨hinfo, fun i k hi hk => ?_⟩
      unfold choleskyElem
      simp only [if_true]
      by_cases hki : k < i
      · rw [if_pos hki, if_pos hki]
      · rw [if_neg hki, if_neg hki]
        exact helem k i (by omega) hk

/-- What `_cholesky` leaves of every matrix of the batch. -/
theorem cholesky_elem {K : Type} [Field K] [LT K] [DecidableLT K] (sqrt : K → K) {A : T K}
    (upper : Bool) (hsquare : A.rows = A.cols) :
    (_cholesky sqrt A upper).run fun r => r.1._batch_dims = A._batch_dims ∧ r.1.rows = A.rows ∧
      r.1.cols = A.cols ∧ ∀ x ∈ indices A._batch_dims,
        r.2 (flatIndex A._batch_dims x) = (choleskyInfo sqrt upper A.cols (A.elem x) : Int) ∧
        ∀ i k, i < A.cols → k < A.cols → r.1.elem x i k = choleskyElem sqrt upper A.cols (A.elem x) i k := by
  intro fresh _ info _
  have hdims := clone_batch_dims A fresh
  have hinj := clone_injective A fresh
  have hb := clone_bstride A fresh
  have helem : ∀ x ∈ indices A._batch_dims, ∀ i k, i < A.cols → k < A.cols →
      (_clone_f A fresh).elem x i k = A.elem x i k := fun x hx i k hi hk =>
    clone_elem A fresh hx (hsquare ▸ hi) hk
  dsimp only
  by_cases hempty : (_clone_f A fresh).numel = 0
  · rw [if_pos hempty]
    refine ⟨hdims, rfl, rfl, fun x hx => ?_⟩
    have hcount : (_clone_f A fresh)._batch_count ≠ 0 := fun h => indices_of_empty h (hdims.symm ▸ hx)
    have hzero : A.rows * A.cols = 0 := (Nat.mul_eq_zero.mp hempty).resolve_left hcount
    have hcols : A.cols = 0 := by
      rw [hsquare] at hzero
      exact (Nat.mul_eq_zero.mp hzero).elim id id
    rw [hcols]
    refine ⟨?_, fun i k hi => absurd hi (Nat.not_lt_zero i)⟩
    cases upper
    · rfl
    · rfl
  · rw [if_neg hempty]
    have hrange : ∀ j ∈ List.range A.cols, j < A.cols := fun j hj => List.mem_range.mp hj
    cases upper with
    | true =>
        rw [if_pos rfl]
        refine (_k_potrf sqrt _ info).mono ?_ (k_potrf_spec sqrt info (show A.cols = A.rows from hsquare.symm)
          hinj.mT hb)
        rintro r ⟨storage, hr, hpotrf⟩
        refine ⟨hdims, rfl, rfl, fun x hx => ?_⟩
        have hrows : (_clone_f A fresh)._mT.cols = A.cols := hsquare
        have hbatch : (_clone_f A fresh)._mT._batch_dims = A._batch_dims := hdims
        have hstart : ∀ i k, k ≤ i → i < A.cols →
            (_clone_f A fresh)._mT.elem x i k = (fun i k => A.elem x k i) i k := fun i k hki hi => by
          rw [mT_elem]
          exact helem x hx k i (by omega) hi
        obtain ⟨hinfo, hfactor⟩ := hpotrf x (hbatch.symm ▸ hx)
        obtain ⟨hstatus, hsame⟩ := potrf_congr sqrt hrange hstart
        rw [hrows] at hinfo hfactor
        rw [hbatch] at hinfo
        refine ⟨hinfo.trans (congrArg Nat.cast hstatus), fun i k hi hk => ?_⟩
        have hki := hfactor k i hk hi
        have hstorage : r.1.storage = storage := congrArg T.storage hr
        rw [hr, withStorage_mT, mT_elem] at hki
        rw [hstorage]
        refine hki.trans ?_
        change _ = if k < i then 0 else _
        by_cases hlt : k < i
        · rw [if_pos hlt, if_pos hlt]
        · rw [if_neg hlt, if_neg hlt]
          exact hsame k i (by omega) hk
    | false =>
        rw [if_neg Bool.false_ne_true]
        refine (_k_potrf sqrt _ info).mono ?_ (k_potrf_spec sqrt info (show A.rows = A.cols from hsquare)
          hinj hb)
        rintro r ⟨storage, hr, hpotrf⟩
        refine ⟨hdims, rfl, rfl, fun x hx => ?_⟩
        obtain ⟨hinfo, hfactor⟩ := hpotrf x (hdims.symm ▸ hx)
        obtain ⟨hstatus, hsame⟩ := potrf_congr sqrt hrange fun i k hki hi => helem x hx i k hi (by omega)
        rw [hdims] at hinfo
        refine ⟨hinfo.trans (congrArg Nat.cast hstatus), fun i k hi hk => ?_⟩
        have hik := hfactor i k hi hk
        have hstorage : r.1.storage = storage := congrArg T.storage hr
        rw [hr] at hik
        rw [hstorage]
        refine hik.trans ?_
        change _ = if i < k then 0 else _
        by_cases hlt : i < k
        · rw [if_pos hlt, if_pos hlt]
        · rw [if_neg hlt, if_neg hlt]
          exact hsame i k (by omega) hi

theorem factorProduct_congr {K : Type} [CommRing K] (upper : Bool) {n : Nat} {F F' : Nat → Nat → K}
    (h : ∀ i k, i < n → k < n → F' i k = F i k) : factorProduct upper n F' = factorProduct upper n F := by
  have hlower : toMatrix n n (lowerPart F') = toMatrix n n (lowerPart F) := toMatrix_congr fun i k hi hk => by
    rw [lowerPart, lowerPart, h i k hi hk]
  have hupper : toMatrix n n (upperPart F') = toMatrix n n (upperPart F) := toMatrix_congr fun i k hi hk => by
    rw [upperPart, upperPart, h i k hi hk]
  rw [factorProduct, factorProduct, hlower, hupper]

theorem CholeskyOf.congr {upper : Bool} {n : Nat} {M F F' : Nat → Nat → ℝ} {info : Int}
    (h : CholeskyOf upper n M F info) (hF : ∀ i k, i < n → k < n → F' i k = F i k) :
    CholeskyOf upper n M F' info := by
  have hproduct : ∀ q ≤ n, factorProduct upper q F' = factorProduct upper q F := fun q hq =>
    factorProduct_congr upper fun i k hi hk => hF i k (by omega) (by omega)
  obtain ⟨htri, hposDef, hfactor, hminor⟩ := h
  refine ⟨fun i k hi hk hik => (hF i k hi hk).trans (htri i k hi hk hik), hposDef, fun hzero => ?_, fun hne => ?_⟩
  · obtain ⟨hpos, heq⟩ := hfactor hzero
    exact ⟨fun i hi => (hF i i hi hi).symm ▸ hpos i hi, (hproduct n (Nat.le_refl n)).trans heq⟩
  · obtain ⟨q, hinfo, hfirst, hpos, heq⟩ := hminor hne
    have hq : q < n := hfirst.2.1
    exact ⟨q, hinfo, hfirst, fun i hi => (hF i i (by omega) (by omega)).symm ▸ hpos i hi,
      (hproduct q (Nat.le_of_lt hq)).trans heq⟩

/-! ## The solves -/

section

variable {K : Type} [Field K]

theorem factorProduct_triangles (upper : Bool) (n : Nat) (F : Nat → Nat → K) :
    (toMatrix n n fun i k => if upper then triangle upper false F k i else triangle upper false F i k) *
      (toMatrix n n fun i k => if (!upper) then triangle upper false F k i else triangle upper false F i k) =
      factorProduct upper n F := by
  cases upper with
  | true =>
      rw [triangle_upper]
      rfl
  | false =>
      rw [triangle_lower]
      rfl

/-- Two triangular solves, one behind the other. -/
theorem trsm_pair {Af X : T K} (upper : Bool) (hbatch : Af._batch_dims = X._batch_dims) (hinj : X.Injective)
    (ha : 0 ≤ _bstride Af) (hb : 0 ≤ _bstride X)
    (hdiag : ∀ x ∈ indices X._batch_dims, ∀ i < X.rows, Af.elem x i i ≠ 0) :
    (_k_trsm Af X upper upper false >>= fun Y => _k_trsm Af Y upper (!upper) false).run fun r =>
      ∃ storage, r = X.withStorage storage ∧ ∀ x ∈ indices X._batch_dims,
        factorProduct upper X.rows (Af.elem x) * toMatrix X.rows X.cols (r.elem x) =
          toMatrix X.rows X.cols (X.elem x) := by
  refine Must.bind_of (k_trsm_solves Af X upper upper false hbatch hinj ha hb fun _ => hdiag) ?_
  rintro _ ⟨storage, rfl, hfirst⟩
  refine (_k_trsm _ _ _ _ _).mono ?_ (k_trsm_solves Af (X.withStorage storage) upper (!upper) false
    hbatch hinj ha hb fun _ => hdiag)
  rintro r ⟨storage', hr, hsecond⟩
  refine ⟨storage', hr, fun x hx => ?_⟩
  rw [← factorProduct_triangles, Matrix.mul_assoc]
  exact (congrArg _ (hsecond x hx)).trans (hfirst x hx)

theorem cholesky_solve_helper_solves {B A : T K} (upper : Bool) (hbatch : A._batch_dims = B._batch_dims)
    (hsquare : A.rows = A.cols) (hrows : A.cols = B.rows)
    (hdiag : ∀ x ∈ indices B._batch_dims, ∀ i < A.cols, A.elem x i i ≠ 0) :
    ∃ c, op_cholesky_solve_helper B A upper = .ok c ∧ c.run fun X =>
      X._batch_dims = B._batch_dims ∧ X.rows = B.rows ∧ X.cols = B.cols ∧
        ∀ x ∈ indices B._batch_dims, factorProduct upper B.rows (A.elem x) *
          toMatrix B.rows B.cols (X.elem x) = toMatrix B.rows B.cols (B.elem x) := by
  have hcheck : _linear_solve_check B A "cholesky_solve" = .ok () := by
    unfold _linear_solve_check
    rw [if_neg (not_not.mpr hsquare.symm), if_neg (not_not.mpr hrows)]
    rfl
  refine ⟨_, by rw [op_cholesky_solve_helper, hcheck]; rfl, ?_⟩
  intro fresh _ spare _
  have hAf : ∀ x ∈ indices A._batch_dims, ∀ i k, i < B.rows → k < B.rows →
      (_clone_f A spare).elem x i k = A.elem x i k := fun x hx i k hi hk =>
    clone_elem A spare hx (by omega) (by omega)
  have hdims := clone_batch_dims B fresh
  have hpair := trsm_pair upper (((clone_batch_dims A spare).trans hbatch).trans hdims.symm)
    (clone_injective B fresh) (clone_bstride A spare) (clone_bstride B fresh) fun x hx i hi => by
      rw [hdims] at hx
      have hi' : i < B.rows := hi
      rw [hAf x (hbatch ▸ hx) i i hi' hi']
      exact hdiag x hx i (by omega)
  refine Must.mono _ ?_ hpair
  rintro X ⟨storage, rfl, hX⟩
  refine ⟨hdims, rfl, rfl, fun x hx => ?_⟩
  have hB : toMatrix B.rows B.cols ((_clone_f B fresh).elem x) = toMatrix B.rows B.cols (B.elem x) :=
    toMatrix_congr fun i k hi hk => clone_elem B fresh hx hi hk
  rw [← hB, ← factorProduct_congr upper (hAf x (hbatch ▸ hx))]
  exact hX x (hdims.symm ▸ hx)

theorem cholesky_inverse_inverts {A : T K} (upper : Bool) (hsquare : A.rows = A.cols)
    (hdiag : ∀ x ∈ indices A._batch_dims, ∀ i < A.rows, A.elem x i i ≠ 0) :
    (_cholesky_inverse A upper).run fun X => X._batch_dims = A._batch_dims ∧ X.rows = A.rows ∧
      X.cols = A.cols ∧ ∀ x ∈ indices A._batch_dims,
        factorProduct upper A.rows (A.elem x) * toMatrix A.rows A.rows (X.elem x) = 1 := by
  intro fresh _
  have hdims := new_f_batch_dims A._batch_dims A.rows A.cols fresh
  dsimp only
  by_cases hempty : (_new_f A._batch_dims A.rows A.cols fresh).numel = 0
  · rw [if_pos hempty]
    refine ⟨hdims, rfl, rfl, fun x hx => ?_⟩
    have hcount : (_new_f A._batch_dims A.rows A.cols fresh)._batch_count ≠ 0 := fun h =>
      indices_of_empty h (hdims.symm ▸ hx)
    have hzero : A.rows * A.cols = 0 := (Nat.mul_eq_zero.mp hempty).resolve_left hcount
    have hrows : A.rows = 0 := by
      rw [← hsquare] at hzero
      exact (Nat.mul_eq_zero.mp hzero).elim id id
    ext i
    exact absurd i.isLt (by omega)
  · rw [if_neg hempty]
    intro spare _
    have hpair := trsm_pair upper (X := _eye_into (_new_f A._batch_dims A.rows A.cols fresh))
      ((flat_batch_dims A spare).trans hdims.symm) (new_f_injective _ _ _ _) (flat_bstride A spare)
      (new_f_bstride _ _ _ _) fun x hx i hi => by
        have hx' : x ∈ indices A._batch_dims := hdims ▸ hx
        have hi' : i < A.rows := hi
        rw [flat_elem spare hx' hi' (hsquare ▸ hi')]
        exact hdiag x hx' i hi'
    refine Must.mono _ ?_ hpair
    rintro X ⟨storage, rfl, hX⟩
    refine ⟨hdims, rfl, rfl, fun x hx => ?_⟩
    have hsolve : factorProduct upper A.rows ((_flat A spare).elem x) * toMatrix A.rows A.cols
        (((_eye_into (_new_f A._batch_dims A.rows A.cols fresh)).withStorage storage).elem x) =
        toMatrix A.rows A.cols ((_eye_into (_new_f A._batch_dims A.rows A.cols fresh)).elem x) :=
      hX x (hdims.symm ▸ hx)
    have heye : toMatrix A.rows A.cols ((_eye_into (_new_f A._batch_dims A.rows A.cols fresh)).elem x) =
        toMatrix A.rows A.cols fun i k => if i = k then 1 else 0 := toMatrix_congr fun i k hi hk =>
      eye_elem (new_f_injective _ _ _ _) (hdims.symm ▸ hx) hi hk
    rw [heye, factorProduct_congr upper fun i k hi hk => flat_elem spare hx hi (hsquare ▸ hk),
      ← hsquare] at hsolve
    rw [← toMatrix_one, ← hsquare]
    exact hsolve

end

/-- A matrix with one element. -/
def one_by_one {K : Type} (v : K) : T K where
  batch := []
  rows := 1
  cols := 1
  rs := 1
  cs := 1
  storage := fun _ => v
  nonneg := fun _ hd => absurd hd List.not_mem_nil

theorem factorProduct_one {K : Type} [CommRing K] (F : Nat → Nat → K) :
    factorProduct false 1 F 0 0 = F 0 0 * F 0 0 := by
  change ∑ l : Fin 1, lowerPart F 0 l * lowerPart F 0 l = _
  rw [Fin.sum_univ_one]
  rfl

end TorchMojoBackend.Ops.Linalg
