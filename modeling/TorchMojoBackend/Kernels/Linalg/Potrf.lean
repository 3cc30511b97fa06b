/-
  `Kernels.Linalg.Potrf`: the Cholesky kernel.

  Source: tmb/kernels/linalg/entry.mojo (`_potrf_kernel`).

  The threads of a block do a column at a time: the pivot, the column below it, the triangle
  behind it.  `potrf` is what they compute, one element after the other (`potrf_grid`).
-/
import TorchMojoBackend.Kernels.Linalg.MatrixPhase

set_option autoImplicit false

namespace TorchMojoBackend.Kernels.Linalg

open TorchMojoBackend.Foundation
open TorchMojoBackend.Foundation.Code (each)

section

variable {K : Type} [Zero K] [One K] [Sub K] [Mul K] [Div K] [LT K] [DecidableLT K] (sqrt : K → K)
  (n : Nat) (rs cs base : Int)

/-! ## The kernel -/

section

variable {nt : Nat} (t : Fin nt)

/-- The loop over the columns `j`, with the status in the end. -/
def potrfColumns : List Nat → Thread (Cell.Val K) Nat
  | [] => pure 0
  | j :: js => do
      -- every thread has read the pivot before it is replaced
      let d ← Thread.sync (loadA (el rs cs base j j))
      if ¬ 0 < d then pure (j + 1)
      else do
        let s := sqrt d
        let r := 1 / s
        Thread.sync do
          (storeA (el rs cs base j j) s).first t
          each (threadItems nt (j + 1) n t) fun i => do
            let x ← loadA (el rs cs base i j)
            storeA (el rs cs base i j) (x * r)
        let rr := n - j - 1
        Thread.sync (each (threadItems nt 0 (rr * rr) t) fun idx => do
          let ii := j + 1 + idx % rr
          let kk := j + 1 + idx / rr
          if ii ≥ kk then do
            let x ← loadA (el rs cs base ii kk)
            let y ← loadA (el rs cs base ii j)
            let z ← loadA (el rs cs base kk j)
            storeA (el rs cs base ii kk) (x - y * z)
          else .ret ())
        potrfColumns js

/-- The entry `b` of the batch. -/
def potrfEntry (b : Nat) : Thread (Cell.Val K) Unit := do
  let status ← potrfColumns sqrt n rs cs base t (List.range n)
  Thread.sync do
    (storeInfo b status).first t
    each (threadItems nt 0 (n * n) t) fun idx => do
      let i := idx % n
      let k := idx / n
      if i < k then storeA (el rs cs base i k) 0 else .ret ()

end

/-- A thread of `_potrf_kernel`. -/
def _potrf_kernel (bs : Int) (batch : Nat) {nb nt : Nat} (blk : Fin nb) (t : Fin nt) :
    Code (Cell.Val K) (Prog (Cell.Val K)) :=
  Thread.start ((threadItems nb 0 batch blk).forM fun b => potrfEntry sqrt n rs cs (b * bs) t b)

/-! ## What it computes -/

/-- One column of the factorization of the lower triangle of `M`. -/
def potrfStep (M : Nat → Nat → K) (j : Nat) : Nat → Nat → K :=
  let s := sqrt (M j j)
  let col := fun i => M i j * (1 / s)
  fun i k =>
    if k = j then if i = j then s else if j < i then col i else M i k
    else if j < k ∧ k ≤ i then M i k - col i * col k
    else M i k

/-- The status and the factor. -/
def potrf : List Nat → (Nat → Nat → K) → Nat × (Nat → Nat → K)
  | [], M => (0, M)
  | j :: js, M => if ¬ 0 < M j j then (j + 1, M) else potrf js (potrfStep sqrt M j)

end

/-! ## The threads -/

/-- The lower triangle. -/
def Lower (n : Nat) (i k : Nat) : Prop := k ≤ i ∧ i < n

/-- The elements above the diagonal. -/
def Upper (n : Nat) (i k : Nat) : Prop := i < k ∧ k < n

section

variable {K : Type} [Zero K] [One K] [Sub K] [Mul K] [Div K] [LT K] [DecidableLT K] {sqrt : K → K}
  {n : Nat} {rs cs base : Int} {nt : Nat}

/-- The matrix after the scaling of a column. -/
def potrfScale (M : Nat → Nat → K) (j : Nat) (s : K) (i k : Nat) : K :=
  if k = j then if i = j then s else if j < i then M i j * (1 / s) else M i k else M i k

omit [Zero K] [LT K] [DecidableLT K] in
theorem potrfStep_eq (M : Nat → Nat → K) (j i k : Nat) (hki : k ≤ i) : potrfStep sqrt M j i k =
    if j < k then potrfScale M j (sqrt (M j j)) i k -
      potrfScale M j (sqrt (M j j)) i j * potrfScale M j (sqrt (M j j)) k j
    else potrfScale M j (sqrt (M j j)) i k := by
  unfold potrfStep potrfScale
  dsimp only
  by_cases hkj : k = j
  · have hjk : ¬ j < k := by omega
    rw [if_pos hkj, if_neg hjk, if_pos hkj]
  · by_cases hjk : j < k
    · have hji : j < i := Nat.lt_of_lt_of_le hjk hki
      simp only [hkj, hjk, hki, hji, if_true, if_false, and_self, Nat.ne_of_gt hji]
    · simp only [hkj, hjk, if_false, false_and]

variable (hpos : 0 < nt) (hinj : Distinct (el rs cs base) (Lower n))
include hpos hinj

omit [Zero K] [Sub K] [LT K] [DecidableLT K] in
/-- The column phase. -/
theorem scale_spec (M : Nat → Nat → K) {j : Nat} (hj : j < n) (s : K) :
    Spec (OnMatrix .a (el rs cs base) (Lower n)) (OnMatrix .a (el rs cs base) (Lower n))
      (Holds .a (el rs cs base) (Lower n) M)
      (fun t : Fin nt => Thread.sync (do
        (storeA (el rs cs base j j) s).first t
        each (threadItems nt (j + 1) n t) fun i => do
          let x ← loadA (el rs cs base i j)
          storeA (el rs cs base i j) (x * (1 / s))))
      fun _ m => Holds .a (el rs cs base) (Lower n) (potrfScale M j s) m := by
  refine ((Phase.matrix (C := noCell) (fun k i c => ∃ l, k = some l ∧ i = l ∧ c = j)
    (fun k i c => c = j ∧ (k = none ∧ i = j ∨ k = some i)) hpos hinj (fun _ h => h.elim)
    (fun m hm k hk => ?_) ?_ ?_ ?_ ?_).spec hpos).mono ?_ (fun _ => id)
  · cases k with
    | none =>
        refine ⟨fun _ h => h.elim, ?_, ?_⟩
        · rintro i c ⟨rfl, ⟨-, rfl⟩ | h⟩
          · rw [potrfScale, if_pos rfl, if_pos rfl]
            exact (Code.writes_put _ _ m _).trans (Code.single_self _ _)
          · exact nomatch h
        · intro x hx
          exact .inl ⟨j, j, ⟨rfl, .inl ⟨rfl, rfl⟩⟩, Code.single_isSome.mp (Code.writes_put _ _ m x ▸ hx)⟩
    | some i =>
        obtain ⟨hlo, hi⟩ := hk
        refine ⟨fun x hx => ?_, ?_, ?_⟩
        · obtain rfl | hx := hx
          · exact .inr ⟨i, j, ⟨i, rfl, rfl, rfl⟩, rfl⟩
          · exact hx.elim
        · rintro i' c ⟨rfl, ⟨h, -⟩ | h⟩
          · exact nomatch h
          · obtain rfl := Option.some.inj h
            rw [potrfScale, if_pos rfl, if_neg (by omega), if_pos (by omega),
              ← hm i c ⟨by omega, hi⟩]
            exact (Code.writes_put _ _ m _).trans (Code.single_self _ _)
        · intro x hx
          exact .inl ⟨i, j, ⟨rfl, .inr rfl⟩, Code.single_isSome.mp (Code.writes_put _ _ m x ▸ hx)⟩
  · rintro k hk i c ⟨l, rfl, rfl, rfl⟩
    obtain ⟨hlo, hi⟩ := hk
    exact ⟨by omega, hi⟩
  · rintro k hk i c ⟨rfl, ⟨rfl, rfl⟩ | rfl⟩
    · exact ⟨Nat.le_refl _, hj⟩
    · obtain ⟨hlo, hi⟩ := hk
      exact ⟨by omega, hi⟩
  · rintro k l hk hl hkl i c ⟨rfl, ht⟩
    refine ⟨?_, ?_⟩
    · rintro ⟨l', rfl, rfl, -⟩
      obtain ⟨rfl, rfl⟩ | rfl := ht
      · exact absurd hl.1 (by omega)
      · exact hkl rfl
    · rintro ⟨-, ⟨rfl, rfl⟩ | rfl⟩
      · obtain ⟨rfl, -⟩ | rfl := ht
        · exact hkl rfl
        · exact absurd hk.1 (by omega)
      · obtain ⟨rfl, rfl⟩ | rfl := ht
        · exact absurd hl.1 (by omega)
        · exact hkl rfl
  · intro m hm i c hd hnone
    rw [hm i c hd]
    unfold potrfScale
    by_cases hc : c = j
    · subst hc
      obtain ⟨hci, hi⟩ := hd
      by_cases hic : i = c
      · exact absurd ⟨rfl, .inl ⟨rfl, hic⟩⟩ (hnone none trivial)
      · exact absurd ⟨rfl, .inr rfl⟩ (hnone (some i) ⟨by omega, hi⟩)
    · rw [if_neg hc]
  · rintro c (h | h)
    · exact h.elim
    · exact h

omit [Zero K] [One K] [Div K] [LT K] [DecidableLT K] in
/-- The triangle phase. -/
theorem update_spec (M : Nat → Nat → K) {j : Nat} (hj : j < n) :
    Spec (OnMatrix .a (el rs cs base) (Lower n)) (OnMatrix .a (el rs cs base) (Lower n))
      (Holds .a (el rs cs base) (Lower n) M)
      (fun t : Fin nt => Thread.sync (each (threadItems nt 0 ((n - j - 1) * (n - j - 1)) t) fun idx => do
        let ii := j + 1 + idx % (n - j - 1)
        let kk := j + 1 + idx / (n - j - 1)
        if ii ≥ kk then do
          let x ← loadA (el rs cs base ii kk)
          let y ← loadA (el rs cs base ii j)
          let z ← loadA (el rs cs base kk j)
          storeA (el rs cs base ii kk) (x - y * z)
        else .ret ()))
      fun _ m => Holds .a (el rs cs base) (Lower n)
        (fun i k => if j < k then M i k - M i j * M k j else M i k) m := by
  generalize hrr : n - j - 1 = rr
  have hrow : ∀ {idx}, idx < rr * rr → j + 1 + idx % rr < n := fun {idx} hidx => by
    have hrpos : 0 < rr := Nat.pos_of_mul_pos_left (Nat.zero_lt_of_lt hidx)
    have hmod := Nat.mod_lt idx hrpos
    omega
  refine ((Phase.matrix_each (C := noCell)
    (fun idx i c => j + 1 + idx / rr ≤ j + 1 + idx % rr ∧
      (i = j + 1 + idx % rr ∧ (c = j + 1 + idx / rr ∨ c = j) ∨ i = j + 1 + idx / rr ∧ c = j))
    (fun idx i c => j + 1 + idx / rr ≤ j + 1 + idx % rr ∧ i = j + 1 + idx % rr ∧ c = j + 1 + idx / rr)
    hpos hinj (fun _ h => h.elim) (fun m hm idx _ hidx => ?_) (fun idx _ hidx i c h => ?_)
    (fun idx _ hidx i c h => ?_) (fun idx idx' _ hidx _ hidx' hne i c h => ?_)
    fun m hm i c hd hnone => ?_).spec hpos).mono ?_ (fun _ => id)
  · have hi := hrow hidx
    dsimp only
    generalize idx % rr = p at hi ⊢
    generalize idx / rr = q
    by_cases hle : j + 1 + q ≤ j + 1 + p
    · rw [if_pos hle]
      refine ⟨fun x hx => ?_, ?_, fun x hx => ?_⟩
      · obtain rfl | rfl | rfl | hx := hx
        · exact .inr ⟨_, _, ⟨hle, .inl ⟨rfl, .inl rfl⟩⟩, rfl⟩
        · exact .inr ⟨_, _, ⟨hle, .inl ⟨rfl, .inr rfl⟩⟩, rfl⟩
        · exact .inr ⟨_, _, ⟨hle, .inr ⟨rfl, rfl⟩⟩, rfl⟩
        · exact hx.elim
      · rintro i c ⟨-, rfl, rfl⟩
        rw [if_pos (by omega), ← hm _ _ ⟨hle, hi⟩, ← hm (j + 1 + p) j ⟨by omega, hi⟩,
          ← hm (j + 1 + q) j ⟨by omega, by omega⟩]
        exact (Code.writes_put _ _ m _).trans (Code.single_self _ _)
      · exact .inl ⟨_, _, ⟨hle, rfl, rfl⟩, Code.single_isSome.mp (Code.writes_put _ _ m x ▸ hx)⟩
    · rw [if_neg hle]
      exact ⟨fun _ h => h.elim, fun i c h => absurd h.1 hle, fun _ h => nomatch h⟩
  · have hi := hrow hidx
    generalize idx % rr = p at hi h
    generalize idx / rr = q at h
    obtain ⟨hle, ⟨rfl, rfl | rfl⟩ | ⟨rfl, rfl⟩⟩ := h
    · exact ⟨hle, hi⟩
    · exact ⟨by omega, hi⟩
    · exact ⟨by omega, by omega⟩
  · obtain ⟨hle, rfl, rfl⟩ := h
    exact ⟨hle, hrow hidx⟩
  · obtain ⟨-, rfl, rfl⟩ := h
    have hrpos : 0 < rr := Nat.pos_of_mul_pos_left (Nat.zero_lt_of_lt hidx)
    have hsame : ¬ (idx % rr = idx' % rr ∧ idx / rr = idx' / rr) := by
      rintro ⟨hmod, hdiv⟩
      refine hne ?_
      rw [← Nat.div_add_mod idx rr, ← Nat.div_add_mod idx' rr, hmod, hdiv]
    generalize idx % rr = p at hsame ⊢
    generalize idx / rr = q at hsame ⊢
    generalize idx' % rr = p' at hsame ⊢
    generalize idx' / rr = q' at hsame ⊢
    constructor
    · rintro ⟨-, ⟨hi, hc | hc⟩ | ⟨-, hc⟩⟩
      · exact hsame ⟨by omega, by omega⟩
      · omega
      · omega
    · rintro ⟨-, hi, hc⟩
      exact hsame ⟨by omega, by omega⟩
  · rw [hm i c hd]
    obtain ⟨hci, hi⟩ := hd
    by_cases hjc : j < c
    · -- it has an item
      have hcr : c - j - 1 < rr := by omega
      have hir : i - j - 1 < rr := by omega
      have hidx := row_major_lt hcr hir
      have hdiv : ((c - j - 1) * rr + (i - j - 1)) / rr = c - j - 1 := row_div hir
      have hmod : ((c - j - 1) * rr + (i - j - 1)) % rr = i - j - 1 := Nat.mul_add_mod_of_lt hir
      refine absurd ?_ (hnone ((c - j - 1) * rr + (i - j - 1)) (Nat.zero_le _) hidx)
      rw [hdiv, hmod]
      exact ⟨by omega, by omega, by omega⟩
    · rw [if_neg hjc]
  · rintro c (h | h)
    · exact h.elim
    · exact h

/-- The loop over columns. -/
theorem columns_spec (l : List Nat) (hl : ∀ j ∈ l, j < n) (M : Nat → Nat → K) :
    Spec (OnMatrix .a (el rs cs base) (Lower n)) (OnMatrix .a (el rs cs base) (Lower n))
      (Holds .a (el rs cs base) (Lower n) M)
      (fun t : Fin nt => potrfColumns sqrt n rs cs base t l)
      fun x m => (∀ t, x t = (potrf sqrt l M).1) ∧
        Holds .a (el rs cs base) (Lower n) (potrf sqrt l M).2 m := by
  induction l generalizing M with
  | nil => exact Spec.pure fun m hm => ⟨fun _ => rfl, hm⟩
  | cons j l ih =>
      have hj : j < n := hl j List.mem_cons_self
      have hread : Spec (OnMatrix .a (el rs cs base) (Lower n)) (OnMatrix .a (el rs cs base) (Lower n))
          (Holds .a (el rs cs base) (Lower n) M)
          (fun _ : Fin nt => Thread.sync (loadA (el rs cs base j j)))
          fun x m => (x = fun _ => M j j) ∧ Holds .a (el rs cs base) (Lower n) M m :=
        (Spec.read hpos ⟨j, j, ⟨Nat.le_refl _, hj⟩, rfl⟩ fun m m' h hm i k hd =>
          (h _ (.inl ⟨i, k, hd, rfl⟩)).trans (hm i k hd)).weaken (fun _ => id) fun x m hx =>
            ⟨funext fun t => (hx.1 t).trans (hx.2 j j ⟨Nat.le_refl _, hj⟩), hx.2⟩
      unfold potrfColumns
      refine Spec.bind hread fun x => Spec.assume fun hx => ?_
      subst hx
      by_cases hd : 0 < M j j
      · have hsplit : potrf sqrt (j :: l) M = potrf sqrt l (potrfStep sqrt M j) :=
          if_neg (not_not.mpr hd)
        simp only [hd, not_true_eq_false, if_false, hsplit]
        refine Spec.bind (scale_spec hpos hinj M hj _) fun _ => ?_
        refine Spec.bind (update_spec hpos hinj _ hj) fun _ => ?_
        refine (ih (fun k hk => hl k (List.mem_cons_of_mem _ hk)) _).weaken (fun m hm i k hik => ?_)
          fun _ _ => id
        rw [hm i k hik, potrfStep_eq M j i k hik.1]
      · have hstop : potrf sqrt (j :: l) M = (j + 1, M) := if_pos hd
        simp only [hd, not_false_eq_true, if_true, hstop]
        exact Spec.pure fun m hm => ⟨fun _ => rfl, hm⟩

omit hinj [One K] [Sub K] [Mul K] [Div K] [LT K] [DecidableLT K] in
/-- The end of an entry: the status, and zeros above the diagonal. -/
theorem clear_spec (hupper : Distinct (el rs cs base) (Upper n)) (b status : Nat) :
    Spec (OnMatrix .a (el rs cs base) (Upper n))
      (fun c => OnMatrix .a (el rs cs base) (Upper n) c ∨ c = .info b) (fun _ => True)
      (fun t : Fin nt => Thread.sync (do
        (storeInfo b status).first t
        each (threadItems nt 0 (n * n) t) fun idx => do
          let i := idx % n
          let k := idx / n
          if i < k then storeA (el rs cs base i k) (0 : K) else .ret ()))
      fun _ m => Holds .a (el rs cs base) (Upper n) (fun _ _ => 0) m ∧ m (.info b) = status := by
  have hcol : ∀ {idx}, idx < n * n → idx / n < n := fun h => Nat.div_lt_of_lt_mul h
  refine ((Phase.matrix_extra (C := noCell) (fun _ _ _ => False)
    (fun idx i k => ∃ l, idx = some l ∧ l % n < l / n ∧ i = l % n ∧ k = l / n)
    (fun idx c => idx = none ∧ c = .info b) hpos hupper (fun _ h => h.elim) (fun idx _ c h => ⟨id, ?_⟩)
    (fun k l _ _ hkl c hk hl => hkl (hk.1.trans hl.1.symm)) (fun m _ idx hidx => ?_)
    (fun _ _ _ _ h => h.elim) ?_ ?_ (fun m _ i k hd hnone => ?_) fun m m' _ hleaves =>
      hleaves none trivial _ _ ⟨rfl, rfl⟩
        ((Code.writes_put _ _ m _).trans (Code.single_self _ _))).spec hpos).mono ?_ ?_
  · rintro ⟨i, k, -, hc⟩
    exact nomatch h.2.symm.trans hc
  · cases idx with
    | none =>
        refine ⟨fun _ h => h.elim, fun _ _ ⟨_, h, _⟩ => (nomatch h), fun x hx => .inr ⟨rfl, ?_⟩⟩
        exact Code.single_isSome.mp (Code.writes_put _ _ m x ▸ hx)
    | some idx =>
        dsimp only [piece]
        by_cases hlt : idx % n < idx / n
        · rw [if_pos hlt]
          refine ⟨fun _ h => h.elim, ?_, fun x hx => .inl ⟨_, _, ⟨idx, rfl, hlt, rfl, rfl⟩, ?_⟩⟩
          · rintro i k ⟨l, hl, -, rfl, rfl⟩
            obtain rfl := Option.some.inj hl
            exact (Code.writes_put _ _ m _).trans (Code.single_self _ _)
          · exact Code.single_isSome.mp (Code.writes_put _ _ m x ▸ hx)
        · rw [if_neg hlt]
          refine ⟨fun _ h => h.elim, ?_, fun _ h => nomatch h⟩
          rintro i k ⟨l, hl, hlt', -⟩
          obtain rfl := Option.some.inj hl
          exact absurd hlt' hlt
  · rintro idx hidx i k ⟨l, rfl, hlt, rfl, rfl⟩
    exact ⟨hlt, hcol hidx.2⟩
  · rintro idx idx' - - hne i k ⟨l, rfl, -, rfl, rfl⟩
    refine ⟨id, ?_⟩
    rintro ⟨l', rfl, -, hmod, hdiv⟩
    refine hne (congrArg some ?_)
    rw [← Nat.div_add_mod l n, ← Nat.div_add_mod l' n, hmod, hdiv]
  · obtain ⟨hik, hk⟩ := hd
    have hi : i < n := Nat.lt_trans hik hk
    have hidx := row_major_lt hk hi
    refine absurd ⟨_, rfl, ?_, ?_, ?_⟩ (hnone (some (k * n + i)) ⟨Nat.zero_le _, hidx⟩)
    · rwa [row_div hi, Nat.mul_add_mod_of_lt hi]
    · rw [Nat.mul_add_mod_of_lt hi]
    · rw [row_div hi]
  · rintro c (h | h)
    · exact h.elim
    · exact h
  · rintro c (h | ⟨_, _, -, h⟩)
    · exact .inl h
    · exact .inr h

end

/-! ## The launch -/

section

variable {K : Type} [Zero K] [One K] [Sub K] [Mul K] [Div K] [LT K] [DecidableLT K] {sqrt : K → K}
  {n : Nat} {rs cs : Int} {nt nb : Nat}

/-- The cells of the entry `b`: its matrix and its status. -/
def PotrfCells (n : Nat) (rs cs base : Int) (b : Nat) (c : Cell) : Prop :=
  OnMatrix .a (el rs cs base) (Full n n) c ∨ c = .info b

/-- What the kernel leaves of an entry that held `M` in its lower triangle. -/
def PotrfDone (sqrt : K → K) (n : Nat) (rs cs base : Int) (b : Nat) (M : Nat → Nat → K)
    (m : ∀ c, Cell.Val K c) : Prop :=
  m (.info b) = ((potrf sqrt (List.range n) M).1 : Int) ∧ ∀ i k, i < n → k < n →
    m (.a (el rs cs base i k)) = if i < k then 0 else (potrf sqrt (List.range n) M).2 i k

theorem potrfEntry_spec {base : Int} (hpos : 0 < nt) (hfull : Distinct (el rs cs base) (Full n n))
    (b : Nat) (M : Nat → Nat → K) :
    Spec (PotrfCells n rs cs base b) (PotrfCells n rs cs base b)
      (Holds .a (el rs cs base) (Lower n) M) (fun t : Fin nt => potrfEntry sqrt n rs cs base t b)
      fun _ m => PotrfDone sqrt n rs cs base b M m := by
  have hlow : ∀ i k, Lower n i k → Full n n i k := fun i k hd => ⟨hd.2, Nat.lt_of_le_of_lt hd.1 hd.2⟩
  have hup : ∀ i k, Upper n i k → Full n n i k := fun i k hd => ⟨Nat.lt_trans hd.1 hd.2, hd.2⟩
  have hcolumns : Spec (PotrfCells n rs cs base b) (PotrfCells n rs cs base b)
      (Holds .a (el rs cs base) (Lower n) M)
      (fun t : Fin nt => potrfColumns sqrt n rs cs base t (List.range n))
      fun x m => (x = fun _ => (potrf sqrt (List.range n) M).1) ∧
        Holds .a (el rs cs base) (Lower n) (potrf sqrt (List.range n) M).2 m :=
    ((columns_spec hpos (hfull.mono hlow) _ (fun j hj => List.mem_range.mp hj) M).mono
      (fun c hc => .inl (hc.mono hlow)) fun c hc => .inl (hc.mono hlow)).weaken (fun _ => id)
        fun _ _ hx => ⟨funext hx.1, hx.2⟩
  refine Spec.bind hcolumns fun x => Spec.assume fun hx => ?_
  subst hx
  have hclear := (clear_spec (K := K) hpos (hfull.mono hup) b (potrf sqrt (List.range n) M).1).mono
    (fun c hc => show PotrfCells n rs cs base b c from .inl (hc.mono hup)) fun _ => id
  refine ((hclear.frame (F := Holds .a (el rs cs base) (Lower n) (potrf sqrt (List.range n) M).2)
    ?_).mono (fun _ => id) fun c hc => hc.imp_left fun hc => hc.mono hup).weaken
      (fun m hm => ⟨trivial, hm⟩) ?_
  · intro m m' hsame hm i k hd
    rw [← hm i k hd]
    refine hsame _ (.inl ⟨i, k, hlow i k hd, rfl⟩) ?_
    rintro (⟨i', k', hd', hc⟩ | hc)
    · obtain ⟨rfl, rfl⟩ := hfull i k i' k' (hlow i k hd) (hup i' k' hd') (Cell.float.inj hc).2
      exact absurd hd'.1 (Nat.not_lt_of_le hd.1)
    · exact nomatch hc
  · rintro _ m ⟨⟨hupper, hinfo⟩, hlower⟩
    refine ⟨hinfo, fun i k hi hk => ?_⟩
    by_cases hik : i < k
    · rw [if_pos hik]
      exact hupper i k ⟨hik, hk⟩
    · rw [if_neg hik]
      exact hlower i k ⟨by omega, hi⟩

theorem PotrfCells.apart {batch : Nat} {bs : Int} (h : Entries batch n n rs cs bs) {b b' : Nat}
    (hb : b < batch) (hb' : b' < batch) (hne : b ≠ b') (c : Cell)
    (hc : PotrfCells n rs cs (b * bs) b c) : ¬ PotrfCells n rs cs (b' * bs) b' c := by
  rintro (⟨i', k', hd', heq⟩ | heq)
  · obtain ⟨i, k, hd, rfl⟩ | rfl := hc
    · exact hne (h b b' i k i' k' hb hb' hd hd' (Cell.float.inj heq).2).1
    · exact nomatch heq
  · obtain ⟨i, k, hd, rfl⟩ | rfl := hc
    · exact nomatch heq
    · exact hne (Int.ofNat.inj (Cell.int.inj heq).2)

/-- The launch leaves `potrf` of every entry, in any order of the threads' steps. -/
theorem potrf_grid {bs : Int} {batch : Nat} (hblocks : 0 < nb) (hpos : 0 < nt)
    (hentries : Entries batch n n rs cs bs) (m : ∀ c, Cell.Val K c) :
    ∃ N, GridEnds (fun c => ∃ b < batch, PotrfCells n rs cs (b * bs) b c)
      (fun c => ∃ b < batch, PotrfCells n rs cs (b * bs) b c)
      (fun m' => ∀ b < batch, PotrfDone sqrt n rs cs (b * bs) b
        (fun i k => m (.a (el rs cs (b * bs) i k))) m') N m
      fun (blk : Fin nb) (t : Fin nt) => _potrf_kernel sqrt n rs cs bs batch blk t := by
  have hlow : ∀ i k, Lower n i k → Full n n i k := fun i k hd => ⟨hd.2, Nat.lt_of_le_of_lt hd.1 hd.2⟩
  -- what an entry leaves depends on its own cells
  have hdone : ∀ (b : Nat) (m1 m2 : ∀ c, Cell.Val K c), PotrfDone sqrt n rs cs (b * bs) b
        (fun i k => m (.a (el rs cs (b * bs) i k))) m1 →
      AgreeOn (fun c => noCell c ∨ PotrfCells n rs cs (b * bs) b c) m1 m2 →
      PotrfDone sqrt n rs cs (b * bs) b (fun i k => m (.a (el rs cs (b * bs) i k))) m2 :=
    fun b m1 m2 h hagree => ⟨(hagree _ (.inr (.inr rfl))).trans h.1, fun i k hi hk =>
      (hagree _ (.inr (.inl ⟨i, k, ⟨hi, hk⟩, rfl⟩))).trans (h.2 i k hi hk)⟩
  have hentry : ∀ (_ : Fin nb) (b : Nat), b < batch → BatchEntry noCell noCell (PotrfCells n rs cs (b * bs) b)
      (Holds .a (el rs cs (b * bs)) (Lower n) fun i k => m (.a (el rs cs (b * bs) i k)))
      (PotrfDone sqrt n rs cs (b * bs) b fun i k => m (.a (el rs cs (b * bs) i k)))
      fun t : Fin nt => potrfEntry sqrt n rs cs (b * bs) t b := fun _ b hb =>
    .of_spec ((potrfEntry_spec hpos (hentries.full hb) b _).mono (fun c hc => .inr (.inl hc))
      fun c hc => .inl hc) (fun _ _ => ⟨id, id⟩) (fun _ h => h.elim) fun _ m1 m2 h hagree =>
        hdone b m1 m2 h hagree
  obtain ⟨N, hN⟩ := GridEnds.of_entries hblocks hentry (fun _ _ _ _ _ => ⟨id, id⟩)
    (fun b b' hb hb' hne c hc => PotrfCells.apart hentries hb hb' hne c hc) (fun _ _ h => h.elim)
    (fun _ _ _ _ h => h.elim)
    (fun b hb m1 m2 h hagree i k hd => (hagree _ (.inr (.inl ⟨i, k, hlow i k hd, rfl⟩))).trans (h i k hd))
    (m := m) fun b _ i k _ => rfl
  refine ⟨N, hN.mono (fun c hc => ?_) (fun c hc => hc.resolve_right fun ⟨_, hc⟩ => hc) fun _ => id⟩
  obtain hc | hc | ⟨_, hc⟩ := hc
  · exact hc.elim
  · exact hc
  · exact hc.elim

end

end TorchMojoBackend.Kernels.Linalg
