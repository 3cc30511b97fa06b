/-
  `Kernels.Linalg.Trsm`: the triangular solve kernel.

  Source: tmb/kernels/linalg/entry.mojo (`_trsm_kernel`).

  A task is a batch entry and a chunk of the right-hand sides.  The strides of `a` decide whether
  it is transposed, `forward` whether the rows are solved from the first or from the last on.
  `trsm` is what the threads compute, one right-hand side at a time (`trsm_grid`).
-/
import TorchMojoBackend.Foundation.MatrixBlocks
import TorchMojoBackend.Kernels.Linalg.MatrixPhase

set_option autoImplicit false

namespace TorchMojoBackend.Kernels.Linalg

open TorchMojoBackend.Foundation
open TorchMojoBackend.Foundation.Code (each)

/-- `fma(x, y, z)` -/
def fma {K : Type} [Add K] [Mul K] (x y z : K) : K := x * y + z

/-- Right-hand sides per block. -/
def TRSM_COLS : Nat := 64

section

variable {K : Type} [Neg K] [Add K] [Mul K] [Div K]

/-! ## The kernel -/

section

variable (a_rs a_cs abase b_rs b_cs bbase : Int) (n w : Nat) (forward unit : Bool) {nt : Nat} (t : Fin nt)

/-- The row `i` is divided by the diagonal. -/
def trsmDivide (i : Nat) : Thread (Cell.Val K) Unit :=
  if unit then pure ()
  else Thread.sync do
    let d ← loadA (el a_rs a_cs abase i i)
    each (threadItems nt 0 w t) fun c => do
      let x ← loadB (el b_rs b_cs bbase i c)
      storeB (el b_rs b_cs bbase i c) (x / d)

/-- The row `i` is taken from the rows that are left. -/
def trsmUpdate (i : Nat) : Thread (Cell.Val K) Unit :=
  let r0 := if forward then i + 1 else 0
  let rows := if forward then n - 1 - i else i
  Thread.sync (each (threadItems nt 0 (rows * w) t) fun idx => do
    let r := r0 + idx / w
    let c := idx % w
    let x ← loadB (el b_rs b_cs bbase i c)
    let y ← loadA (el a_rs a_cs abase r i)
    let z ← loadB (el b_rs b_cs bbase r c)
    storeB (el b_rs b_cs bbase r c) (fma (-x) y z))

/-- The rows of a chunk. -/
def trsmRows (steps : List Nat) : Thread (Cell.Val K) Unit :=
  steps.forM fun step => do
    let i := if forward then step else n - 1 - step
    trsmDivide a_rs a_cs abase b_rs b_cs bbase w unit t i
    trsmUpdate a_rs a_cs abase b_rs b_cs bbase n w forward t i

end

/-- A task of the launch. -/
def trsmTask (n k : Nat) (a_rs a_cs a_bs b_rs b_cs b_bs : Int) (forward unit : Bool) {nt : Nat}
    (t : Fin nt) (task : Nat) : Thread (Cell.Val K) Unit :=
  let chunks := (k + TRSM_COLS - 1) / TRSM_COLS
  let bb := task / chunks
  let c0 := task % chunks * TRSM_COLS
  let w := min k (c0 + TRSM_COLS) - c0
  trsmRows a_rs a_cs (bb * a_bs) b_rs b_cs (bb * b_bs + c0 * b_cs) n w forward unit t (List.range n)

/-- A thread of `_trsm_kernel`. -/
def _trsm_kernel (n k : Nat) (a_rs a_cs a_bs b_rs b_cs b_bs : Int) (batch : Nat) (forward unit : Bool)
    {nb nt : Nat} (blk : Fin nb) (t : Fin nt) : Code (Cell.Val K) (Prog (Cell.Val K)) :=
  let chunks := (k + TRSM_COLS - 1) / TRSM_COLS
  Thread.start ((threadItems nb 0 (batch * chunks) blk).forM fun task =>
    trsmTask n k a_rs a_cs a_bs b_rs b_cs b_bs forward unit t task)

end

/-! ## What it computes -/

/-- The order of the rows. -/
def rowOrder (n : Nat) (forward : Bool) : List Nat :=
  (List.range n).map fun step => if forward then step else n - 1 - step

variable {K : Type} [Field K]

/-- The solution for a right-hand side. -/
def trsm (n : Nat) (forward unit : Bool) (A : Nat → Nat → K) (x : Nat → K) : Nat → K :=
  substitute A (fun i => if unit then 1 else A i i) (rowOrder n forward) x

/-! ## The threads -/

/-- The cells of the first float argument. -/
def ArgA (c : Cell) : Prop := ∃ addr, c = .a addr

section

variable {K : Type} [Field K] {n w nt : Nat} {a_rs a_cs abase b_rs b_cs bbase : Int}

/-- The system and its right-hand sides. -/
def System (n w : Nat) (a_rs a_cs abase b_rs b_cs bbase : Int) (A X : Nat → Nat → K)
    (m : ∀ c, Cell.Val K c) : Prop :=
  Holds .a (el a_rs a_cs abase) (Full n n) A m ∧ Holds .b (el b_rs b_cs bbase) (Full n w) X m

/-- The cells of the right-hand sides. -/
abbrev Rhs (n w : Nat) (b_rs b_cs bbase : Int) : Cell → Prop :=
  OnMatrix .b (el b_rs b_cs bbase) (Full n w)

variable (hpos : 0 < nt) (hinj : Distinct (el b_rs b_cs bbase) (Full n w)) (A X : Nat → Nat → K)
include hpos hinj

omit hpos hinj [Field K] in
theorem argA_apart (c : Cell) (h : ArgA c) : ¬ Rhs n w b_rs b_cs bbase c := by
  rintro ⟨i, k, -, hc⟩
  obtain ⟨addr, rfl⟩ := h
  exact nomatch hc

omit hinj hpos [Field K] in
/-- A phase that leaves the right-hand sides `X'` leaves the system. -/
theorem system_frame {th : Fin nt → Thread (Cell.Val K) Unit} {X X' : Nat → Nat → K}
    (h : Spec (fun c => ArgA c ∨ Rhs n w b_rs b_cs bbase c) (Rhs n w b_rs b_cs bbase)
      (System n w a_rs a_cs abase b_rs b_cs bbase A X) th
      fun _ m => Holds .b (el b_rs b_cs bbase) (Full n w) X' m) :
    Spec (fun c => ArgA c ∨ Rhs n w b_rs b_cs bbase c) (Rhs n w b_rs b_cs bbase)
      (System n w a_rs a_cs abase b_rs b_cs bbase A X) th
      fun _ m => System n w a_rs a_cs abase b_rs b_cs bbase A X' m :=
  (h.frame (F := Holds .a (el a_rs a_cs abase) (Full n n) A) fun m m' hsame hm i k hd => by
    refine (hsame _ (.inl ⟨_, rfl⟩) (argA_apart _ ⟨_, rfl⟩)).trans (hm i k hd)).weaken
      (fun _ hm => ⟨hm, hm.1⟩) fun _ _ hm => ⟨hm.2, hm.1⟩

theorem trsm_divide_spec {unit : Bool} {i : Nat} (hi : i < n) :
    Spec (fun c => ArgA c ∨ Rhs n w b_rs b_cs bbase c) (Rhs n w b_rs b_cs bbase)
      (System n w a_rs a_cs abase b_rs b_cs bbase A X)
      (fun t : Fin nt => trsmDivide a_rs a_cs abase b_rs b_cs bbase w unit t i)
      fun _ m => System n w a_rs a_cs abase b_rs b_cs bbase A
        (fun r c => if r = i then X i c / (if unit then 1 else A i i) else X r c) m := by
  unfold trsmDivide
  cases unit with
  | true =>
      refine Spec.pure fun m hm => ⟨hm.1, fun r c hd => (hm.2 r c hd).trans ?_⟩
      dsimp only
      by_cases hr : r = i
      · rw [if_pos hr, if_pos rfl, div_one, hr]
      · rw [if_neg hr]
  | false =>
      refine system_frame A (Phase.spec hpos (Phase.before (x := fun _ => A i i) ?_
        fun m hm _ => ?_))
      · refine Phase.matrix_each (fun idx r c => r = i ∧ c = idx) (fun idx r c => r = i ∧ c = idx) hpos
          hinj argA_apart (fun m hm idx _ hidx => ⟨fun x hx => ?_, ?_, fun x hx => ?_⟩) ?_ ?_ ?_
          fun m hm r c hd hnone => ?_
        · obtain rfl | hx := hx
          · exact .inr ⟨i, idx, ⟨rfl, rfl⟩, rfl⟩
          · exact hx.elim
        · rintro r c ⟨rfl, rfl⟩
          rw [if_pos rfl, ← hm.2 r c ⟨hi, hidx⟩]
          exact (Code.writes_put _ _ m _).trans (Code.single_self _ _)
        · exact .inl ⟨i, idx, ⟨rfl, rfl⟩, Code.single_isSome.mp (Code.writes_put _ _ m x ▸ hx)⟩
        · rintro idx - hidx r c ⟨rfl, rfl⟩
          exact ⟨hi, hidx⟩
        · rintro idx - hidx r c ⟨rfl, rfl⟩
          exact ⟨hi, hidx⟩
        · rintro idx idx' - - - - hne r c ⟨rfl, rfl⟩
          exact ⟨fun h => hne h.2, fun h => hne h.2⟩
        · by_cases hr : r = i
          · exact absurd ⟨hr, rfl⟩ (hnone c (Nat.zero_le c) hd.2)
          · rw [if_neg hr]
            exact hm.2 r c hd
      · rw [← hm.1 i i ⟨hi, hi⟩]
        exact Code.peeks_get ⟨.inl ⟨_, rfl⟩, argA_apart _ ⟨_, rfl⟩⟩

theorem trsm_update_spec {forward : Bool} {i : Nat} (hi : i < n) :
    Spec (fun c => ArgA c ∨ Rhs n w b_rs b_cs bbase c) (Rhs n w b_rs b_cs bbase)
      (System n w a_rs a_cs abase b_rs b_cs bbase A X)
      (fun t : Fin nt => trsmUpdate a_rs a_cs abase b_rs b_cs bbase n w forward t i)
      fun _ m => System n w a_rs a_cs abase b_rs b_cs bbase A
        (fun r c => if (if forward then i < r else r < i) then fma (-X i c) (A r i) (X r c) else X r c) m := by
  unfold trsmUpdate
  -- the rows that are left
  have hrange : ∃ r0 rows, (if forward then i + 1 else 0) = r0 ∧ (if forward then n - 1 - i else i) = rows ∧
      ∀ r, r < n → ((if forward then i < r else r < i) ↔ r0 ≤ r ∧ r < r0 + rows) ∧ r0 + rows ≤ n := by
    cases forward with
    | true =>
        refine ⟨i + 1, n - 1 - i, rfl, rfl, fun r hr => ?_⟩
        rw [if_pos rfl]
        omega
    | false =>
        refine ⟨0, i, rfl, rfl, fun r hr => ?_⟩
        rw [if_neg Bool.false_ne_true]
        omega
  obtain ⟨r0, rows, hr0, hrows, hrest⟩ := hrange
  rw [hr0, hrows]
  have hself : ¬ (r0 ≤ i ∧ i < r0 + rows) := fun h => by
    have hlt := (hrest i hi).1.mpr h
    cases forward with
    | true => exact Nat.lt_irrefl i hlt
    | false => exact Nat.lt_irrefl i hlt
  have hle : r0 + rows ≤ n := (hrest i hi).2
  have hdiv : ∀ {idx}, idx < rows * w → idx / w < rows := fun h => Nat.div_lt_of_lt_mul (by rwa [Nat.mul_comm])
  have hmod : ∀ {idx}, idx < rows * w → idx % w < w := fun {idx} h =>
    Nat.mod_lt idx (Nat.pos_of_mul_pos_left (Nat.zero_lt_of_lt h))
  refine system_frame A (Phase.spec hpos ?_)
  refine Phase.matrix_each (fun idx r c => c = idx % w ∧ (r = i ∨ r = r0 + idx / w))
    (fun idx r c => c = idx % w ∧ r = r0 + idx / w) hpos hinj argA_apart
    (fun m hm idx _ hidx => ⟨fun x hx => ?_, ?_, fun x hx => ?_⟩) ?_ ?_ ?_ fun m hm r c hd hnone => ?_
  · obtain rfl | rfl | rfl | hx := hx
    · exact .inr ⟨_, _, ⟨rfl, .inl rfl⟩, rfl⟩
    · exact .inl ⟨_, rfl⟩
    · exact .inr ⟨_, _, ⟨rfl, .inr rfl⟩, rfl⟩
    · exact hx.elim
  · rintro r c ⟨rfl, rfl⟩
    have hc := hmod hidx
    have hr := hdiv hidx
    generalize idx % w = c at hc ⊢
    generalize idx / w = q at hr ⊢
    rw [if_pos ((hrest _ (by omega)).1.mpr ⟨by omega, by omega⟩), ← hm.2 i c ⟨hi, hc⟩,
      ← hm.2 (r0 + q) c ⟨by omega, hc⟩, ← hm.1 (r0 + q) i ⟨by omega, hi⟩]
    exact (Code.writes_put _ _ m _).trans (Code.single_self _ _)
  · exact .inl ⟨_, _, ⟨rfl, rfl⟩, Code.single_isSome.mp (Code.writes_put _ _ m x ▸ hx)⟩
  · rintro idx - hidx r c ⟨rfl, hr⟩
    have hq := hdiv hidx
    refine ⟨?_, hmod hidx⟩
    obtain rfl | rfl := hr
    · exact hi
    · generalize idx / w = q at hq ⊢
      omega
  · rintro idx - hidx r c ⟨rfl, rfl⟩
    have hq := hdiv hidx
    refine ⟨?_, hmod hidx⟩
    generalize idx / w = q at hq ⊢
    omega
  · rintro idx idx' - hidx - hidx' hne r c ⟨rfl, rfl⟩
    have hq := hdiv hidx
    have hsame : ¬ (idx % w = idx' % w ∧ idx / w = idx' / w) := by
      rintro ⟨hmod, hdiv⟩
      refine hne ?_
      rw [← Nat.div_add_mod idx w, ← Nat.div_add_mod idx' w, hmod, hdiv]
    generalize idx / w = q at hsame hq ⊢
    generalize idx' / w = q' at hsame ⊢
    constructor
    · rintro ⟨hc, hr | hr⟩
      · exact hself ⟨by omega, by omega⟩
      · exact hsame ⟨hc, by omega⟩
    · rintro ⟨hc, hr⟩
      exact hsame ⟨hc, by omega⟩
  · by_cases hr : if forward then i < r else r < i
    · obtain ⟨hlow, hhigh⟩ := (hrest r hd.1).1.mp hr
      have hidx := row_major_lt (show r - r0 < rows by omega) hd.2
      refine absurd ⟨?_, ?_⟩ (hnone ((r - r0) * w + c) (Nat.zero_le _) hidx)
      · rw [Nat.mul_add_mod_of_lt hd.2]
      · rw [row_div hd.2]
        omega
    · rw [if_neg hr]
      exact hm.2 r c hd

variable (a_rs a_cs abase) in
/-- The loop over the rows. -/
theorem trsm_rows_spec (forward unit : Bool) {s len : Nat} (hlen : s + len = n) :
    Spec (fun c => ArgA c ∨ Rhs n w b_rs b_cs bbase c) (Rhs n w b_rs b_cs bbase)
      (System n w a_rs a_cs abase b_rs b_cs bbase A X)
      (fun t : Fin nt => trsmRows a_rs a_cs abase b_rs b_cs bbase n w forward unit t (List.range' s len))
      fun _ m => System n w a_rs a_cs abase b_rs b_cs bbase A
        (fun r c => substitute A (fun i => if unit then 1 else A i i)
          ((List.range' s len).map fun step => if forward then step else n - 1 - step)
          (fun r => X r c) r) m := by
  induction len generalizing s X with
  | zero => exact Spec.pure fun _ hm => hm
  | succ len ih =>
      have hi : (if forward then s else n - 1 - s) < n := by
        split
        · omega
        · omega
      -- the rows behind this one are those of the rest of the loop
      have hrest : ∀ r, r < n → ((if forward then (if forward then s else n - 1 - s) < r
          else r < if forward then s else n - 1 - s) ↔
          r ∈ (List.range' (s + 1) len).map fun step => if forward then step else n - 1 - step) := by
        intro r hr
        cases forward with
        | true =>
            simp only [if_true, List.map_id']
            rw [List.mem_range'_1]
            omega
        | false =>
            simp only [Bool.false_eq_true, if_false, List.mem_map, List.mem_range'_1]
            refine ⟨fun h => ⟨n - 1 - r, by omega, by omega⟩, ?_⟩
            rintro ⟨step, hstep, rfl⟩
            omega
      rw [List.range'_succ]
      refine Spec.bind (Spec.bind (trsm_divide_spec hpos hinj A X hi) fun _ =>
        trsm_update_spec hpos hinj A _ hi) fun _ => ?_
      refine (ih (fun r c => substituteStep A (fun i => if unit then 1 else A i i)
        ((List.range' (s + 1) len).map fun step => if forward then step else n - 1 - step)
        (if forward then s else n - 1 - s) (fun r => X r c) r) (by omega)).weaken
          (fun m hm => ⟨hm.1, fun r c hd => (hm.2 r c hd).trans ?_⟩) fun _ _ hm => hm
      have hlater := hrest r hd.1
      generalize (if forward then s else n - 1 - s) = i at hi hlater ⊢
      unfold substituteStep
      dsimp only
      rw [if_pos rfl]
      by_cases hr : r = i
      · have hself : ¬ if forward then i < r else r < i := by
          subst hr
          cases forward with
          | true => exact Nat.lt_irrefl r
          | false => exact Nat.lt_irrefl r
        rw [if_neg hself, if_pos hr, if_pos hr]
      · rw [if_neg hr, if_neg hr]
        by_cases hlt : if forward then i < r else r < i
        · rw [if_pos hlt, if_pos (hlater.mp hlt)]
          rfl
        · rw [if_neg hlt, if_neg fun h => hlt (hlater.mpr h)]

end

/-! ## The launch -/

theorem el_column (rs cs base : Int) (i c0 c : Nat) :
    el rs cs (base + c0 * cs) i c = el rs cs base i (c0 + c) := by
  rw [el, el, Nat.cast_add, Int.add_mul]
  omega

section

variable {K : Type} [Field K] {n k nt nb batch : Nat} {a_rs a_cs a_bs b_rs b_cs b_bs : Int}
  {forward unit : Bool}

/-- The first column of a task. -/
def taskColumn (k task : Nat) : Nat := task % ((k + TRSM_COLS - 1) / TRSM_COLS) * TRSM_COLS

/-- The columns of a task. -/
def taskWidth (k task : Nat) : Nat := min k (taskColumn k task + TRSM_COLS) - taskColumn k task

/-- The batch entry of a task. -/
def taskEntry (k task : Nat) : Nat := task / ((k + TRSM_COLS - 1) / TRSM_COLS)

/-- The cells of the right-hand sides of a task. -/
def TaskRhs (n k : Nat) (b_rs b_cs b_bs : Int) (task : Nat) : Cell → Prop :=
  Rhs n (taskWidth k task) b_rs b_cs (taskEntry k task * b_bs + taskColumn k task * b_cs)

theorem taskEntry_lt {task : Nat} (h : task < batch * ((k + TRSM_COLS - 1) / TRSM_COLS)) :
    taskEntry k task < batch := Nat.div_lt_of_lt_mul (by rwa [Nat.mul_comm])

theorem task_column_lt {task c : Nat} (hc : c < taskWidth k task) : taskColumn k task + c < k := by
  unfold taskWidth at hc
  omega

/-- Every column is one of a task. -/
theorem exists_task {bb c : Nat} (hbb : bb < batch) (hc : c < k) :
    ∃ task < batch * ((k + TRSM_COLS - 1) / TRSM_COLS), taskEntry k task = bb ∧
      ∃ c' < taskWidth k task, taskColumn k task + c' = c := by
  have hchunk : c / TRSM_COLS < (k + TRSM_COLS - 1) / TRSM_COLS := by
    unfold TRSM_COLS
    omega
  refine ⟨bb * ((k + TRSM_COLS - 1) / TRSM_COLS) + c / TRSM_COLS, row_major_lt hbb hchunk,
    row_div hchunk, ?_⟩
  have hcolumn : taskColumn k (bb * ((k + TRSM_COLS - 1) / TRSM_COLS) + c / TRSM_COLS) =
      c / TRSM_COLS * TRSM_COLS := by rw [taskColumn, Nat.mul_add_mod_of_lt hchunk]
  refine ⟨c % TRSM_COLS, ?_, ?_⟩
  · rw [taskWidth, hcolumn]
    unfold TRSM_COLS
    omega
  · rw [hcolumn, Nat.mul_comm]
    exact Nat.div_add_mod c TRSM_COLS

theorem TaskRhs.apart (hentries : Entries batch n k b_rs b_cs b_bs) {task task' : Nat}
    (h : task < batch * ((k + TRSM_COLS - 1) / TRSM_COLS))
    (h' : task' < batch * ((k + TRSM_COLS - 1) / TRSM_COLS)) (hne : task ≠ task') (c : Cell)
    (hc : TaskRhs n k b_rs b_cs b_bs task c) : ¬ TaskRhs n k b_rs b_cs b_bs task' c := by
  rintro ⟨r', c', hd', heq⟩
  obtain ⟨r, c, hd, rfl⟩ := hc
  have haddr := (Cell.float.inj heq).2
  rw [el_column, el_column] at haddr
  obtain ⟨hentry, -, hcolumn⟩ := hentries _ _ r _ r' _ (taskEntry_lt h) (taskEntry_lt h')
    ⟨hd.1, task_column_lt hd.2⟩ ⟨hd'.1, task_column_lt hd'.2⟩ haddr
  have hw := hd.2
  have hw' := hd'.2
  unfold taskEntry at hentry
  unfold taskWidth taskColumn at hw hw'
  unfold taskColumn at hcolumn
  generalize hchunks : (k + TRSM_COLS - 1) / TRSM_COLS = chunks at *
  have hmod : task % chunks = task' % chunks := by
    unfold TRSM_COLS at *
    omega
  refine hne ?_
  rw [← Nat.div_add_mod task chunks, ← Nat.div_add_mod task' chunks, hentry, hmod]

/-- What a task leaves. -/
def TaskDone (n k : Nat) (a_rs a_cs a_bs b_rs b_cs b_bs : Int) (forward unit : Bool)
    (m : ∀ c, Cell.Val K c) (task : Nat) (m' : ∀ c, Cell.Val K c) : Prop :=
  Holds .b (el b_rs b_cs (taskEntry k task * b_bs + taskColumn k task * b_cs))
    (Full n (taskWidth k task)) (fun r c => trsm n forward unit
      (fun i k' => m (.a (el a_rs a_cs (taskEntry k task * a_bs) i k')))
      (fun r => m (.b (el b_rs b_cs (taskEntry k task * b_bs) r (taskColumn k task + c)))) r) m'

/-- The launch solves every system, in any order of the threads' steps. -/
theorem trsm_grid (hblocks : 0 < nb) (hpos : 0 < nt) (hentries : Entries batch n k b_rs b_cs b_bs)
    (m : ∀ c, Cell.Val K c) :
    ∃ N, GridEnds (fun c => ArgA c ∨ ∃ task < batch * ((k + TRSM_COLS - 1) / TRSM_COLS),
        TaskRhs n k b_rs b_cs b_bs task c)
      (fun c => ∃ task < batch * ((k + TRSM_COLS - 1) / TRSM_COLS), TaskRhs n k b_rs b_cs b_bs task c)
      (fun m' => ∀ bb < batch, Holds .b (el b_rs b_cs (bb * b_bs)) (Full n k)
        (fun r c => trsm n forward unit (fun i k' => m (.a (el a_rs a_cs (bb * a_bs) i k')))
          (fun r => m (.b (el b_rs b_cs (bb * b_bs) r c))) r) m') N m
      fun (blk : Fin nb) (t : Fin nt) =>
        _trsm_kernel n k a_rs a_cs a_bs b_rs b_cs b_bs batch forward unit blk t := by
  have hinj : ∀ task, task < batch * ((k + TRSM_COLS - 1) / TRSM_COLS) →
      Distinct (el b_rs b_cs (taskEntry k task * b_bs + taskColumn k task * b_cs))
        (Full n (taskWidth k task)) := by
    intro task htask r c r' c' hd hd' heq
    rw [el_column, el_column] at heq
    obtain ⟨-, hr, hc⟩ := hentries _ _ r _ r' _ (taskEntry_lt htask) (taskEntry_lt htask)
      ⟨hd.1, task_column_lt hd.2⟩ ⟨hd'.1, task_column_lt hd'.2⟩ heq
    exact ⟨hr, by omega⟩
  have hentry : ∀ (_ : Fin nb) (task : Nat), task < batch * ((k + TRSM_COLS - 1) / TRSM_COLS) →
      BatchEntry ArgA noCell (TaskRhs n k b_rs b_cs b_bs task)
        (System n (taskWidth k task) a_rs a_cs (taskEntry k task * a_bs) b_rs b_cs
          (taskEntry k task * b_bs + taskColumn k task * b_cs)
          (fun i k' => m (.a (el a_rs a_cs (taskEntry k task * a_bs) i k')))
          (fun r c => m (.b (el b_rs b_cs (taskEntry k task * b_bs) r (taskColumn k task + c)))))
        (TaskDone n k a_rs a_cs a_bs b_rs b_cs b_bs forward unit m task)
        fun t : Fin nt => trsmTask n k a_rs a_cs a_bs b_rs b_cs b_bs forward unit t task := by
    intro _ task htask
    have hspec := trsm_rows_spec a_rs a_cs (taskEntry k task * a_bs) hpos (hinj task htask)
      (fun i k' => m (.a (el a_rs a_cs (taskEntry k task * a_bs) i k')))
      (fun r c => m (.b (el b_rs b_cs (taskEntry k task * b_bs) r (taskColumn k task + c))))
      forward unit (Nat.zero_add n)
    rw [← List.range_eq_range'] at hspec
    exact .of_spec (hspec.mono (fun c hc => hc.imp_right Or.inl) fun c hc => Or.inl hc)
      (fun c hc => ⟨fun ha => argA_apart c ha hc, id⟩) (fun _ h => h.elim)
      fun _ m1 m2 hm hagree r c hd => (hagree _ (.inr ⟨r, c, hd, rfl⟩)).trans (hm.2 r c hd)
  obtain ⟨N, hN⟩ := GridEnds.of_entries hblocks hentry
    (fun _ task _ c hc => ⟨fun ha => argA_apart c ha hc, id⟩)
    (fun task task' h h' hne c hc => TaskRhs.apart hentries h h' hne c hc) (fun _ _ h => h.elim)
    (fun _ _ _ _ h => h.elim)
    (fun task htask m1 m2 hm hagree =>
      ⟨fun i k' hd => (hagree _ (.inl ⟨_, rfl⟩)).trans (hm.1 i k' hd),
        fun r c hd => (hagree _ (.inr ⟨r, c, hd, rfl⟩)).trans (hm.2 r c hd)⟩)
    (m := m) fun task htask => ⟨fun _ _ _ => rfl, fun r c hd => by rw [el_column]⟩
  refine ⟨N, hN.mono (fun c hc => ?_) (fun c hc => hc.resolve_right fun ⟨_, hc⟩ => hc)
    fun m' hm' bb hbb r c hd => ?_⟩
  · obtain hc | hc | ⟨_, hc⟩ := hc
    · exact .inl hc
    · exact .inr hc
    · exact hc.elim
  · obtain ⟨task, htask, rfl, c', hc', rfl⟩ := exists_task hbb hd.2
    rw [← el_column]
    exact hm' task htask r c' ⟨hd.1, hc'⟩

end

end TorchMojoBackend.Kernels.Linalg
