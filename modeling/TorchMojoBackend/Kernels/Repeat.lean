/-
  `Kernels.Repeat`: repeating a matrix along its rows and columns.

  One kernel loads from an input row and stores to each of its segments of the output
  row; the other walks the output row flat.  Both carry the input row, and the flat one
  the input column, in counters of 32 bits.  The launch picks the vectors from the
  addresses and the kernel from the length of a row and the blocks it would have.

  The grid of a launch is not much larger than the output, so that no 32-bit counter
  wraps and the carried ones are remainders.  The threads then copy each element of each
  output row once, from the row and the column that the formula names.
-/
import TorchMojoBackend.Foundation.Counters
import TorchMojoBackend.Kernels.OpUtils

set_option autoImplicit false

namespace TorchMojoBackend.Kernels.Repeat

open TorchMojoBackend.Foundation TorchMojoBackend.Kernels.OpUtils

def REPEAT_THREADS : Nat := 256
def SEG_MIN_BYTES : Nat := 64
def REPEAT_MAX_BYTES : Nat := 16
def REPEAT_MAX_EXTENT : Nat := 0x7FFFF000

def repeatQuantize (full cap : Nat) : Nat :=
  if full ≤ cap then max 1 full
  else ceildiv full (ceildiv full cap)

def repeatSegBlocks (nseg nout : Nat) : Nat :=
  let tx := min nseg REPEAT_THREADS
  let ty := max 1 (REPEAT_THREADS / tx)
  ceildiv nseg tx * ceildiv nout ty

def repeatFirstRow (orow rows nout : Nat) : Nat :=
  if rows = 1 then 0
  else if nout = rows then orow
  else orow % rows

/-- A load of `width` elements at the offset `src` and a store of them at `dst`. -/
structure Move where
  dst : Nat
  src : Nat
  width : Nat
  deriving DecidableEq

/-- The elements of a move. -/
def Move.elements (w : Move) : List (Nat × Nat) :=
  (List.range w.width).map fun j => (w.dst + j, w.src + j)

/-- Which kernel, with the argument that the other lacks. -/
inductive Kernel where
  | seg (r1 : Nat)
  | flat (cadv : Nat)
  deriving DecidableEq

/-- A launch of a repeat kernel. -/
structure Launch where
  kernel : Kernel
  VEC : Nat
  gx : Nat
  gy : Nat
  tx : Nat
  ty : Nat
  rows : Nat
  cols : Nat
  cout : Nat
  nout : Nat
  iradv : Nat
  deriving DecidableEq

/-! ## Kernels -/

section
variable (l : Launch)

def Launch.orowstride : Nat := u32 (l.gy * l.ty)

/-- `orow` of a thread at the start. -/
def Launch.orow0 (block thread : Nat) : Nat := u32 (u32 (block * l.ty) + thread)

/-- The values of `(orow, ir)` of a thread. -/
def Launch.rowLoop (block thread : Nat) : List (Nat × Nat) :=
  let orow := l.orow0 block thread
  carriedLoop (u32 l.nout) l.orowstride (u32 l.rows) (u32 l.iradv) l.nout orow
    (repeatFirstRow orow (u32 l.rows) (u32 l.nout))

/-- `c0` of a thread of the segment kernel. -/
def Launch.c0 (block thread : Nat) : Nat := u32 (u32 (u32 (block * l.tx) + thread) * l.VEC)

def Launch.cstride : Nat := u32 (u32 (l.gx * l.tx) * l.VEC)

/-- The values of `c` of a thread of the segment kernel. -/
def Launch.colLoop (block thread : Nat) : List Nat :=
  loop32 (u32 l.cols) l.cstride l.cols (l.c0 block thread)

/-- `slot0` of a thread of the flat kernel. -/
def Launch.slot0 (block thread : Nat) : Nat := u32 (u32 (block * l.tx) + thread)

def Launch.xstride : Nat := u32 (l.gx * l.tx)
def Launch.nslots : Nat := u32 (l.cout / l.VEC)

/-- The values of `(slot, c)` of a thread of the flat kernel. -/
def Launch.slotLoop (cadv block thread : Nat) : List (Nat × Nat) :=
  let slot0 := l.slot0 block thread
  if slot0 ≥ l.nslots then []
  else carriedLoop l.nslots l.xstride (u32 l.cols) (u32 cadv) l.nslots slot0
    (u32 (slot0 * l.VEC) % u32 l.cols)

/-- What a thread at `(block, thread)` along the row copies of the output row `orow`. -/
def Launch.rowMoves (block thread orow ir : Nat) : List Move :=
  let inBase := ir * u32 l.cols
  let outBase := orow * l.cout
  match l.kernel with
  | .seg r1 => (l.colLoop block thread).flatMap fun c =>
      (List.range r1).map fun s => ⟨outBase + c + s * u32 l.cols, inBase + c, l.VEC⟩
  | .flat cadv => (l.slotLoop cadv block thread).map fun (slot, c) =>
      ⟨outBase + slot * l.VEC, inBase + c, l.VEC⟩

def Launch.moves : List Move :=
  (List.range l.gy).flatMap fun by' => (List.range l.ty).flatMap fun ty =>
    (List.range l.gx).flatMap fun bx => (List.range l.tx).flatMap fun tx =>
      (l.rowLoop by' ty).flatMap fun (orow, ir) => l.rowMoves bx tx orow ir

end

/-! ## Launches -/

def repeatSegLaunch (VEC rows cols cout r1 nout : Nat) : Launch :=
  let nseg := cols / VEC
  let tx := min nseg REPEAT_THREADS
  let ty := max 1 (REPEAT_THREADS / tx)
  let gy := repeatQuantize (ceildiv nout ty) MAX_GRID_Y
  { kernel := .seg r1, VEC, gx := repeatQuantize (ceildiv nseg tx) BW_MAX_BLOCKS, gy, tx, ty,
    rows, cols, cout, nout, iradv := gy * ty % rows }

def repeatFlatLaunch (VEC rows cols cout nout : Nat) : Launch :=
  let nslots := cout / VEC
  let tx := min nslots REPEAT_THREADS
  let ty := max 1 (REPEAT_THREADS / tx)
  let gx := repeatQuantize (ceildiv nslots tx) BW_MAX_BLOCKS
  let gy := repeatQuantize (ceildiv nout ty) MAX_GRID_Y
  { kernel := .flat (gx * tx * VEC % cols), VEC, gx, gy, tx, ty, rows, cols, cout, nout,
    iradv := gy * ty % rows }

/-- The widths in the order they are tried. -/
def vectorWidths (dtype : BitsType) : List Nat :=
  [16, 8, 4, 2].filter fun V => decide (V ≤ max 1 (REPEAT_MAX_BYTES / dtype.sizeOf))

/-- The widest vector that the row and the addresses allow. -/
def vectorWidth (dtype : BitsType) (outAddr inAddr ecols : Nat) : Nat :=
  ((vectorWidths dtype).find? fun V => decide (ecols % V = 0) &&
    decide (outAddr % ALIGN dtype V = 0) && decide (inAddr % ALIGN dtype V = 0)).getD 1

/-- What `_repeat_tiled` does: an error, nothing or a launch. -/
inductive Outcome where
  | error
  | done
  | launched (l : Launch)
  deriving DecidableEq

def repeatTiled (dtype : BitsType) (outAddr inAddr rows cols r1 ncopies smCount : Nat) : Outcome :=
  if rows ≤ 0 ∨ cols ≤ 0 ∨ r1 ≤ 0 ∨ ncopies ≤ 0 then .done
  else if cols * r1 > REPEAT_MAX_EXTENT ∨ rows * ncopies > REPEAT_MAX_EXTENT then .error
  else
    let (erows, ecols) :=
      if r1 = 1 ∧ rows > 1 ∧ rows * cols ≤ REPEAT_MAX_EXTENT then (1, rows * cols) else (rows, cols)
    let cout := ecols * r1
    let nout := erows * ncopies
    let V := vectorWidth dtype outAddr inAddr ecols
    if ecols * dtype.sizeOf ≥ SEG_MIN_BYTES ∧ repeatSegBlocks (ecols / V) nout ≥ smCount then
      .launched (repeatSegLaunch V erows ecols cout r1 nout)
    else .launched (repeatFlatLaunch V erows ecols cout nout)

/-! ## Grids -/

/-- A quantized grid is not empty and no larger than the full one and the cap. -/
theorem repeatQuantize_spec {full cap : Nat} (hfull : 0 < full) (hcap : 0 < cap) :
    0 < repeatQuantize full cap ∧ repeatQuantize full cap ≤ full ∧
      repeatQuantize full cap ≤ cap := by
  unfold repeatQuantize
  split
  · omega
  · have hk := ceildiv_pos hfull hcap
    have hcover := ceildiv_mul_ge (n := full) hcap
    refine ⟨ceildiv_pos hfull hk, ceildiv_le hk (Nat.le_mul_of_pos_right _ hk), ceildiv_le hk ?_⟩
    rwa [Nat.mul_comm]

/-- Threads of a block and blocks for `n` items. -/
theorem grid_fits {n t cap : Nat} (hn : 0 < n) (ht : 0 < t) (hcap : 0 < cap) :
    0 < repeatQuantize (ceildiv n t) cap ∧ repeatQuantize (ceildiv n t) cap * t < n + t := by
  obtain ⟨hpos, hle, -⟩ := repeatQuantize_spec (ceildiv_pos hn ht) hcap
  exact ⟨hpos, Nat.lt_of_le_of_lt (Nat.mul_le_mul_right t hle) (ceildiv_mul_lt ht)⟩

/-- The columns of the grid of a launch: positions in an input row or in an output row. -/
def Launch.width (l : Launch) : Nat :=
  match l.kernel with
  | .seg _ => l.cols
  | .flat _ => l.cout

/-- A launch whose grid is not much larger than its output. -/
structure Launch.Fits (l : Launch) : Prop where
  rows_pos : 0 < l.rows
  cols_pos : 0 < l.cols
  VEC_pos : 0 < l.VEC
  grid_pos : 0 < l.gx * l.tx ∧ 0 < l.gy * l.ty
  VEC_dvd : l.VEC ∣ l.cols
  cols_dvd : l.cols ∣ l.cout
  cout_le : 0 < l.cout ∧ l.cout ≤ REPEAT_MAX_EXTENT
  nout_le : l.nout ≤ REPEAT_MAX_EXTENT
  rows_le : l.rows ≤ l.nout
  rowThreads : l.gy * l.ty < l.nout + REPEAT_THREADS
  colThreads : l.gx * l.tx * l.VEC < l.width + 16 * REPEAT_THREADS
  iradv_eq : l.iradv = l.gy * l.ty % l.rows
  kernel_eq : match l.kernel with
    | .seg r1 => l.cout = l.cols * r1
    | .flat cadv => cadv = l.gx * l.tx * l.VEC % l.cols

/-- The moves of an output row that copies the input row `ir`. -/
def Launch.rowPlan (l : Launch) (orow ir : Nat) : List Move :=
  match l.kernel with
  | .seg r1 => (List.range (l.cols / l.VEC)).flatMap fun q => (List.range r1).map fun s =>
      ⟨orow * l.cout + q * l.VEC + s * l.cols, ir * l.cols + q * l.VEC, l.VEC⟩
  | .flat _ => (List.range (l.cout / l.VEC)).map fun q =>
      ⟨orow * l.cout + q * l.VEC, ir * l.cols + q * l.VEC % l.cols, l.VEC⟩

/-- A vector that starts at a multiple of its width ends in the row. -/
theorem vec_fits {w m x : Nat} (hw : w ∣ m) (hx : w ∣ x) (hlt : x < m) : x + w ≤ m := by
  obtain ⟨n, rfl⟩ := hw
  obtain ⟨k, rfl⟩ := hx
  exact Nat.mul_le_mul_left w (Nat.succ_le_of_lt (Nat.lt_of_mul_lt_mul_left hlt))

theorem vec_mod {w m x j : Nat} (hw : w ∣ m) (hm : 0 < m) (hx : w ∣ x) (hj : j < w) :
    (x + j) % m = x % m + j := by
  have hfits := vec_fits hw ((Nat.dvd_mod_iff hw).mpr hx) (Nat.mod_lt x hm)
  rw [← Nat.mod_add_mod, Nat.mod_eq_of_lt (by omega)]

namespace Launch.Fits

variable {l : Launch} (h : l.Fits)

include h

theorem cols_le : l.cols ≤ l.cout := Nat.le_of_dvd h.cout_le.1 h.cols_dvd

theorem width_le : l.width ≤ l.cout := by
  unfold Launch.width
  split
  · exact h.cols_le
  · exact Nat.le_refl _

theorem bounds : l.rows < 2 ^ 31 ∧ l.cols < 2 ^ 31 ∧ l.cout < 2 ^ 31 ∧ l.nout < 2 ^ 31 ∧
    l.nout + l.gy * l.ty ≤ 2 ^ 32 ∧ l.cout + l.gx * l.tx * l.VEC ≤ 2 ^ 32 := by
  have hrows := h.rows_le
  have hnout := h.nout_le
  have hcout := h.cout_le.2
  have hcols := h.cols_le
  have hwidth := h.width_le
  have hrow := h.rowThreads
  have hcol := h.colThreads
  unfold REPEAT_MAX_EXTENT at hnout hcout
  unfold REPEAT_THREADS at hrow hcol
  omega

theorem threads_le : l.gx * l.tx ≤ l.gx * l.tx * l.VEC := Nat.le_mul_of_pos_right _ h.VEC_pos

theorem orowstride_eq : l.orowstride = l.gy * l.ty :=
  u32_of_lt (by have := h.bounds; have := h.cols_pos; have := h.rows_le; have := h.rows_pos; omega)

theorem xstride_eq : l.xstride = l.gx * l.tx :=
  u32_of_lt (by have := h.bounds; have := h.threads_le; have := h.cout_le; omega)

theorem cstride_eq : l.cstride = l.gx * l.tx * l.VEC := by
  have hbounds := h.bounds
  have hthreads := h.threads_le
  have hcout := h.cout_le
  unfold Launch.cstride
  rw [u32_of_lt (n := l.gx * l.tx) (by omega), u32_of_lt (by omega)]

theorem orow0_eq {block thread : Nat} (hblock : block < l.gy) (hthread : thread < l.ty) :
    l.orow0 block thread = block * l.ty + thread := by
  have hlt := row_major_lt hblock hthread
  have hbounds := h.bounds
  unfold Launch.orow0
  rw [u32_of_lt (n := block * l.ty) (by omega), u32_of_lt (by omega)]

theorem slot0_eq {block thread : Nat} (hblock : block < l.gx) (hthread : thread < l.tx) :
    l.slot0 block thread = block * l.tx + thread := by
  have hlt := row_major_lt hblock hthread
  have hbounds := h.bounds
  have hthreads := h.threads_le
  unfold Launch.slot0
  rw [u32_of_lt (n := block * l.tx) (by omega), u32_of_lt (by omega)]

theorem slot_lt {block thread : Nat} (hblock : block < l.gx) (hthread : thread < l.tx) :
    (block * l.tx + thread) * l.VEC < l.gx * l.tx * l.VEC :=
  Nat.mul_lt_mul_of_pos_right (row_major_lt hblock hthread) h.VEC_pos

theorem c0_eq {block thread : Nat} (hblock : block < l.gx) (hthread : thread < l.tx) :
    l.c0 block thread = (block * l.tx + thread) * l.VEC := by
  have hslot := h.slot0_eq hblock hthread
  unfold Launch.slot0 at hslot
  unfold Launch.c0
  have hlt := h.slot_lt hblock hthread
  have hbounds := h.bounds
  rw [hslot, u32_of_lt (by omega)]

theorem nslots_eq : l.nslots = l.cout / l.VEC := by
  have hbounds := h.bounds
  have hle := Nat.div_le_self l.cout l.VEC
  exact u32_of_lt (by omega)

/-! ## Counters -/

/-- The rows of a thread, each with its input row. -/
theorem rowLoop_eq {block thread : Nat} (hblock : block < l.gy) (hthread : thread < l.ty) :
    l.rowLoop block thread = (strided l.nout (l.gy * l.ty) l.nout (block * l.ty + thread)).map
      fun o => (o, o % l.rows) := by
  have hbounds := h.bounds
  have hiradv : l.iradv < l.rows := h.iradv_eq ▸ Nat.mod_lt _ h.rows_pos
  unfold Launch.rowLoop
  dsimp only
  rw [h.orow0_eq hblock hthread, h.orowstride_eq, u32_of_lt (n := l.nout) (by omega),
    u32_of_lt (n := l.rows) (by omega), u32_of_lt (n := l.iradv) (by omega), h.iradv_eq]
  have hloop := @carriedLoop_eq l.nout (l.gy * l.ty) l.rows 1 h.rows_pos
    (by omega) (by omega) l.nout (i := block * l.ty + thread)
    (r := repeatFirstRow (block * l.ty + thread) l.rows l.nout) fun hin => ?_
  · simpa only [Nat.mul_one] using hloop
  · unfold repeatFirstRow
    rw [Nat.mul_one]
    split
    · rename_i hone
      rw [hone, Nat.mod_one]
    · split
      · rename_i hsame
        rw [Nat.mod_eq_of_lt (hsame ▸ hin)]
      · rfl

/-- The columns of a thread of the segment kernel. -/
theorem colLoop_eq {block thread : Nat} (hblock : block < l.gx) (hthread : thread < l.tx) :
    l.colLoop block thread = strided l.cols (l.gx * l.tx * l.VEC) l.cols
      ((block * l.tx + thread) * l.VEC) := by
  have hbounds := h.bounds
  have hcols := h.cols_le
  unfold Launch.colLoop
  rw [h.c0_eq hblock hthread, h.cstride_eq, u32_of_lt (n := l.cols) (by omega)]
  exact loop32_eq (by omega) _ _

/-- The slots of a thread of the flat kernel, each with its input column. -/
theorem slotLoop_eq {cadv : Nat} (hflat : l.kernel = .flat cadv) {block thread : Nat}
    (hblock : block < l.gx) (hthread : thread < l.tx) : l.slotLoop cadv block thread =
      (strided (l.cout / l.VEC) (l.gx * l.tx) (l.cout / l.VEC) (block * l.tx + thread)).map
        fun slot => (slot, slot * l.VEC % l.cols) := by
  have hbounds := h.bounds
  have hthreads := h.threads_le
  have hslots := Nat.div_le_self l.cout l.VEC
  have hlt := h.slot_lt hblock hthread
  have hcadv : cadv = l.gx * l.tx * l.VEC % l.cols := by
    have hkernel := h.kernel_eq
    rwa [hflat] at hkernel
  have hcadvLt : cadv < l.cols := hcadv ▸ Nat.mod_lt _ h.cols_pos
  unfold Launch.slotLoop
  dsimp only
  rw [h.slot0_eq hblock hthread, h.nslots_eq, h.xstride_eq, u32_of_lt (n := l.cols) (by omega),
    u32_of_lt (n := cadv) (by omega), u32_of_lt (n := (block * l.tx + thread) * l.VEC) (by omega),
    hcadv]
  split
  · rename_i hout
    have hnone : strided (l.cout / l.VEC) (l.gx * l.tx) (l.cout / l.VEC)
        (block * l.tx + thread) = [] :=
      @strided_fuel _ _ h.grid_pos.1 _ 0 _ (Nat.le_add_left _ _) (by omega)
    rw [hnone]
    rfl
  · exact carriedLoop_eq h.cols_pos (by omega) (by omega) _ fun _ => rfl

/-! ## Moves -/

/-- The threads along a row make its moves. -/
theorem rowMoves_perm (orow ir : Nat) :
    ((List.range l.gx).flatMap fun bx => (List.range l.tx).flatMap fun tx =>
      l.rowMoves bx tx orow ir).Perm (l.rowPlan orow ir) := by
  have hbounds := h.bounds
  have hcols : u32 l.cols = l.cols := u32_of_lt (by omega)
  unfold Launch.rowMoves Launch.rowPlan
  rw [hcols]
  cases hkernel : l.kernel with
  | seg r1 =>
      dsimp only
      obtain ⟨nseg, hnseg⟩ := h.VEC_dvd
      have hseg : l.cols / l.VEC = nseg := by rw [hnseg, Nat.mul_div_cancel_left _ h.VEC_pos]
      have hle : nseg ≤ l.cols := hseg ▸ Nat.div_le_self _ _
      have hloop : ∀ bx ∈ List.range l.gx, ∀ tx ∈ List.range l.tx, l.colLoop bx tx =
          (strided nseg (l.gx * l.tx) nseg (bx * l.tx + tx)).map (· * l.VEC) := by
        intro bx hbx tx htx
        have hfuel : strided nseg (l.gx * l.tx) nseg (bx * l.tx + tx) =
            strided nseg (l.gx * l.tx) l.cols (bx * l.tx + tx) :=
          strided_fuel h.grid_pos.1 (Nat.le_add_left _ _) (by omega)
        rw [h.colLoop_eq (List.mem_range.mp hbx) (List.mem_range.mp htx), hfuel,
          ← strided_mul h.VEC_pos, Nat.mul_comm nseg, ← hnseg]
      have hthreads := (threads_strided_perm (n := nseg) h.grid_pos.1).flatMap_right fun q =>
        (List.range r1).map fun s => (⟨orow * l.cout + q * l.VEC + s * l.cols,
          ir * l.cols + q * l.VEC, l.VEC⟩ : Move)
      rw [hseg]
      refine (List.Perm.of_eq ?_).trans hthreads
      rw [List.flatMap_assoc]
      refine List.flatMap_congr fun bx hbx => ?_
      rw [List.flatMap_assoc]
      refine List.flatMap_congr fun tx htx => ?_
      rw [hloop bx hbx tx htx, List.flatMap_map]
  | flat cadv =>
      dsimp only
      have hthreads := (threads_strided_perm (n := l.cout / l.VEC) h.grid_pos.1).map fun q =>
        (⟨orow * l.cout + q * l.VEC, ir * l.cols + q * l.VEC % l.cols, l.VEC⟩ : Move)
      refine (List.Perm.of_eq ?_).trans hthreads
      rw [List.map_flatMap]
      refine List.flatMap_congr fun bx hbx => ?_
      rw [List.map_flatMap]
      refine List.flatMap_congr fun tx htx => ?_
      rw [h.slotLoop_eq hkernel (List.mem_range.mp hbx) (List.mem_range.mp htx), List.map_map]
      rfl

/-- The launch makes the moves of each output row. -/
theorem moves_perm : l.moves.Perm
    ((List.range l.nout).flatMap fun o => l.rowPlan o (o % l.rows)) := by
  have hswap : ∀ by' ∈ List.range l.gy, ∀ ty ∈ List.range l.ty,
      ((List.range l.gx).flatMap fun bx => (List.range l.tx).flatMap fun tx =>
        (l.rowLoop by' ty).flatMap fun x => l.rowMoves bx tx x.1 x.2).Perm
      ((strided l.nout (l.gy * l.ty) l.nout (by' * l.ty + ty)).flatMap fun o =>
        l.rowPlan o (o % l.rows)) := by
    intro by' hby ty hty
    rw [h.rowLoop_eq (List.mem_range.mp hby) (List.mem_range.mp hty)]
    generalize strided l.nout (l.gy * l.ty) l.nout (by' * l.ty + ty) = rows
    refine (List.Perm.flatMap_left _ fun bx _ => flatMap_comm_perm _ _ _).trans ?_
    refine (flatMap_comm_perm _ _ _).trans ?_
    rw [List.flatMap_map]
    exact List.Perm.flatMap_left _ fun o _ => h.rowMoves_perm o (o % l.rows)
  have hthreads := (threads_strided_perm (n := l.nout) h.grid_pos.2).flatMap_right fun o =>
    l.rowPlan o (o % l.rows)
  refine List.Perm.trans ?_ hthreads
  rw [List.flatMap_assoc]
  refine List.Perm.flatMap_left _ fun by' hby => ?_
  rw [List.flatMap_assoc]
  exact List.Perm.flatMap_left _ fun ty hty => hswap by' hby ty hty

/-- The moves of a row copy its elements. -/
theorem rowPlan_elements (orow ir : Nat) :
    ((l.rowPlan orow ir).flatMap Move.elements).Perm ((List.range l.cout).map fun p =>
      (orow * l.cout + p, ir * l.cols + p % l.cols)) := by
  have hkernelEq := h.kernel_eq
  obtain ⟨nseg, hnseg⟩ := h.VEC_dvd
  have hvecs : ∀ n, n * l.VEC / l.VEC = n := fun n => Nat.mul_div_cancel n h.VEC_pos
  unfold Launch.rowPlan
  cases hkernel : l.kernel with
  | seg r1 =>
      rw [hkernel] at hkernelEq
      have hseg : l.cols / l.VEC = nseg := by rw [hnseg, Nat.mul_comm, hvecs]
      dsimp only at hkernelEq ⊢
      rw [hseg, List.flatMap_assoc]
      simp only [List.flatMap_map]
      refine (flatMap_comm_perm _ _ _).trans (List.Perm.of_eq ?_)
      rw [hkernelEq, Nat.mul_comm l.cols r1, range_mul, List.map_flatMap]
      refine List.flatMap_congr fun s _ => ?_
      have hrow : List.range l.cols = (List.range nseg).flatMap fun q =>
          (List.range l.VEC).map fun j => q * l.VEC + j := by
        rw [hnseg, Nat.mul_comm, range_mul]
      have hmod : ∀ c, c ∈ List.range l.cols → (s * l.cols + c) % l.cols = c := fun c hc => by
        rw [Nat.mul_add_mod', Nat.mod_eq_of_lt (List.mem_range.mp hc)]
      rw [List.map_map]
      have hcongr := List.map_congr_left (f := (fun p => (orow * (r1 * l.cols) + p,
        ir * l.cols + p % l.cols)) ∘ fun c => s * l.cols + c)
        (g := fun c => (orow * (r1 * l.cols) + (s * l.cols + c), ir * l.cols + c))
        fun c hc => Prod.ext rfl (congrArg (ir * l.cols + ·) (hmod c hc))
      rw [hcongr, hrow, List.map_flatMap]
      refine List.flatMap_congr fun q _ => ?_
      unfold Move.elements
      rw [List.map_map]
      refine List.map_congr_left fun j _ => Prod.ext ?_ ?_
      · change orow * (r1 * l.cols) + q * l.VEC + s * l.cols + j =
          orow * (r1 * l.cols) + (s * l.cols + (q * l.VEC + j))
        omega
      · exact Nat.add_assoc ..
  | flat cadv =>
      obtain ⟨r, hr⟩ := h.cols_dvd
      have hslots : l.cout / l.VEC * l.VEC = l.cout :=
        Nat.div_mul_cancel (h.VEC_dvd.trans h.cols_dvd)
      dsimp only
      rw [List.flatMap_map]
      refine List.Perm.of_eq ?_
      have hrow : List.range l.cout = (List.range (l.cout / l.VEC)).flatMap fun q =>
          (List.range l.VEC).map fun j => q * l.VEC + j := by
        rw [← range_mul, hslots]
      rw [hrow, List.map_flatMap]
      refine List.flatMap_congr fun q _ => ?_
      unfold Move.elements
      rw [List.map_map]
      refine List.map_congr_left fun j hj => Prod.ext ?_ ?_
      · exact Nat.add_assoc ..
      · change ir * l.cols + q * l.VEC % l.cols + j = ir * l.cols + (q * l.VEC + j) % l.cols
        rw [Nat.add_assoc,
          vec_mod h.VEC_dvd h.cols_pos (Dvd.intro_left q rfl) (List.mem_range.mp hj)]

/-- The launch copies each element of the output once. -/
theorem elements_perm : (l.moves.flatMap Move.elements).Perm
    ((List.range l.nout).flatMap fun o => (List.range l.cout).map fun p =>
      (o * l.cout + p, o % l.rows * l.cols + p % l.cols)) := by
  refine (h.moves_perm.flatMap_right _).trans ?_
  rw [List.flatMap_assoc]
  exact List.Perm.flatMap_left _ fun o _ => h.rowPlan_elements o _

/-- A move starts at a multiple of its width, in the output and in an input row. -/
theorem move_spec {w : Move} (hw : w ∈ l.moves) : w.width = l.VEC ∧ l.VEC ∣ w.dst ∧
    l.VEC ∣ w.src ∧ w.src % l.cols + w.width ≤ l.cols := by
  have hdvd := h.VEC_dvd
  have hsrc : ∀ ir {x}, l.VEC ∣ x → x < l.cols →
      l.VEC ∣ ir * l.cols + x ∧ (ir * l.cols + x) % l.cols + l.VEC ≤ l.cols := by
    intro ir x hx hlt
    refine ⟨Nat.dvd_add (hdvd.mul_left ir) hx, ?_⟩
    rw [Nat.mul_add_mod', Nat.mod_eq_of_lt hlt]
    exact vec_fits hdvd hx hlt
  obtain ⟨o, -, hw⟩ := List.mem_flatMap.mp (h.moves_perm.mem_iff.mp hw)
  have hbase : l.VEC ∣ o * l.cout := (hdvd.trans h.cols_dvd).mul_left o
  unfold Launch.rowPlan at hw
  split at hw
  · obtain ⟨q, hq, hw⟩ := List.mem_flatMap.mp hw
    obtain ⟨s, -, rfl⟩ := List.mem_map.mp hw
    have hlt : q * l.VEC < l.cols := by
      rw [← Nat.div_mul_cancel hdvd]
      exact Nat.mul_lt_mul_of_pos_right (List.mem_range.mp hq) h.VEC_pos
    have hcol := hsrc (o % l.rows) (Dvd.intro_left q rfl) hlt
    exact ⟨rfl, Nat.dvd_add (Nat.dvd_add hbase (Dvd.intro_left q rfl)) (hdvd.mul_left s), hcol⟩
  · obtain ⟨q, -, rfl⟩ := List.mem_map.mp hw
    have hcol := hsrc (o % l.rows) ((Nat.dvd_mod_iff hdvd).mpr (Dvd.intro_left q rfl))
      (Nat.mod_lt (q * l.VEC) h.cols_pos)
    exact ⟨rfl, Nat.dvd_add hbase (Dvd.intro_left q rfl), hcol⟩

end Launch.Fits

/-! ## Counters of a launch -/

/-- No sum or product of the 32-bit counters reaches 2^32. -/
structure Launch.NoWrap (l : Launch) : Prop where
  args : l.rows < 2 ^ 32 ∧ l.cols < 2 ^ 32 ∧ l.cout < 2 ^ 32 ∧ l.nout < 2 ^ 32
  orow0 : ∀ b t, b < l.gy → t < l.ty → b * l.ty + t < 2 ^ 32
  orowstride : l.gy * l.ty < 2 ^ 32
  rowLoop : ∀ b t, b < l.gy → t < l.ty → ∀ x ∈ l.rowLoop b t,
    x.1 + l.gy * l.ty < 2 ^ 32 ∧ x.2 + l.iradv < 2 ^ 32
  c0 : ∀ b t, b < l.gx → t < l.tx → (b * l.tx + t) * l.VEC < 2 ^ 32
  cstride : l.gx * l.tx * l.VEC < 2 ^ 32
  colLoop : ∀ b t, b < l.gx → t < l.tx → match l.kernel with
    | .seg _ => ∀ c ∈ l.colLoop b t, c + l.gx * l.tx * l.VEC < 2 ^ 32
    | .flat cadv => ∀ x ∈ l.slotLoop cadv b t,
        x.1 + l.gx * l.tx < 2 ^ 32 ∧ x.2 + cadv < 2 ^ 32

/-- The carried counters are the remainders of the counters they follow. -/
structure Launch.Carries (l : Launch) : Prop where
  ir : ∀ b t, b < l.gy → t < l.ty → ∀ x ∈ l.rowLoop b t, x.2 = x.1 % l.rows
  c : ∀ b t, b < l.gx → t < l.tx → match l.kernel with
    | .seg _ => True
    | .flat cadv => ∀ x ∈ l.slotLoop cadv b t, x.2 = x.1 * l.VEC % l.cols

/-- A value of a loop is below its bound. -/
theorem strided_lt {n step fuel i x : Nat} (hstep : 0 < step) (hfuel : n ≤ fuel)
    (hx : x ∈ strided n step fuel i) : x < n :=
  ((mem_strided hstep (by omega)).mp hx).2.1

variable {l : Launch}

theorem Launch.Fits.noWrap (h : l.Fits) : l.NoWrap := by
  have hbounds := h.bounds
  have hthreads := h.threads_le
  have hiradv : l.iradv < l.rows := h.iradv_eq ▸ Nat.mod_lt _ h.rows_pos
  have hpos := h.grid_pos
  have hrows := h.rows_le
  have hrowsPos := h.rows_pos
  have hcout := h.cout_le.1
  have hcols := h.cols_le
  refine ⟨by omega, fun b t hb ht => ?_, by omega, fun b t hb ht x hx => ?_, fun b t hb ht => ?_,
    by omega, fun b t hb ht => ?_⟩
  · have := row_major_lt hb ht
    omega
  · rw [h.rowLoop_eq hb ht] at hx
    obtain ⟨o, ho, rfl⟩ := List.mem_map.mp hx
    have hlt := strided_lt hpos.2 (Nat.le_refl _) ho
    have hmod := Nat.mod_lt o h.rows_pos
    dsimp only
    omega
  · have := h.slot_lt hb ht
    omega
  · split
    · intro c hc
      rw [h.colLoop_eq hb ht] at hc
      have hlt := strided_lt (Nat.mul_pos hpos.1 h.VEC_pos) (Nat.le_refl _) hc
      omega
    · rename_i cadv hflat
      intro x hx
      rw [h.slotLoop_eq hflat hb ht] at hx
      obtain ⟨q, hq, rfl⟩ := List.mem_map.mp hx
      have hlt := strided_lt hpos.1 (Nat.le_refl _) hq
      have hslots := Nat.div_le_self l.cout l.VEC
      have hmod := Nat.mod_lt (q * l.VEC) h.cols_pos
      have hcadv : cadv < l.cols := by
        have hkernel := h.kernel_eq
        rw [hflat] at hkernel
        exact hkernel ▸ Nat.mod_lt _ h.cols_pos
      dsimp only
      omega

theorem Launch.Fits.carries (h : l.Fits) : l.Carries := by
  refine ⟨fun b t hb ht x hx => ?_, fun b t hb ht => ?_⟩
  · rw [h.rowLoop_eq hb ht] at hx
    obtain ⟨o, -, rfl⟩ := List.mem_map.mp hx
    rfl
  · split
    · trivial
    · rename_i cadv hflat
      intro x hx
      rw [h.slotLoop_eq hflat hb ht] at hx
      obtain ⟨q, -, rfl⟩ := List.mem_map.mp hx
      rfl

/-! ## Launches -/

/-- The grid for slots along the row and output rows. -/
theorem launch_grid {slots nout : Nat} (hslots : 0 < slots) (hnout : 0 < nout) :
    let tx := min slots REPEAT_THREADS
    let ty := max 1 (REPEAT_THREADS / tx)
    let gx := repeatQuantize (ceildiv slots tx) BW_MAX_BLOCKS
    let gy := repeatQuantize (ceildiv nout ty) MAX_GRID_Y
    (0 < gx * tx ∧ 0 < gy * ty) ∧ gx * tx < slots + REPEAT_THREADS ∧
      gy * ty < nout + REPEAT_THREADS := by
  intro tx ty gx gy
  have hthreads : REPEAT_THREADS = 256 := rfl
  have htx : 0 < tx := by omega
  have hty : 0 < ty := Nat.lt_of_lt_of_le Nat.one_pos (Nat.le_max_left 1 _)
  have htyLe : ty ≤ REPEAT_THREADS := Nat.max_le.mpr ⟨by omega, Nat.div_le_self _ _⟩
  have hgx := grid_fits hslots htx (show 0 < BW_MAX_BLOCKS by decide)
  have hgy := grid_fits hnout hty (show 0 < MAX_GRID_Y by decide)
  exact ⟨⟨Nat.mul_pos hgx.1 htx, Nat.mul_pos hgy.1 hty⟩,
    Nat.lt_of_lt_of_le hgx.2 (Nat.add_le_add_left (Nat.min_le_right _ _) _),
    Nat.lt_of_lt_of_le hgy.2 (Nat.add_le_add_left htyLe _)⟩

/-- Threads of slots in elements. -/
theorem slots_fit {threads n VEC : Nat} (hVEC : 0 < VEC) (hwide : VEC ≤ 16) (hdvd : VEC ∣ n)
    (h : threads < n / VEC + REPEAT_THREADS) : threads * VEC < n + 16 * REPEAT_THREADS := by
  have hmul := Nat.mul_lt_mul_of_pos_right h hVEC
  rw [Nat.add_mul, Nat.div_mul_cancel hdvd, Nat.mul_comm REPEAT_THREADS] at hmul
  exact Nat.lt_of_lt_of_le hmul (Nat.add_le_add_left (Nat.mul_le_mul_right _ hwide) _)

section
variable {VEC rows cols cout nout : Nat} (hVEC : 0 < VEC) (hwide : VEC ≤ 16) (hdvd : VEC ∣ cols)
  (hrows : 0 < rows) (hcoutLe : 0 < cout ∧ cout ≤ REPEAT_MAX_EXTENT)
  (hnout : nout ≤ REPEAT_MAX_EXTENT) (hrowsLe : rows ≤ nout)

include hVEC hwide hdvd hrows hcoutLe hnout hrowsLe

theorem repeatSegLaunch_fits {r1 : Nat} (hcout : cout = cols * r1) :
    (repeatSegLaunch VEC rows cols cout r1 nout).Fits := by
  have hcols : 0 < cols := Nat.pos_of_mul_pos_right (hcout ▸ hcoutLe.1)
  have hnseg : 0 < cols / VEC := Nat.div_pos (Nat.le_of_dvd hcols hdvd) hVEC
  obtain ⟨hpos, hx, hy⟩ := launch_grid hnseg (Nat.lt_of_lt_of_le hrows hrowsLe)
  exact ⟨hrows, hcols, hVEC, hpos, hdvd, hcout ▸ Dvd.intro r1 rfl, hcoutLe, hnout, hrowsLe, hy,
    slots_fit hVEC hwide hdvd hx, rfl, hcout⟩

theorem repeatFlatLaunch_fits (hcout : cols ∣ cout) :
    (repeatFlatLaunch VEC rows cols cout nout).Fits := by
  have hcols : 0 < cols := Nat.pos_of_dvd_of_pos hcout hcoutLe.1
  have hnslots : 0 < cout / VEC :=
    Nat.div_pos (Nat.le_of_dvd hcoutLe.1 (hdvd.trans hcout)) hVEC
  obtain ⟨hpos, hx, hy⟩ := launch_grid hnslots (Nat.lt_of_lt_of_le hrows hrowsLe)
  exact ⟨hrows, hcols, hVEC, hpos, hdvd, hcout, hcoutLe, hnout, hrowsLe, hy,
    slots_fit hVEC hwide (hdvd.trans hcout) hx, rfl, rfl⟩

end

/-- The chosen width divides the row and the addresses are aligned to it. -/
theorem vectorWidth_spec (dtype : BitsType) (outAddr inAddr ecols : Nat) :
    let V := vectorWidth dtype outAddr inAddr ecols
    0 < V ∧ V * dtype.sizeOf ≤ 16 ∧ V ∣ ecols ∧
      (1 < V → outAddr % ALIGN dtype V = 0 ∧ inAddr % ALIGN dtype V = 0) := by
  unfold vectorWidth
  dsimp only
  cases hfind : (vectorWidths dtype).find? fun V => decide (ecols % V = 0) &&
    decide (outAddr % ALIGN dtype V = 0) && decide (inAddr % ALIGN dtype V = 0) with
  | none =>
      refine ⟨Nat.one_pos, ?_, Nat.one_dvd _, fun hlt => absurd hlt (Nat.lt_irrefl 1)⟩
      cases dtype <;> decide
  | some V =>
      have htest := List.find?_some hfind
      simp only [Bool.and_eq_true, decide_eq_true_eq] at htest
      have hwidths : ∀ V ∈ vectorWidths dtype, 0 < V ∧ V * dtype.sizeOf ≤ 16 := by
        cases dtype <;> decide
      obtain ⟨hpos, hle⟩ := hwidths V (List.mem_of_find?_eq_some hfind)
      exact ⟨hpos, hle, Nat.dvd_of_mod_eq_zero htest.1.1, fun _ => ⟨htest.1.2, htest.2⟩⟩

/-- The input row of a launch: with one copy along the row all rows count as one. -/
def rowLength (rows cols r1 : Nat) : Nat :=
  if r1 = 1 ∧ rows > 1 ∧ rows * cols ≤ REPEAT_MAX_EXTENT then rows * cols else cols

/-- What the launched kernel has to do with the arguments. -/
structure Plans (dtype : BitsType) (outAddr inAddr rows cols r1 ncopies : Nat) (l : Launch) :
    Prop where
  fits : l.Fits
  cols_eq : l.cols = rowLength rows cols r1
  size_eq : l.nout * l.cout = rows * ncopies * (cols * r1)
  vector : l.VEC * dtype.sizeOf ≤ 16 ∧
    (1 < l.VEC → outAddr % ALIGN dtype l.VEC = 0 ∧ inAddr % ALIGN dtype l.VEC = 0)
  formula : ∀ k i s c, k < ncopies → i < rows → s < r1 → c < cols →
    ∃ o p, o < l.nout ∧ p < l.cout ∧ o * l.cout + p = (k * rows + i) * (cols * r1) + (s * cols + c) ∧
      o % l.rows * l.cols + p % l.cols = i * cols + c

theorem repeatTiled_plans {dtype : BitsType} {outAddr inAddr rows cols r1 ncopies : Nat}
    (smCount : Nat) (hrows : 1 ≤ rows) (hcols : 1 ≤ cols) (hr1 : 1 ≤ r1) (hncopies : 1 ≤ ncopies)
    (hcout : cols * r1 ≤ REPEAT_MAX_EXTENT) (hnout : rows * ncopies ≤ REPEAT_MAX_EXTENT) :
    ∃ l, repeatTiled dtype outAddr inAddr rows cols r1 ncopies smCount = .launched l ∧
      Plans dtype outAddr inAddr rows cols r1 ncopies l := by
  unfold repeatTiled
  rw [if_neg (by omega), if_neg (by omega)]
  have hplan : ∀ {erows ecols : Nat}, 0 < erows → 0 < ecols → ecols = rowLength rows cols r1 →
      ecols * r1 ≤ REPEAT_MAX_EXTENT → erows * ncopies ≤ REPEAT_MAX_EXTENT →
      erows * ncopies * (ecols * r1) = rows * ncopies * (cols * r1) →
      (∀ k i s c, k < ncopies → i < rows → s < r1 → c < cols →
        ∃ o p, o < erows * ncopies ∧ p < ecols * r1 ∧
          o * (ecols * r1) + p = (k * rows + i) * (cols * r1) + (s * cols + c) ∧
          o % erows * ecols + p % ecols = i * cols + c) →
      ∃ l, (if ecols * dtype.sizeOf ≥ SEG_MIN_BYTES ∧
          repeatSegBlocks (ecols / vectorWidth dtype outAddr inAddr ecols) (erows * ncopies) ≥
            smCount then
          Outcome.launched (repeatSegLaunch (vectorWidth dtype outAddr inAddr ecols) erows ecols
            (ecols * r1) r1 (erows * ncopies))
        else .launched (repeatFlatLaunch (vectorWidth dtype outAddr inAddr ecols) erows ecols
          (ecols * r1) (erows * ncopies))) = .launched l ∧
        Plans dtype outAddr inAddr rows cols r1 ncopies l := by
    intro erows ecols herows hecols hrow hwide htall hsize hformula
    obtain ⟨hVEC, hbytes, hdvd, halign⟩ := vectorWidth_spec dtype outAddr inAddr ecols
    generalize vectorWidth dtype outAddr inAddr ecols = V at hVEC hbytes hdvd halign ⊢
    have hV : V ≤ 16 := Nat.le_trans (Nat.le_mul_of_pos_right _ (sizeOf_pos dtype)) hbytes
    have hcoutPos : 0 < ecols * r1 := Nat.mul_pos hecols hr1
    have hrowsLe : erows ≤ erows * ncopies := Nat.le_mul_of_pos_right _ hncopies
    split
    · exact ⟨_, rfl, repeatSegLaunch_fits hVEC hV hdvd herows ⟨hcoutPos, hwide⟩ htall hrowsLe rfl,
        hrow, hsize, ⟨hbytes, halign⟩, hformula⟩
    · exact ⟨_, rfl, repeatFlatLaunch_fits hVEC hV hdvd herows ⟨hcoutPos, hwide⟩ htall hrowsLe
        (Dvd.intro r1 rfl), hrow, hsize, ⟨hbytes, halign⟩, hformula⟩
  by_cases hflat : r1 = 1 ∧ rows > 1 ∧ rows * cols ≤ REPEAT_MAX_EXTENT
  · rw [if_pos hflat]
    obtain ⟨rfl, hmany, hfit⟩ := hflat
    refine hplan Nat.one_pos (Nat.mul_pos hrows hcols) (if_pos ⟨rfl, hmany, hfit⟩).symm
      (by omega) ?_ (by ring) fun k i s c hk hi hs hc => ?_
    · have := Nat.le_mul_of_pos_left ncopies hrows
      omega
    · obtain rfl : s = 0 := Nat.lt_one_iff.mp hs
      have hp := row_major_lt hi hc
      refine ⟨k, i * cols + c, by omega, by omega, by ring, ?_⟩
      rw [Nat.mod_one, Nat.zero_mul, Nat.zero_add, Nat.mod_eq_of_lt hp]
  · rw [if_neg hflat]
    refine hplan hrows hcols (if_neg hflat).symm hcout hnout rfl fun k i s c hk hi hs hc => ?_
    refine ⟨k * rows + i, s * cols + c, ?_, ?_, rfl, ?_⟩
    · rw [Nat.mul_comm rows]
      exact row_major_lt hk hi
    · rw [Nat.mul_comm cols]
      exact row_major_lt hs hc
    · rw [Nat.mul_add_mod', Nat.mod_eq_of_lt hi, Nat.mul_add_mod', Nat.mod_eq_of_lt hc]

/-- The launch of a repeat: no counter wraps, the carried ones are remainders, each output
element is written once with the input element that the formula names, and every vector is
aligned and stays in its input row, all rows counting as one where they are flattened. -/
theorem repeat_tiled_exact (dtype : BitsType) (outAddr inAddr rows cols r1 ncopies smCount : Nat)
    (hrows : 1 ≤ rows) (hcols : 1 ≤ cols) (hr1 : 1 ≤ r1) (hncopies : 1 ≤ ncopies)
    (hcout : cols * r1 ≤ REPEAT_MAX_EXTENT) (hnout : rows * ncopies ≤ REPEAT_MAX_EXTENT) :
    ∃ l, repeatTiled dtype outAddr inAddr rows cols r1 ncopies smCount = .launched l ∧
      l.NoWrap ∧ l.Carries ∧
      ((l.moves.flatMap Move.elements).map Prod.fst).Perm
        (List.range (rows * ncopies * (cols * r1))) ∧
      (∀ k i s c, k < ncopies → i < rows → s < r1 → c < cols →
        ((k * rows + i) * (cols * r1) + (s * cols + c), i * cols + c) ∈
          l.moves.flatMap Move.elements) ∧
      ∀ w ∈ l.moves, w.src % rowLength rows cols r1 + w.width ≤ rowLength rows cols r1 ∧
        (1 < w.width → (outAddr + w.dst * dtype.sizeOf) % ALIGN dtype w.width = 0 ∧
          (inAddr + w.src * dtype.sizeOf) % ALIGN dtype w.width = 0) := by
  obtain ⟨l, hlaunch, hplan⟩ :=
    @repeatTiled_plans dtype outAddr inAddr _ _ _ _ smCount hrows hcols hr1 hncopies hcout hnout
  have hfits := hplan.fits
  refine ⟨l, hlaunch, hfits.noWrap, hfits.carries, ?_, fun k i s c hk hi hs hc => ?_, ?_⟩
  · refine (hfits.elements_perm.map Prod.fst).trans (List.Perm.of_eq ?_)
    rw [← hplan.size_eq, range_mul, List.map_flatMap]
    refine List.flatMap_congr fun o _ => ?_
    rw [List.map_map]
    rfl
  · obtain ⟨o, p, ho, hp, hdst, hsrc⟩ := hplan.formula k i s c hk hi hs hc
    rw [hfits.elements_perm.mem_iff, ← hdst, ← hsrc]
    exact List.mem_flatMap.mpr ⟨o, List.mem_range.mpr ho,
      List.mem_map.mpr ⟨p, List.mem_range.mpr hp, rfl⟩⟩
  · intro w hw
    obtain ⟨hwidth, hdst, hsrc, hrow⟩ := hfits.move_spec hw
    rw [← hplan.cols_eq]
    refine ⟨hrow, fun hwide => ?_⟩
    obtain ⟨hbytes, halign⟩ := hplan.vector
    rw [hwidth] at hwide ⊢
    obtain ⟨hout, hin⟩ := halign hwide
    unfold ALIGN at hout hin ⊢
    rw [Nat.min_eq_right hbytes] at hout hin ⊢
    obtain ⟨x, hx⟩ := hdst
    obtain ⟨y, hy⟩ := hsrc
    constructor
    · rw [hx, Nat.mul_right_comm, Nat.add_mul_mod_self_left, hout]
    · rw [hy, Nat.mul_right_comm, Nat.add_mul_mod_self_left, hin]

/-- Two rows of two elements, once: the vector of four ends in the second row. -/
theorem repeat_tiled_straddles : ∃ l, repeatTiled .uint32 0 0 2 2 1 1 1 = .launched l ∧
    ∃ w ∈ l.moves, 1 < w.width ∧ ¬ w.src % 2 + w.width ≤ 2 :=
  ⟨repeatFlatLaunch 4 1 4 4 1, by decide, ⟨0, 0, 4⟩, by decide, by decide, by decide⟩

theorem repeat_tiled_exact_rows : ∃ l, repeatTiled .uint32 0 0 3 4 2 2 1 = .launched l ∧
    l.NoWrap ∧ l.Carries := by
  obtain ⟨l, hlaunch, hwrap, hcarries, -⟩ := repeat_tiled_exact .uint32 0 0 3 4 2 2 1 (by decide)
    (by decide) (by decide) (by decide) (by decide) (by decide)
  exact ⟨l, hlaunch, hwrap, hcarries⟩

end TorchMojoBackend.Kernels.Repeat
