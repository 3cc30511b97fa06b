/-
  `Ccl.Nvls`: the all-reduce through the switch, its chunks and its barriers.

  Source: tmb/ccl/device/all_reduce.mojo (`nvls_blocks` to `nvls_barriers_per_call`,
  `_nvls_ar_kernel`, `nvls_allreduce`) and tmb/ccl/enqueue.mojo (`_do_allreduce_nvls`).

  A kernel is the list of spans of 16-byte vectors a block walks and of the barriers it
  waits at.  The scale, the element type beyond its size, and the builds and devices
  without a switch are left out.
-/
import TorchMojoBackend.Ccl.PlansFit

set_option autoImplicit false

namespace TorchMojoBackend.Ccl.Nvls

open TorchMojoBackend.Foundation

/-! ## Sizes -/

def NVLS_MAX_BLOCKS : Nat := 216
def NVLS_REDUCE_PCT : Nat := 25
def CHUNK_DIV : Nat := 4
def CHUNK_MIN : Nat := 21 * 1024 * 1024
def CHUNK_MAX : Nat := 86 * 1024 * 1024

/-- `nvls_blocks`. -/
def nvlsBlocks (smCount : Nat) : Nat :=
  let byOccupancy := if 0 < smCount then 2 * smCount else NVLS_MAX_BLOCKS
  max 2 (min NVLS_MAX_BLOCKS byOccupancy)

/-- `nvls_chunk_bytes`. -/
def nvlsChunkBytes (totalBytes : Nat) : Nat :=
  let c := totalBytes / CHUNK_DIV
  let c := max c CHUNK_MIN
  min c CHUNK_MAX

/-- `nvls_chunk_vecs`. -/
def nvlsChunkVecs (chunkBytes world : Nat) : Nat :=
  let q := max 1 world
  let v := max q (chunkBytes / 16)
  v / q * q

/-- `nvls_padded_vecs`. -/
def nvlsPaddedVecs (numel world esize : Nat) : Nat :=
  let w := 16 / esize
  let q := max 1 (world * w)
  (numel + q - 1) / q * q / w

/-- `nvls_barriers_per_call`. -/
def nvlsBarriersPerCall (numel world esize cv : Nat) : Nat :=
  let nvec := nvlsPaddedVecs numel world esize
  (nvec + cv - 1) / cv + 2

/-! ## The kernel -/

/-- The arguments of `nvls_allreduce`. -/
structure Launch where
  rank : Nat
  world : Nat
  mcBase : Nat
  ucBase : Nat
  inPtr : Nat
  outPtr : Nat
  numel : Nat
  /-- Bytes of an element. -/
  item : Nat
  payloadBytes : Nat
  target : Nat
  blocks : Nat
  chunkVecs : Nat
  deriving DecidableEq, Repr

/-- What a block does: walk the vectors from `v0` up to `v1`, or wait until the flag is
at least `target`. -/
inductive Op where
  | copyIn (v0 v1 : Nat)
  | reduce (v0 v1 : Nat)
  | copyOut (v0 v1 : Nat)
  | sync (target : Nat)
  deriving DecidableEq, Repr

namespace Launch

variable (l : Launch)

def width : Nat := 16 / l.item

/-- `nvec` as the kernel computes it. -/
def nvec : Nat :=
  let q := l.world * l.width
  (l.numel + q - 1) / q * q / l.width

/-- `nch`. -/
def nch : Nat := (l.nvec + l.chunkVecs - 1) / l.chunkVecs

/-- What a block does in the body of the loop for chunk `c`. -/
def chunkBody (isReducer : Bool) (c : Nat) : List Op :=
  let cv := l.chunkVecs
  let s0 := c * cv
  let s1 := min (s0 + cv) l.nvec
  if isReducer then
    let per := (s1 - s0) / l.world
    [.reduce (s0 + l.rank * per) (s0 + l.rank * per + per)]
  else
    (if c + 1 < l.nch then [.copyIn s1 (min (s1 + cv) l.nvec)] else []) ++
      (if 0 < c then [.copyOut ((c - 1) * cv) s0] else [])

/-- The loop over the chunks, from chunk `c` with `left` to go. -/
def chunkLoop (isReducer : Bool) : Nat → Nat → Nat → List Op
  | _, _, 0 => []
  | c, bar, left + 1 =>
      l.chunkBody isReducer c ++ .sync bar :: chunkLoop isReducer (c + 1) (bar + l.world) left

/-- `_nvls_ar_kernel`, as one of its blocks runs it. -/
def kernel (isReducer : Bool) : List Op :=
  let cv := l.chunkVecs
  [.sync l.target] ++ (if isReducer then [] else [.copyIn 0 (min cv l.nvec)]) ++
    [.sync (l.target + l.world)] ++
    l.chunkLoop isReducer 0 (l.target + l.world + l.world) l.nch ++
    (if isReducer then [] else [.copyOut ((l.nch - 1) * cv) l.nvec])

/-- `reduce_blocks`, clamped once more by the kernel. -/
def reduceBlocks : Nat :=
  let rb := max 1 (min (l.blocks - 1) (l.blocks * NVLS_REDUCE_PCT / 100))
  min (max 1 rb) (l.blocks - 1)

/-- Block `b` of the grid. -/
def block (b : Nat) : List Op := l.kernel (b < l.reduceBlocks)

end Launch

/-- `nvls_allreduce`: the launch, or the error that is raised instead. -/
def nvlsAllreduce (l : Launch) : Except String (List Launch) :=
  if l.numel = 0 then .ok []
  else if l.world < 2 ∨ l.world > 8 then
    .error "collectives: the NVLS path needs 2..8 local ranks"
  else if l.rank ≥ l.world then .error "collectives: rank out of range"
  else if (l.inPtr ||| l.outPtr) % 16 ≠ 0 then
    .error "collectives: NVLS needs 16-byte aligned in_ptr/out_ptr"
  else if l.mcBase = 0 ∨ l.ucBase = 0 then
    .error "collectives: NVLS called without a multicast region"
  else if nvlsPaddedVecs l.numel l.world l.item * 16 > l.payloadBytes then
    .error "collectives: NVLS message exceeds the staging arena"
  else if l.chunkVecs < l.world ∨ l.chunkVecs % l.world ≠ 0 then
    .error "collectives: NVLS chunk must be whole per-rank slices"
  else .ok [l]

/-! ## The host -/

/-- What `_do_allreduce_nvls` reads of a communicator with a multicast region. -/
structure Comm where
  world : Nat
  rank : Nat
  capBytes : Nat
  mc : Nat
  uc : Nat
  grid : Nat
  two_le : 2 ≤ world
  world_le : world ≤ MAX_WORLD
  rank_lt : rank < world
  cap_pos : 0 < capBytes
  page : 4096 ∣ capBytes
  mc_ne : mc ≠ 0
  uc_ne : uc ≠ 0

/-- The size of an element. -/
structure Item where
  size : Nat
  dvd : size ∣ 16

/-- The buffers of a call, whose alignment `ncclAllReduce` has checked. -/
structure Call where
  item : Item
  count : Nat
  send : Nat
  recv : Nat
  send_aligned : send % 16 = 0
  recv_aligned : recv % 16 = 0

namespace Comm

variable (c : Comm)

theorem world_pos : 0 < c.world := Nat.lt_of_lt_of_le (by decide) c.two_le

def payload : Nat := 2 * c.capBytes

/-- `max_elems`. -/
def maxElems (item : Item) : Nat := c.payload / 16 / c.world * c.world * (16 / item.size)

theorem maxElems_pos (item : Item) : 0 < c.maxElems item := by
  have hcap : 4096 ≤ c.capBytes := Nat.le_of_dvd c.cap_pos c.page
  have hworld : c.world ≤ 8 := c.world_le
  have hslices : 0 < c.payload / 16 / c.world := by
    refine Nat.div_pos ?_ c.world_pos
    unfold payload
    omega
  exact Nat.mul_pos (Nat.mul_pos hslices c.world_pos) (width_pos item.dvd)

/-- The launch for `chunk` elements from element `done` on. -/
def launch (call : Call) (done chunk cv target : Nat) : Launch where
  rank := c.rank
  world := c.world
  mcBase := c.mc
  ucBase := c.uc
  inPtr := call.send + done * call.item.size
  outPtr := call.recv + done * call.item.size
  numel := chunk
  item := call.item.size
  payloadBytes := c.payload
  target := target
  blocks := c.grid
  chunkVecs := cv

end Comm

/-- What was launched, `nvls_bars` afterwards, and the error raised. -/
structure Outcome where
  launches : List Launch
  bars : Nat
  raised : Option String
  deriving DecidableEq, Repr

/-- The loop of `_do_allreduce_nvls`.  `nvls_bars` is advanced before the launch, and
stays advanced where the launch raises. -/
def allreduceLoop (c : Comm) (call : Call) (done bars : Nat) : Outcome :=
  if _h : done < call.count then
    let chunk := min (c.maxElems call.item) (call.count - done)
    let cv := nvlsChunkVecs (nvlsChunkBytes (chunk * call.item.size)) c.world
    let target := (bars + 1) * c.world
    let bars := bars + nvlsBarriersPerCall chunk c.world call.item.size cv
    match nvlsAllreduce (c.launch call done chunk cv target) with
    | .error e => ⟨[], bars, some e⟩
    | .ok launched =>
        let rest := allreduceLoop c call (done + chunk) bars
        { rest with launches := launched ++ rest.launches }
  else ⟨[], bars, none⟩
termination_by call.count - done
decreasing_by
  have := c.maxElems_pos call.item
  omega

/-- `_do_allreduce_nvls`. -/
def doAllreduceNvls (c : Comm) (call : Call) (bars : Nat) : Outcome :=
  allreduceLoop c call 0 bars

/-- A sequence of calls; one that raises is the last. -/
def enqueueCalls (c : Comm) : List Call → Nat → Outcome
  | [], bars => ⟨[], bars, none⟩
  | call :: calls, bars =>
      let o := doAllreduceNvls c call bars
      match o.raised with
      | some _ => o
      | none =>
          let rest := enqueueCalls c calls o.bars
          { rest with launches := o.launches ++ rest.launches }

/-! ## Sizes fit -/

section

variable {n world item : Nat}

/-- The payload is padded to whole vectors, as many for every rank. -/
theorem paddedVecs_eq (hworld : 0 < world) (hitem : item ∣ 16) :
    nvlsPaddedVecs n world item = pieces n (world * (16 / item)) * world := by
  have hq : max 1 (world * (16 / item)) = world * (16 / item) :=
    Nat.max_eq_right (Nat.mul_pos hworld (width_pos hitem))
  unfold nvlsPaddedVecs
  dsimp only
  rw [hq, ← Nat.mul_assoc]
  exact Nat.mul_div_cancel _ (width_pos hitem)

theorem paddedVecs_fit (hworld : 0 < world) (hitem : item ∣ 16) {payload : Nat}
    (hn : n ≤ payload / 16 / world * world * (16 / item)) :
    nvlsPaddedVecs n world item * 16 ≤ payload := by
  have hunit : 0 < world * (16 / item) := Nat.mul_pos hworld (width_pos hitem)
  have hpieces : pieces n (world * (16 / item)) ≤ payload / 16 / world := by
    refine Nat.le_of_not_lt fun h => ?_
    have hlt := (lt_pieces_iff hunit).mp h
    rw [← Nat.mul_assoc] at hlt
    exact absurd hlt (Nat.not_lt.mpr hn)
  rw [paddedVecs_eq hworld hitem]
  calc pieces n (world * (16 / item)) * world * 16
      ≤ payload / 16 / world * world * 16 :=
        Nat.mul_le_mul_right 16 (Nat.mul_le_mul_right world hpieces)
    _ ≤ payload / 16 * 16 := Nat.mul_le_mul_right 16 (Nat.div_mul_le_self _ _)
    _ ≤ payload := Nat.div_mul_le_self _ _

theorem chunkVecs_eq (hworld : 0 < world) (bytes : Nat) :
    nvlsChunkVecs bytes world = max world (bytes / 16) / world * world := by
  unfold nvlsChunkVecs
  dsimp only
  rw [Nat.max_eq_right (Nat.succ_le_of_lt hworld)]

theorem dvd_chunkVecs (hworld : 0 < world) (bytes : Nat) : world ∣ nvlsChunkVecs bytes world := by
  rw [chunkVecs_eq hworld]
  exact Nat.dvd_mul_left world _

theorem le_chunkVecs (hworld : 0 < world) (bytes : Nat) : world ≤ nvlsChunkVecs bytes world := by
  rw [chunkVecs_eq hworld]
  refine Nat.le_mul_of_pos_left world (Nat.div_pos ?_ hworld)
  exact Nat.le_max_left _ _

end

/-! ## What a launch walks -/

/-- What the checks of `nvls_allreduce` let through. -/
structure Launch.Checked (l : Launch) : Prop where
  numel_pos : 0 < l.numel
  two_le : 2 ≤ l.world
  rank_lt : l.rank < l.world
  item_dvd : l.item ∣ 16
  fits : nvlsPaddedVecs l.numel l.world l.item * 16 ≤ l.payloadBytes
  le_chunk : l.world ≤ l.chunkVecs
  chunk_dvd : l.world ∣ l.chunkVecs

/-- The vectors an operation walks. -/
def Op.copiedIn? : Op → Option Span
  | .copyIn v0 v1 => some ⟨v0, v1 - v0⟩
  | _ => none

def Op.reduced? : Op → Option Span
  | .reduce v0 v1 => some ⟨v0, v1 - v0⟩
  | _ => none

def Op.copiedOut? : Op → Option Span
  | .copyOut v0 v1 => some ⟨v0, v1 - v0⟩
  | _ => none

/-- The value a barrier waits for. -/
def Op.target? : Op → Option Nat
  | .sync target => some target
  | _ => none

/-- The targets of `n` barriers, of which the first is the one after `bars` others. -/
def targets (world bars n : Nat) : List Nat := (List.range' (bars + 1) n).map (· * world)

theorem targets_append (world bars m n : Nat) :
    targets world bars m ++ targets world (bars + m) n = targets world bars (m + n) := by
  unfold targets
  rw [← List.map_append, Nat.add_right_comm, List.range'_append_1]

theorem targets_succ (world bars n : Nat) :
    targets world bars (n + 1) = (bars + 1) * world :: targets world (bars + 1) n := by
  unfold targets
  rw [List.range'_succ, List.map_cons]

namespace Launch

variable {l : Launch}

/-- The vectors of chunk `c`. -/
def span (l : Launch) (c : Nat) : Span := chunk l.nvec l.chunkVecs c

/-- The part of chunk `c` that rank `r` reduces. -/
def slice (l : Launch) (c r : Nat) : Span :=
  slotAt (l.span c).off ((l.span c).len / l.world) r

namespace Checked

theorem world_pos (h : l.Checked) : 0 < l.world := Nat.lt_of_lt_of_le (by decide) h.two_le

theorem chunkVecs_pos (h : l.Checked) : 0 < l.chunkVecs := Nat.lt_of_lt_of_le h.world_pos h.le_chunk

/-- The kernel computes the host's number of vectors. -/
theorem nvec_eq (h : l.Checked) : l.nvec = nvlsPaddedVecs l.numel l.world l.item := by
  have hq : max 1 (l.world * (16 / l.item)) = l.world * (16 / l.item) :=
    Nat.max_eq_right (Nat.mul_pos h.world_pos (width_pos h.item_dvd))
  unfold nvec nvlsPaddedVecs width
  dsimp only
  rw [hq]

theorem world_dvd_nvec (h : l.Checked) : l.world ∣ l.nvec := by
  rw [h.nvec_eq, paddedVecs_eq h.world_pos h.item_dvd]
  exact Nat.dvd_mul_left _ _

/-- The vectors hold the elements, and fewer others than a vector for every rank. -/
theorem padded (h : l.Checked) :
    l.numel ≤ l.nvec * l.width ∧ l.nvec * l.width < l.numel + l.world * l.width := by
  have hunit : 0 < l.world * l.width := Nat.mul_pos h.world_pos (width_pos h.item_dvd)
  rw [h.nvec_eq, paddedVecs_eq h.world_pos h.item_dvd, Nat.mul_assoc]
  exact ⟨le_pieces_mul hunit, pieces_mul_lt hunit⟩

theorem nvec_pos (h : l.Checked) : 0 < l.nvec := by
  refine Nat.pos_of_ne_zero fun hzero => ?_
  have hle := h.padded.1
  have hpos := h.numel_pos
  rw [hzero, Nat.zero_mul] at hle
  omega

theorem nch_pos (h : l.Checked) : 0 < l.nch := pieces_pos h.nvec_pos h.chunkVecs_pos

theorem tiles (h : l.Checked) : Tiles l.nvec l.nch l.span := tiles_chunk h.chunkVecs_pos

theorem world_dvd_len (h : l.Checked) (c : Nat) : l.world ∣ (l.span c).len := by
  have hrest : l.world ∣ l.nvec - c * l.chunkVecs :=
    Nat.dvd_sub h.world_dvd_nvec (Dvd.dvd.mul_left h.chunk_dvd c)
  unfold span chunk
  dsimp only
  obtain hle | hle := Nat.le_total l.chunkVecs (l.nvec - c * l.chunkVecs)
  · rw [Nat.min_eq_left hle]
    exact h.chunk_dvd
  · rw [Nat.min_eq_right hle]
    exact hrest

/-- The slices of the ranks cover a chunk. -/
theorem mem_slices (h : l.Checked) {c : Nat} (hc : c < l.nch) (v : Nat) :
    v ∈ l.span c ↔ ∃ r, r < l.world ∧ v ∈ l.slice c r := by
  have hlen : 0 < (l.span c).len := chunk_len_pos h.chunkVecs_pos hc
  have hper : 0 < (l.span c).len / l.world :=
    Nat.div_pos (Nat.le_of_dvd hlen (h.world_dvd_len c)) h.world_pos
  unfold slice
  rw [mem_slots_iff hper, Nat.mul_div_cancel' (h.world_dvd_len c)]
  exact Iff.rfl

theorem slices_apart {c r r' : Nat} (hne : r ≠ r') : (l.slice c r).Apart (l.slice c r') :=
  slotAt_apart hne

end Checked

/-! ## What a block does -/

/-- What the loop over the chunks does besides waiting. -/
theorem filterMap_chunkLoop {α : Type*} (f : Op → Option α) (hf : ∀ t, f (.sync t) = none)
    (isReducer : Bool) (c bar left : Nat) :
    (l.chunkLoop isReducer c bar left).filterMap f =
      (List.range left).flatMap fun i => (l.chunkBody isReducer (c + i)).filterMap f := by
  induction left generalizing c bar with
  | zero => rfl
  | succ left ih =>
      have hshift : ∀ i, c + 1 + i = c + (i + 1) := fun i => by omega
      rw [chunkLoop, List.filterMap_append, List.filterMap_cons_none (hf bar), ih,
        List.range_succ_eq_map, List.flatMap_cons, List.flatMap_map]
      simp only [Nat.add_zero, Nat.succ_eq_add_one, hshift]

theorem target?_chunkBody (isReducer : Bool) (c : Nat) :
    (l.chunkBody isReducer c).filterMap Op.target? = [] := by
  unfold chunkBody
  cases isReducer with
  | true => rfl
  | false =>
      by_cases hin : c + 1 < l.nch <;> by_cases hout : 0 < c <;> simp [hin, hout, Op.target?]

theorem target?_chunkLoop (isReducer : Bool) (c bars left : Nat) :
    (l.chunkLoop isReducer c ((bars + 1) * l.world) left).filterMap Op.target? =
      targets l.world bars left := by
  induction left generalizing c bars with
  | zero => rfl
  | succ left ih =>
      have hnext : (bars + 1) * l.world + l.world = (bars + 1 + 1) * l.world :=
        (Nat.succ_mul _ _).symm
      rw [chunkLoop, List.filterMap_append, target?_chunkBody, List.nil_append, hnext,
        List.filterMap_cons_some (rfl : Op.target? (.sync _) = some _), ih, targets_succ]

/-- The values a block waits for. -/
def waits (l : Launch) (isReducer : Bool) : List Nat := (l.kernel isReducer).filterMap Op.target?

/-- A block waits as often as the host has counted, for one target after the other. -/
theorem waits_eq (h : l.Checked) (isReducer : Bool) {bars : Nat}
    (htarget : l.target = (bars + 1) * l.world) :
    l.waits isReducer =
      targets l.world bars (nvlsBarriersPerCall l.numel l.world l.item l.chunkVecs) := by
  have hsecond : l.target + l.world = (bars + 1 + 1) * l.world := by
    rw [htarget, Nat.succ_mul (bars + 1)]
  have hthird : l.target + l.world + l.world = (bars + 2 + 1) * l.world := by
    rw [hsecond, ← Nat.succ_mul]
  have hcount : nvlsBarriersPerCall l.numel l.world l.item l.chunkVecs = l.nch + 1 + 1 := by
    unfold nvlsBarriersPerCall nch
    dsimp only
    rw [h.nvec_eq]
  have hloop := target?_chunkLoop (l := l) isReducer 0 (bars + 2) l.nch
  rw [hcount, targets_succ, targets_succ, ← hloop, ← hthird, ← hsecond, ← htarget]
  unfold waits kernel
  cases isReducer <;> simp [Op.target?, List.filterMap_append, List.filterMap_cons]

theorem span_stop (h : l.Checked) {c : Nat} (hc : c < l.nch) :
    (l.span c).stop = min (c * l.chunkVecs + l.chunkVecs) l.nvec := by
  have hlt := (lt_pieces_iff h.chunkVecs_pos).mp hc
  unfold span chunk Span.stop
  dsimp only
  omega

/-- The blocks of the first kind reduce the slice of their rank, chunk after chunk. -/
theorem reduced (h : l.Checked) :
    (l.kernel true).filterMap Op.reduced? = (List.range l.nch).map fun c => l.slice c l.rank := by
  have hbody : ∀ c ∈ List.range l.nch,
      (l.chunkBody true c).filterMap Op.reduced? = [l.slice c l.rank] := by
    intro c hc
    have hstop := span_stop h (List.mem_range.mp hc)
    have hlen : min (c * l.chunkVecs + l.chunkVecs) l.nvec - c * l.chunkVecs = (l.span c).len := by
      rw [← hstop]
      exact Nat.add_sub_cancel_left _ _
    unfold chunkBody
    simp only [if_true, hlen, List.filterMap_cons, Op.reduced?, List.filterMap_nil,
      Nat.add_sub_cancel_left]
    rfl
  have hloop := filterMap_chunkLoop (l := l) Op.reduced? (fun _ => rfl) true 0
    (l.target + l.world + l.world) l.nch
  simp only [Nat.zero_add] at hloop
  rw [List.flatMap_congr hbody, ← List.map_eq_flatMap] at hloop
  unfold kernel
  simpa [List.filterMap_cons, Op.reduced?] using hloop

/-- A span from one chunk border to the next is the chunk. -/
theorem span_eq (h : l.Checked) {c : Nat} (hc : c < l.nch) :
    (⟨c * l.chunkVecs, min (c * l.chunkVecs + l.chunkVecs) l.nvec - c * l.chunkVecs⟩ : Span) =
      l.span c := by
  rw [← span_stop h hc]
  exact congrArg (Span.mk _) (Nat.add_sub_cancel_left _ _)

/-- A chunk before the last one ends where the next one starts. -/
theorem border (h : l.Checked) {c : Nat} (hc : c + 1 < l.nch) :
    min (c * l.chunkVecs + l.chunkVecs) l.nvec = (c + 1) * l.chunkVecs := by
  have hlt := (lt_pieces_iff h.chunkVecs_pos).mp hc
  rw [Nat.succ_mul] at hlt ⊢
  omega

/-- The other blocks stage the chunks one after the other. -/
theorem copiedIn (h : l.Checked) :
    (l.kernel false).filterMap Op.copiedIn? = (List.range l.nch).map l.span := by
  obtain ⟨m, hm⟩ : ∃ m, l.nch = m + 1 := ⟨l.nch - 1, (Nat.succ_pred_eq_of_pos h.nch_pos).symm⟩
  have hbody : ∀ c ∈ List.range m,
      (l.chunkBody false c).filterMap Op.copiedIn? = [l.span (c + 1)] := by
    intro c hc
    have hnext : c + 1 < l.nch := by
      have := List.mem_range.mp hc
      omega
    have hspan := span_eq h hnext
    unfold chunkBody
    by_cases hout : 0 < c <;> simp [hnext, hout, border h hnext, Op.copiedIn?, hspan]
  have hlast : (l.chunkBody false m).filterMap Op.copiedIn? = [] := by
    have hend : ¬ m + 1 < l.nch := by omega
    unfold chunkBody
    by_cases hout : 0 < m <;> simp [hend, hout, Op.copiedIn?]
  have hloop := filterMap_chunkLoop (l := l) Op.copiedIn? (fun _ => rfl) false 0
    (l.target + l.world + l.world) l.nch
  have hfirst := span_eq h h.nch_pos
  simp only [Nat.zero_mul, Nat.zero_add, Nat.sub_zero] at hloop hfirst
  rw [hm, List.range_succ, List.flatMap_append, List.flatMap_congr hbody, List.flatMap_singleton,
    hlast, List.append_nil, ← List.map_eq_flatMap, ← hm] at hloop
  have hall : (List.range l.nch).map l.span =
      l.span 0 :: (List.range m).map fun c => l.span (c + 1) := by
    rw [hm, List.range_succ_eq_map, List.map_cons, List.map_map]
    rfl
  rw [hall, ← hloop, ← hfirst]
  unfold kernel
  simp [List.filterMap_append, List.filterMap_cons, Op.copiedIn?]

/-- They copy the chunks out one after the other, each once all have reduced it. -/
theorem copiedOut (h : l.Checked) :
    (l.kernel false).filterMap Op.copiedOut? = (List.range l.nch).map l.span := by
  obtain ⟨m, hm⟩ : ∃ m, l.nch = m + 1 := ⟨l.nch - 1, (Nat.succ_pred_eq_of_pos h.nch_pos).symm⟩
  have hbody : ∀ c ∈ List.range m,
      (l.chunkBody false (c + 1)).filterMap Op.copiedOut? = [l.span c] := by
    intro c hc
    have hnext : c + 1 < l.nch := by
      have := List.mem_range.mp hc
      omega
    have hspan := span_eq h (Nat.lt_of_succ_lt hnext)
    rw [border h hnext] at hspan
    unfold chunkBody
    by_cases hin : c + 1 + 1 < l.nch <;> simp [hin, Op.copiedOut?, List.filterMap_cons, hspan]
  have hfirst : (l.chunkBody false 0).filterMap Op.copiedOut? = [] := by
    unfold chunkBody
    by_cases hin : 0 + 1 < l.nch <;> simp [hin, Op.copiedOut?]
  have hloop := filterMap_chunkLoop (l := l) Op.copiedOut? (fun _ => rfl) false 0
    (l.target + l.world + l.world) l.nch
  simp only [Nat.zero_add] at hloop
  have hlast : (⟨(l.nch - 1) * l.chunkVecs, l.nvec - (l.nch - 1) * l.chunkVecs⟩ : Span) =
      l.span m := by
    have hge : l.nvec ≤ l.nch * l.chunkVecs := le_pieces_mul h.chunkVecs_pos
    have hspan := span_eq h (by omega : m < l.nch)
    rw [hm, Nat.succ_mul] at hge
    rw [Nat.min_eq_right hge] at hspan
    rw [hm]
    exact hspan
  rw [hm, List.range_succ_eq_map, List.flatMap_cons, hfirst, List.nil_append, List.flatMap_map,
    List.flatMap_congr hbody, ← List.map_eq_flatMap, ← hm] at hloop
  have hall : (List.range l.nch).map l.span = (List.range m).map l.span ++ [l.span m] := by
    rw [hm, List.range_succ, List.map_append, List.map_singleton]
  rw [hall, ← hloop, ← hlast]
  unfold kernel
  simp [List.filterMap_append, List.filterMap_cons, Op.copiedOut?]

end Launch

/-! ## What the host launches -/

/-- The elements of a launch: where they are read and written, and how many. -/
def Launch.buffers (l : Launch) : Nat × Nat × Nat := (l.inPtr, l.outPtr, l.numel)

/-- The buffers of the elements of `s`. -/
def Call.part (call : Call) (s : Span) : Nat × Nat × Nat :=
  (call.send + s.off * call.item.size, call.recv + s.off * call.item.size, s.len)

namespace Comm

variable {c : Comm}

theorem maxElems_bytes (item : Item) : 16 ∣ c.maxElems item * item.size := by
  unfold maxElems
  rw [Nat.mul_assoc, mul_width item.dvd]
  exact Nat.dvd_mul_left 16 _

/-- A launch of the host passes the checks. -/
theorem launch_ok (call : Call) (bytes target : Nat) {done chunk : Nat} (hpos : 0 < chunk)
    (hchunk : chunk ≤ c.maxElems call.item) (hdone : 16 ∣ done * call.item.size) :
    let l := c.launch call done chunk (nvlsChunkVecs bytes c.world) target
    l.Checked ∧ nvlsAllreduce l = .ok [l] := by
  intro l
  have hchecked : l.Checked := {
    numel_pos := hpos
    two_le := c.two_le
    rank_lt := c.rank_lt
    item_dvd := call.item.dvd
    fits := paddedVecs_fit c.world_pos call.item.dvd hchunk
    le_chunk := le_chunkVecs c.world_pos bytes
    chunk_dvd := dvd_chunkVecs c.world_pos bytes }
  refine ⟨hchecked, ?_⟩
  have hin : l.inPtr % 16 = 0 := by
    have := call.send_aligned
    change (call.send + done * call.item.size) % 16 = 0
    omega
  have hout : l.outPtr % 16 = 0 := by
    have := call.recv_aligned
    change (call.recv + done * call.item.size) % 16 = 0
    omega
  have haligned : (l.inPtr ||| l.outPtr) % 16 = 0 := by
    have h := Nat.or_mod_two_pow (a := l.inPtr) (b := l.outPtr) (n := 4)
    rw [show (2 : Nat) ^ 4 = 16 from rfl, hin, hout] at h
    exact h
  have hworld : ¬ (l.world < 2 ∨ l.world > 8) := by
    have h₁ : 2 ≤ l.world := c.two_le
    have h₂ : l.world ≤ 8 := c.world_le
    omega
  have hbase : ¬ (l.mcBase = 0 ∨ l.ucBase = 0) := not_or.mpr ⟨c.mc_ne, c.uc_ne⟩
  have hslices : ¬ (l.chunkVecs < l.world ∨ l.chunkVecs % l.world ≠ 0) := by
    refine not_or.mpr ⟨Nat.not_lt.mpr hchecked.le_chunk, not_not.mpr ?_⟩
    exact Nat.mod_eq_zero_of_dvd hchecked.chunk_dvd
  unfold nvlsAllreduce
  rw [if_neg hchecked.numel_pos.ne', if_neg hworld, if_neg (Nat.not_le.mpr hchecked.rank_lt),
    if_neg (not_not.mpr haligned), if_neg hbase, if_neg (Nat.not_lt.mpr hchecked.fits),
    if_neg hslices]

end Comm

/-- Every launch is one of the communicator's that passes the checks, and the blocks wait for
one target after the other through all of them. -/
structure Launched (c : Comm) (bars : Nat) (o : Outcome) : Prop where
  returns : o.raised = none
  checked : ∀ l ∈ o.launches, l.Checked ∧ l.world = c.world ∧ l.rank = c.rank ∧
    l.blocks = c.grid ∧ ∃ bars, l.target = (bars + 1) * l.world
  le_bars : bars ≤ o.bars
  waits : ∀ isReducer, o.launches.flatMap (Launch.waits · isReducer) =
    targets c.world bars (o.bars - bars)

theorem Launched.nil (c : Comm) (bars : Nat) : Launched c bars ⟨[], bars, none⟩ where
  returns := rfl
  checked := fun _ h => absurd h List.not_mem_nil
  le_bars := Nat.le_refl bars
  waits := fun _ => by rw [Nat.sub_self]; rfl

/-- One lot of launches after another. -/
theorem Launched.append {c : Comm} {bars : Nat} {o rest : Outcome} (ho : Launched c bars o)
    (hrest : Launched c o.bars rest) :
    Launched c bars { rest with launches := o.launches ++ rest.launches } where
  returns := hrest.returns
  checked := by
    intro l hl
    obtain hl | hl := List.mem_append.mp hl
    · exact ho.checked l hl
    · exact hrest.checked l hl
  le_bars := Nat.le_trans ho.le_bars hrest.le_bars
  waits := by
    intro isReducer
    have h₁ := ho.le_bars
    have h₂ := hrest.le_bars
    have hmid : bars + (o.bars - bars) = o.bars := by omega
    have hsum : o.bars - bars + (rest.bars - o.bars) = rest.bars - bars := by omega
    have happ := targets_append c.world bars (o.bars - bars) (rest.bars - o.bars)
    rw [hmid, hsum] at happ
    dsimp only
    rw [List.flatMap_append, ho.waits isReducer, hrest.waits isReducer, happ]

/-- A launch of the host on its own. -/
theorem Launched.single (c : Comm) (call : Call) (bytes bars : Nat) {done chunk : Nat} (hpos : 0 < chunk)
    (hchunk : chunk ≤ c.maxElems call.item) (hdone : 16 ∣ done * call.item.size) :
    let cv := nvlsChunkVecs bytes c.world
    Launched c bars ⟨[c.launch call done chunk cv ((bars + 1) * c.world)],
      bars + nvlsBarriersPerCall chunk c.world call.item.size cv, none⟩ := by
  intro cv
  obtain ⟨hchecked, -⟩ := c.launch_ok call bytes ((bars + 1) * c.world) hpos hchunk hdone
  refine ⟨rfl, ?_, Nat.le_add_right _ _, ?_⟩
  · intro l hl
    obtain rfl := List.mem_singleton.mp hl
    exact ⟨hchecked, rfl, rfl, rfl, bars, rfl⟩
  · intro isReducer
    rw [List.flatMap_singleton, Launch.waits_eq hchecked isReducer rfl, Nat.add_sub_cancel_left]
    rfl

theorem allreduceLoop_step (c : Comm) (call : Call) (bars : Nat) {done : Nat} (hlt : done < call.count)
    (hdone : 16 ∣ done * call.item.size) :
    let chunk := min (c.maxElems call.item) (call.count - done)
    let cv := nvlsChunkVecs (nvlsChunkBytes (chunk * call.item.size)) c.world
    let rest := allreduceLoop c call (done + chunk)
      (bars + nvlsBarriersPerCall chunk c.world call.item.size cv)
    allreduceLoop c call done bars =
      { rest with
        launches := [c.launch call done chunk cv ((bars + 1) * c.world)] ++ rest.launches } := by
  intro chunk cv rest
  have hpos : 0 < chunk := Nat.lt_min.mpr ⟨c.maxElems_pos call.item, Nat.sub_pos_of_lt hlt⟩
  obtain ⟨-, hok⟩ := c.launch_ok call (nvlsChunkBytes (chunk * call.item.size))
    ((bars + 1) * c.world) hpos (Nat.min_le_left _ _) hdone
  rw [allreduceLoop, dif_pos hlt]
  dsimp only
  rw [hok]

/-- The barriers of the launch for piece `k` of the elements. -/
def Comm.pieceBarriers (c : Comm) (item : Item) (count k : Nat) : Nat :=
  let len := (chunk count (c.maxElems item) k).len
  nvlsBarriersPerCall len c.world item.size
    (nvlsChunkVecs (nvlsChunkBytes (len * item.size)) c.world)

/-- From piece `k` of the elements on, the loop launches the pieces one after the other. -/
theorem allreduceLoop_spec (c : Comm) (call : Call) (left : Nat) :
    ∀ k bars, pieces call.count (c.maxElems call.item) = k + left →
      let o := allreduceLoop c call (min (k * c.maxElems call.item) call.count) bars
      Launched c bars o ∧
        o.bars = bars + ((List.range' k left).map (c.pieceBarriers call.item call.count)).sum ∧
        o.launches.map (fun l => (l.item, l.buffers)) = (List.range' k left).map fun k =>
          (call.item.size, call.part (chunk call.count (c.maxElems call.item) k)) := by
  have hmax := c.maxElems_pos call.item
  induction left with
  | zero =>
      intro k bars hk o
      have hend : call.count ≤ k * c.maxElems call.item := by
        have h := le_pieces_mul (n := call.count) hmax
        rwa [hk, Nat.add_zero] at h
      have ho : o = ⟨[], bars, none⟩ := by
        unfold o
        rw [Nat.min_eq_right hend, allreduceLoop, dif_neg (Nat.lt_irrefl _)]
      rw [ho]
      exact ⟨Launched.nil c bars, rfl, rfl⟩
  | succ left ih =>
      intro k bars hk o
      have hlt : k * c.maxElems call.item < call.count :=
        (lt_pieces_iff hmax).mp (by omega)
      have hdone : 16 ∣ k * c.maxElems call.item * call.item.size := by
        rw [Nat.mul_assoc]
        exact Dvd.dvd.mul_left (c.maxElems_bytes call.item) k
      have hnext : k * c.maxElems call.item +
          min (c.maxElems call.item) (call.count - k * c.maxElems call.item) =
          min ((k + 1) * c.maxElems call.item) call.count := by
        rw [Nat.succ_mul]
        omega
      have hstep := allreduceLoop_step c call bars hlt hdone
      have hpos : 0 < min (c.maxElems call.item) (call.count - k * c.maxElems call.item) :=
        Nat.lt_min.mpr ⟨hmax, Nat.sub_pos_of_lt hlt⟩
      dsimp only at hstep
      rw [hnext] at hstep
      have hlen : min (c.maxElems call.item) (call.count - k * c.maxElems call.item) =
          (chunk call.count (c.maxElems call.item) k).len := rfl
      rw [hlen] at hstep hpos
      obtain ⟨hrest, hbars, hparts⟩ := ih (k + 1)
        (bars + c.pieceBarriers call.item call.count k) (by omega)
      have hfirst := Launched.single c call (nvlsChunkBytes
        ((chunk call.count (c.maxElems call.item) k).len * call.item.size)) bars hpos (chunk_len_le _ _ _) hdone
      have ho : o = _ := (congrArg (allreduceLoop c call · bars) (Nat.min_eq_left hlt.le)).trans hstep
      rw [ho]
      refine ⟨hfirst.append hrest, ?_, ?_⟩
      · rw [List.range'_succ, List.map_cons, List.sum_cons, ← Nat.add_assoc]
        exact hbars
      · rw [List.map_append, List.range'_succ, List.map_cons]
        exact congrArg₂ List.cons rfl hparts

/-- The barriers of a call. -/
def Comm.callBarriers (c : Comm) (item : Item) (count : Nat) : Nat :=
  ((List.range (pieces count (c.maxElems item))).map (c.pieceBarriers item count)).sum

/-- A call launches the pieces of its elements one after the other. -/
theorem doAllreduceNvls_spec (c : Comm) (call : Call) (bars : Nat) :
    let o := doAllreduceNvls c call bars
    Launched c bars o ∧ o.bars = bars + c.callBarriers call.item call.count ∧
      o.launches.map (fun l => (l.item, l.buffers)) =
        (List.range (pieces call.count (c.maxElems call.item))).map fun k =>
          (call.item.size, call.part (chunk call.count (c.maxElems call.item) k)) := by
  have h := allreduceLoop_spec c call (pieces call.count (c.maxElems call.item)) 0 bars
    (Nat.zero_add _).symm
  rw [Nat.zero_mul, Nat.zero_min] at h
  unfold Comm.callBarriers
  rw [List.range_eq_range']
  exact h

/-- No call of a sequence raises, and the blocks wait for one target after the other, through
all the launches. -/
theorem enqueueCalls_spec (c : Comm) (calls : List Call) (bars : Nat) :
    let o := enqueueCalls c calls bars
    Launched c bars o ∧
      o.bars = bars + (calls.map fun call => c.callBarriers call.item call.count).sum := by
  induction calls generalizing bars with
  | nil => exact ⟨Launched.nil c bars, rfl⟩
  | cons call calls ih =>
      obtain ⟨hcall, hbars, -⟩ := doAllreduceNvls_spec c call bars
      obtain ⟨hrest, hsum⟩ := ih (doAllreduceNvls c call bars).bars
      unfold enqueueCalls
      dsimp only
      rw [hcall.returns]
      refine ⟨hcall.append hrest, ?_⟩
      rw [hsum, hbars, List.map_cons, List.sum_cons, Nat.add_assoc]

end TorchMojoBackend.Ccl.Nvls
