/-
  `Ccl.Plans`: how the multi-node collectives cut their buffers.

  Source: tmb/ccl/enqueue.mojo (`_pipeline_plan`, `_exchange_release`,
  `_do_allreduce_fused`, `_do_reduce_scatter_nodes`, `_do_reduce_scatter_fused`,
  `_do_reduce_scatter_stream`, `_broadcast_multinode`, `allgather_mapped_max_bytes`,
  `allgather_mapped_pipeline_plan`), tmb/ccl/device/symmetric/primitives.mojo
  (`shard_range`), all_gather.mojo (`allgather_max_bytes`,
  `allgather_nic_stage_off`), reduce_scatter_gin*.mojo (the plans),
  tmb/ccl/device/broadcast.mojo (`_bcast_kernel`).
-/
import TorchMojoBackend.Ccl.Geometry
import TorchMojoBackend.Ccl.Net.Work
import Mathlib.Data.List.Basic

set_option autoImplicit false

namespace TorchMojoBackend.Ccl

open TorchMojoBackend.Foundation
open TorchMojoBackend.Ccl.Net (WORK_SLOTS)

/-! ## Shards -/

/-- `_shard_per`: elements per shard, a multiple of the vector width `W`. -/
def shardPer (numel world W : Nat) : Nat :=
  if numel = 0 ∨ world = 0 then 0 else alignUp (pieces numel world) W

/-- `_shard_off`. -/
def shardOff (numel per s : Nat) : Nat :=
  let o := s * per
  if o < numel then o else numel

/-- `_shard_cnt`. -/
def shardCnt (numel per s : Nat) : Nat :=
  let rest := numel - shardOff numel per s
  if per < rest then per else rest

/-- `shard_range`: offset and count, in elements, of the shard of `rank`. -/
def shardRange (numel world rank elemBytes : Nat) : Nat × Nat :=
  if elemBytes = 0 ∨ elemBytes > 16 ∨ 16 % elemBytes ≠ 0 then (0, 0)
  else
    let per := shardPer numel world (16 / elemBytes)
    if per = 0 ∨ rank ≥ world then (0, 0)
    else (shardOff numel per rank, shardCnt numel per rank)

/-- The elements of the shard of `rank`. -/
def shard (numel world elemBytes rank : Nat) : Span :=
  ⟨(shardRange numel world rank elemBytes).1, (shardRange numel world rank elemBytes).2⟩

/-! ## Plans -/

/-- A chunk size in elements (bytes for broadcast and all-gather), the number of
chunks and how many are in flight. -/
structure Plan where
  chunk : Nat
  nchunks : Nat
  depth : Nat
  deriving DecidableEq, Repr

/-- The largest contribution of `allgather` with a slot for the NIC
(`allgather_max_bytes` with `nic_stage`). -/
def allgatherMaxBytes (amd : Bool) (capBytes world : Nat) : Nat :=
  if amd then
    let slots := world
    if slots ≤ 1 then capBytes else min capBytes (2 * capBytes / slots / 16 * 16)
  else capBytes

/-- `allgather_nic_stage_off`. -/
def allgatherNicStageOff (amd : Bool) (world nbytes : Nat) : Nat :=
  if amd then (world - 1) * alignUp nbytes 16 else 0

/-- `reduce_scatter_nodes_max_count`. -/
def reduceScatterNodesMaxCount (capBytes world elemBytes nodeCount : Nat) : Nat :=
  let slots := nodeCount * world
  2 * capBytes / slots / 16 * 16 / elemBytes

def RS_FUSED_TARGET_CHUNKS : Nat := 2
def RS_STREAM_TARGET_CHUNKS : Nat := 4

/-- `reduce_scatter_fused_plan`. -/
def reduceScatterFusedPlan (count chunkCap narenas splitUnit : Nat) : Plan :=
  let chunk := min count chunkCap
  let chunk :=
    if count * 4 ≥ splitUnit then
      let target := min narenas RS_FUSED_TARGET_CHUNKS
      min chunk (alignUp (pieces count target * 4) 16 / 4)
    else chunk
  ⟨chunk, pieces count chunk, min narenas (pieces count chunk)⟩

/-- `reduce_scatter_stream_wanted`. -/
def reduceScatterStreamWanted (count splitUnit : Nat) : Bool := count * 4 ≥ splitUnit

/-- `reduce_scatter_stream_plan`. -/
def reduceScatterStreamPlan (count chunkCap narenas splitUnit : Nat) : Plan :=
  let chunk := min count chunkCap
  let chunk :=
    if count * 4 ≥ splitUnit then
      min chunk (alignUp (pieces count RS_STREAM_TARGET_CHUNKS * 4) 16 / 4)
    else chunk
  ⟨chunk, pieces count chunk, min narenas (pieces count chunk)⟩

/-- Bytes per peer slot of an exchange of `nbytes`. -/
def exchangeSlot (nbytes : Nat) : Nat := alignUp (max nbytes EMPTY_SHARD_BYTES) 16

/-- `_vcount`: 16-byte vectors in the shard of rank `s`. -/
def vcount (s q rem : Nat) : Nat := q + if s < rem then 1 else 0

/-- `sslot` of `_bcast_kernel`. -/
def broadcastSlot (nbytes world : Nat) : Nat :=
  let nv := nbytes / 16
  alignUp (vcount 0 (nv / world) (nv % world) * 16 + (nbytes - nv * 16)) 16

/-- The kernels a multi-node reduce-scatter can run. -/
inductive RsSchedule where
  | stream | fused | nodes
  deriving DecidableEq, Repr

namespace Comm

variable (c : Comm)

/-- `_pipeline_plan`, for both schedules of the allreduce. -/
def pipelinePlan (count item : Nat) : Plan :=
  let chunkBytes := pipelineChunkBytes c.maxChunk c.localWorld (count * item) PIPE_SPLIT_UNIT
  let chunkElems := max 1 (chunkBytes / item)
  ⟨chunkElems, pieces count chunkElems, min c.narenas (pieces count chunkElems)⟩

/-- `slot_cap` of `_do_reduce_scatter_nodes`. -/
def reduceScatterSlotCap (item : Nat) : Nat :=
  min (reduceScatterNodesMaxCount c.arenaCap c.localWorld item c.nnodes * item)
    (c.inboxGroup / c.npeers) / 16 * 16

/-- The schedule `_do_reduce_scatter_nodes` picks; `oneKernel` says that the
element type, the vendor and the communicator allow the one-launch kernels. -/
def reduceScatterPlan (count item : Nat) (oneKernel : Bool) : RsSchedule × Plan :=
  let chunkElems := min count (c.reduceScatterSlotCap item / item)
  let stream := reduceScatterStreamPlan count chunkElems c.narenas PIPE_SPLIT_UNIT
  let fused := reduceScatterFusedPlan count chunkElems c.narenas PIPE_SPLIT_UNIT
  if oneKernel ∧ reduceScatterStreamWanted count PIPE_SPLIT_UNIT ∧
      stream.nchunks ≤ WORK_SLOTS then
    (.stream, stream)
  else if oneKernel ∧ fused.nchunks ≤ WORK_SLOTS then
    (.fused, fused)
  else
    (.nodes, ⟨chunkElems, pieces count chunkElems, min c.narenas (pieces count chunkElems)⟩)

/-- `max_bytes` of `_broadcast_multinode`, and its chunks, one at a time. -/
def broadcastPlan (totalBytes : Nat) : Plan :=
  let maxBytes := max 4096
    ((min (min (netStageBytes c.capBytes) c.arenaCap) (c.inboxGroup / c.npeers) - 2 * 4096)
      / 4096 * 4096)
  ⟨maxBytes, pieces totalBytes maxBytes, 1⟩

/-- `allgather_mapped_max_bytes`. -/
def allgatherMappedMaxBytes : Nat :=
  min (allgatherMaxBytes c.amd c.arenaCap c.localWorld) (c.inboxGroup / c.npeers) / 16 * 16

/-- `allgather_mapped_pipeline_plan`, as `_allgather_multinode` calls it. -/
def allgatherPlan (count : Nat) : Plan :=
  let chunk := c.allgatherMappedMaxBytes
  let chunk :=
    if count ≥ PIPE_SPLIT_UNIT * c.localWorld then min chunk (alignUp ((count + 1) / 2) 16)
    else chunk
  ⟨chunk, pieces count chunk, min 2 (min c.narenas (min (c.nslots - 1) (pieces count chunk)))⟩

/-! ## The checks of a release -/

/-- The slots of the peers must fit one landing group. -/
def inboxCheck (slotBytes : Nat) (message : String) : Except String Nat :=
  if c.npeers * slotBytes > c.inboxGroup then .error message else .ok slotBytes

/-- `_exchange_release`: the slot size of the exchange of one chunk, and the check
`_do_allreduce_fused` makes for its largest chunk. -/
def exchangeRelease (numel item : Nat) : Except String Nat :=
  c.inboxCheck (exchangeSlot ((shardRange numel c.localWorld c.localRank item).2 * item))
    "mojoccl: the inter-node inbox overflows the network area; this is a chunking bug"

/-- The check of `_broadcast_multinode`. -/
def broadcastRelease (chunk : Nat) : Except String Nat :=
  c.inboxCheck (alignUp chunk 16) "mojoccl: broadcast inbox does not fit; chunking bug"

/-- The check of `_do_reduce_scatter_nodes`, and of the one-launch kernels. -/
def reduceScatterCheck (count item : Nat) : RsSchedule × Plan → Except String Nat
  | (.nodes, _) =>
      if c.reduceScatterSlotCap item < 16 then
        .error "mojoccl: reduce-scatter staging cannot hold one vector"
      else .ok (c.reduceScatterSlotCap item)
  | (.fused, p) =>
      c.inboxCheck (alignUp (min p.chunk count * 4) 16)
        "mojoccl: fused reduce-scatter inbox overflow"
  | (.stream, p) =>
      c.inboxCheck (alignUp (min p.chunk count * 4) 16)
        "mojoccl: streaming reduce-scatter inbox overflow"

/-! ## What a chunk occupies -/

/-- The two staging halves of an arena, where the push slots and shards lie. -/
def arenaData (a : Nat) : Span := ⟨a * c.arenaStride + signalBytes, 2 * c.arenaCap⟩

/-- Allreduce: push slots at the base of `stage_in`, this rank's shard in
`stage_out`. -/
def allreduceSlices (numel item : Nat) : List Span :=
  let per := shardPer numel c.localWorld (16 / item)
  let sr := shardRange numel c.localWorld c.localRank item
  (List.range (c.localWorld - 1)).map (slotAt 0 (per * item)) ++
    [⟨c.arenaCap + sr.1 * item, sr.2 * item⟩]

/-- Reduce-scatter: push slots for every node, then the partial of every node. -/
def reduceScatterSlices (slot : Nat) : List Span :=
  (List.range ((c.localWorld - 1) * c.nnodes)).map (slotAt 0 slot) ++
    (List.range c.nnodes).map (slotAt ((c.localWorld - 1) * c.nnodes * slot) slot)

/-- Broadcast: the scatter area and, where peers push, a gather slot per peer. -/
def broadcastSlices (nbytes : Nat) : List Span :=
  let sslot := broadcastSlot nbytes c.localWorld
  ⟨0, sslot⟩ ::
    if c.amd then (List.range (c.localWorld - 1)).map (slotAt sslot sslot) else []

/-- All-gather: the staged contribution, which is the NIC's source; where peers
push, their slots before it. -/
def allgatherSlices (nbytes : Nat) : List Span :=
  let slot := alignUp nbytes 16
  (if c.amd then (List.range (c.localWorld - 1)).map (slotAt 0 slot) else []) ++
    [⟨allgatherNicStageOff c.amd c.localWorld nbytes, nbytes⟩]

end Comm

end TorchMojoBackend.Ccl
