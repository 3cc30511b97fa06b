/-
  `Ccl.Net.Fabric`: the libfabric transport of one node.

  Source: tmb/ccl/transport/net_ofi.mojo (`_pack_ctx` to `_ctx_seq`, `_bl_push`, `_bl_pop`,
  `fab_post_recvs` to `fab_poll`), with what the engine of tmb/ccl/transport/net.mojo posts
  (`_send_credits`, `_can_post`, `_post_data`).

  The provider is part of the system: it holds the operations that it accepted, the receive
  buffers that are posted and the completions that were not read.  It completes operations
  in any order, and its return codes and the outcome of a read of the queue are events.
-/
import TorchMojoBackend.Ccl.Net.Engine
import TorchMojoBackend.Foundation.RingQueue
import TorchMojoBackend.Foundation.Transition

set_option autoImplicit false

namespace TorchMojoBackend.Ccl.Net.Fabric

open TorchMojoBackend.Foundation

/-! ## Packing -/

def CTX_KIND_SHIFT : Nat := 56

def CTX_PEER_SHIFT : Nat := 40

def CTX_SEQ_MASK : Nat := 1 <<< 40 - 1

def CQ_DATA_NODE_SHIFT : Nat := 32

/-- The number of a kind. -/
def code : CompletionKind → Nat
  | .recv => 0
  | .send => 1
  | .flush => 2
  | .other => 3

/-- `_pack_ctx` -/
def packCtx (kind peer seq : Nat) : Nat :=
  (kind <<< CTX_KIND_SHIFT) ||| (peer <<< CTX_PEER_SHIFT) ||| (seq &&& CTX_SEQ_MASK)

def ctxKind (c : Nat) : Nat := (c >>> CTX_KIND_SHIFT) &&& 0xFF

def ctxPeer (c : Nat) : Nat := (c >>> CTX_PEER_SHIFT) &&& 0xFFFF

def ctxSeq (c : Nat) : Nat := c &&& CTX_SEQ_MASK

/-- The remote completion data of a notification. -/
def packData (node imm : Nat) : Nat := (node <<< CQ_DATA_NODE_SHIFT) ||| imm

/-! ## The ring -/

def BACKLOG_CAP : Nat := 1024

def EAGAIN_SPINS : Nat := 1000000

/-- `NetCompletion`; the peer is -1 if there is none. -/
structure Completion where
  kind : CompletionKind
  peer : Int
  imm : Nat
  wrId : Nat
  status : Int
  deriving DecidableEq

/-- The part of `FabricNet` that completions go through. -/
structure FabricNet where
  peerOfNode : List Int
  lastError : Int
  backlog : RingQueue Completion

/-- `_bl_push` -/
def FabricNet.push (f : FabricNet) (c : Completion) : FabricNet :=
  if f.backlog.count ≥ BACKLOG_CAP then { f with lastError := -1 }
  else { f with backlog := f.backlog.push BACKLOG_CAP c }

/-- `_bl_pop` -/
def FabricNet.pop (f : FabricNet) : Option (Completion × FabricNet) :=
  (f.backlog.pop BACKLOG_CAP).map fun p => (p.1, { f with backlog := p.2 })

/-! ## Reading the queue -/

def FI_MSG : Nat := 1 <<< 1
def FI_RMA : Nat := 1 <<< 2
def FI_READ : Nat := 1 <<< 8
def FI_WRITE : Nat := 1 <<< 9
def FI_RECV : Nat := 1 <<< 10
def FI_SEND : Nat := 1 <<< 11
def FI_REMOTE_CQ_DATA : Nat := 1 <<< 17

/-- `struct fi_cq_data_entry` -/
structure CqEntry where
  flags : Nat
  ctx : Nat
  data : Nat
  deriving DecidableEq

def CqEntry.isRecv (e : CqEntry) : Bool := e.flags &&& FI_RECV ≠ 0

/-- The outcome of `fi_cq_read`: nothing, an entry of the error queue, another error, or some
entries, each with the return code that the repost of its buffer would get. -/
inductive CqRead where
  | again
  | avail (err provErrno : Int)
  | failed (n : Int)
  | entries (es : List (CqEntry × Int))

/-- `peer_of_node` -/
def peerOf (peerOfNode : List Int) (node : Nat) : Int := peerOfNode.getD node (-1)

/-- One entry of `_fab_drain`. -/
def FabricNet.drainEntry (f : FabricNet) (e : CqEntry) (rc : Int) : FabricNet :=
  if e.flags &&& FI_RECV ≠ 0 then
    let node := e.data >>> CQ_DATA_NODE_SHIFT
    let peer := peerOf f.peerOfNode node
    let f := f.push ⟨.recv, peer, e.data &&& 0xFFFFFFFF, 0, 0⟩
    if rc ≠ 0 then f.push ⟨.other, -1, 0, 0, 3000 - rc⟩ else f
  else if e.flags &&& FI_READ ≠ 0 then f.push ⟨.flush, -1, 0, 0, 0⟩
  else if e.flags &&& FI_WRITE ≠ 0 then f.push ⟨.send, ctxPeer e.ctx, 0, ctxSeq e.ctx, 0⟩
  else f.push ⟨.other, -1, 0, 0, 0⟩

/-- `_fab_drain` -/
def FabricNet.drain (f : FabricNet) : CqRead → FabricNet
  | .again => f
  | .avail err provErrno => f.push ⟨.other, -1, 0, 0, 1000 + err * 1000 + provErrno⟩
  | .failed n => f.push ⟨.other, -1, 0, 0, 2000 - n⟩
  | .entries es => es.foldl (fun f e => f.drainEntry e.1 e.2) f

/-- The loop of `fab_poll`. -/
def FabricNet.popUpTo : Nat → FabricNet → List Completion × FabricNet
  | 0, f => ([], f)
  | k + 1, f =>
      match f.pop with
      | none => ([], f)
      | some (c, f) => (c :: (popUpTo k f).1, (popUpTo k f).2)

/-- What a latched error is reported as. -/
def latched : Completion := ⟨.other, -1, 0, 0, 4000⟩

/-- `fab_poll` after its read: what it pops, whether it reports a latched error, and the
transport then. -/
def FabricNet.poll (f : FabricNet) (maxComps : Nat) : List Completion × Bool × FabricNet :=
  let (popped, f) := f.popUpTo maxComps
  if f.lastError ≠ 0 ∧ popped.length < maxComps then (popped, true, { f with lastError := 0 })
  else (popped, false, f)

/-! ## Operations -/

/-- An operation of `fab_post_write`, `fab_post_imm` or `fab_post_flush`. -/
inductive Op where
  | write (peer seq : Nat)
  | notify (peer imm seq : Nat)
  | flush (seq : Nat)
  deriving DecidableEq

/-- The context that an operation is posted with. -/
def Op.ctx : Op → Nat
  | .write peer seq => packCtx (code .send) peer seq
  | .notify peer _ seq => packCtx (code .other) peer seq
  | .flush seq => packCtx (code .flush) 0 seq

/-- The flags that the provider completes an operation with. -/
def Op.flags : Op → Nat
  | .write _ _ => FI_RMA ||| FI_WRITE
  | .notify _ _ _ => FI_MSG ||| FI_SEND
  | .flush _ => FI_RMA ||| FI_READ

def Op.entry (op : Op) : CqEntry := ⟨op.flags, op.ctx, 0⟩

/-- The completion of the receive buffer `i` by a message. -/
def recvEntry (i node imm : Nat) : CqEntry :=
  ⟨FI_MSG ||| FI_RECV ||| FI_REMOTE_CQ_DATA, packCtx (code .recv) 0 i, packData node imm⟩

/-- What a completion comes from: an operation, or a message in a receive buffer. -/
inductive Landing where
  | op (posted : Op)
  | message (buffer node imm : Nat)

def Landing.entry : Landing → CqEntry
  | .op posted => posted.entry
  | .message buffer node imm => recvEntry buffer node imm

/-! ## The system -/

structure Config where
  nodes : Nat
  myNode : Nat
  nslots : Nat
  recvDepth : Nat

/-- `peer_of_node` after `fab_add_peer` of every peer. -/
def Config.peerOfNode (c : Config) : List Int :=
  (List.range c.nodes).map fun j : Nat =>
    if j = c.myNode then -1 else if j < c.myNode then (j : Int) else (j : Int) - 1

structure Sys where
  net : FabricNet
  /-- Accepted and not completed. -/
  pending : List Op
  /-- The receive buffers that are posted. -/
  posted : Finset Nat
  /-- Completions that were not read. -/
  cq : List CqEntry
  /-- What the engine still has to post, and how often the first may be tried. -/
  calls : List Op
  spins : Nat
  postedSeq : Nat
  creditSent : Nat
  creditRecv : Nat → Nat
  /-- History: operations accepted, completions in the order of the queue, reads of the queue,
  completions popped, latched errors reported. -/
  accepted : List Op
  landed : List Landing
  reads : List CqRead
  popped : List Completion
  latches : Nat

/-- After `fab_post_recvs`. -/
def Sys.boot (c : Config) : Sys where
  net := ⟨c.peerOfNode, 0, ⟨fun _ => latched, 0, 0⟩⟩
  pending := []
  posted := Finset.range c.recvDepth
  cq := []
  calls := []
  spins := EAGAIN_SPINS
  postedSeq := 0
  creditSent := 0
  creditRecv _ := 0
  accepted := []
  landed := []
  reads := []
  popped := []
  latches := 0

/-- What a read of the queue may give: up to 16 entries from its front, reposts that succeed or
fail with an error. -/
def Sys.Readable (s : Sys) : CqRead → Prop
  | .entries es => 0 < es.length ∧ es.length ≤ 16 ∧ es.map Prod.fst <+: s.cq ∧ ∀ e ∈ es, e.2 ≤ 0
  | _ => True

instance (s : Sys) (r : CqRead) : Decidable (s.Readable r) := by
  cases r <;> unfold Sys.Readable <;> infer_instance

/-- The entries of a read. -/
def CqRead.batch : CqRead → List (CqEntry × Int)
  | .entries es => es
  | _ => []

/-- The buffers that are posted after a read. -/
def repost (posted : Finset Nat) (es : List (CqEntry × Int)) : Finset Nat :=
  es.foldl (fun posted e => if e.1.isRecv ∧ e.2 = 0 then insert (ctxSeq e.1.ctx) posted else posted)
    posted

/-- A read of the queue. -/
def Sys.read (s : Sys) (r : CqRead) : Sys :=
  { s with
    net := s.net.drain r
    cq := s.cq.drop r.batch.length
    posted := repost s.posted r.batch
    reads := s.reads ++ [r] }

/-- `_can_post` -/
def canPost (c : Config) (creditRecv : Nat → Nat) (seq : Nat) : Bool :=
  (List.range (c.nodes - 1)).all fun i => decide (seq - c.nslots ≤ creditRecv i)

/-- The credit part of `_consume_wc`. -/
def consumeCredit (creditRecv : Nat → Nat) (x : Completion) : Nat → Nat :=
  if x.status = 0 ∧ x.kind = .recv ∧ immIsCredit x.imm = true ∧ 0 ≤ x.peer ∧
      creditRecv x.peer.toNat < immSeq x.imm then
    Function.update creditRecv x.peer.toNat (immSeq x.imm)
  else creditRecv

inductive Event where
  /-- The provider completes the operation at a place of its list. -/
  | complete (place : Nat)
  /-- A message lands in a receive buffer. -/
  | arrive (buffer node imm : Nat)
  /-- The engine starts `_post_data` of the next exchange, `_send_credits` or a flush. -/
  | postData
  | sendCredits (upto : Nat)
  | postFlush (seq : Nat)
  /-- The operation that is being posted is accepted, is tried again after a read of the queue,
  or fails. -/
  | accept
  | retry (r : CqRead)
  | refuse
  /-- `fab_poll` -/
  | poll (r : CqRead)

/-- The next state; the engine is one thread, which starts nothing before its posts are done. -/
def next (c : Config) (s : Sys) : Event → Option Sys
  | .complete place =>
      match s.pending[place]? with
      | some op => some { s with
          pending := s.pending.eraseIdx place
          cq := s.cq ++ [op.entry]
          landed := s.landed ++ [.op op] }
      | none => none
  | .arrive buffer node imm =>
      if buffer ∈ s.posted ∧ node < c.nodes ∧ imm < 2 ^ 32 then
        some { s with
          posted := s.posted.erase buffer
          cq := s.cq ++ [recvEntry buffer node imm]
          landed := s.landed ++ [.message buffer node imm] }
      else none
  | .postData =>
      let seq := s.postedSeq + 1
      if s.calls = [] ∧ canPost c s.creditRecv seq then
        some { s with
          calls := (List.range (c.nodes - 1)).map (fun i => Op.write i seq) ++
            (List.range (c.nodes - 1)).map fun i => Op.notify i (immSeq seq) seq
          spins := EAGAIN_SPINS
          postedSeq := seq }
      else none
  | .sendCredits upto =>
      if s.calls = [] ∧ s.creditSent < upto then
        some { s with
          calls := (List.range (c.nodes - 1)).map fun i => Op.notify i (creditImm upto) upto
          spins := EAGAIN_SPINS
          creditSent := upto }
      else none
  | .postFlush seq =>
      if s.calls = [] then some { s with calls := [.flush seq], spins := EAGAIN_SPINS } else none
  | .accept =>
      match s.calls with
      | op :: calls => some { s with
          pending := s.pending ++ [op]
          accepted := s.accepted ++ [op]
          calls := calls
          spins := EAGAIN_SPINS }
      | [] => none
  | .retry r =>
      if s.calls ≠ [] ∧ s.Readable r then
        let s := s.read r
        some (if s.spins ≤ 1 then { s with calls := [] } else { s with spins := s.spins - 1 })
      else none
  | .refuse => if s.calls ≠ [] then some { s with calls := [] } else none
  | .poll r =>
      if s.calls = [] ∧ s.Readable r then
        let s := s.read r
        let (popped, latch, net) := s.net.poll COMP_BATCH
        some { s with
          net := net
          popped := s.popped ++ popped
          creditRecv := popped.foldl consumeCredit s.creditRecv
          latches := s.latches + if latch then 1 else 0 }
      else none

def system (c : Config) : System Sys Event where
  Init s := s = Sys.boot c
  next := next c

end TorchMojoBackend.Ccl.Net.Fabric
