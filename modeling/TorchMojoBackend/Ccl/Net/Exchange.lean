/-
  `Ccl.Net.Exchange`: all nodes' engines and the messages in flight.

  Source: tmb/ccl/transport/net.mojo (the protocol of its header, `ib_note_consumed`,
  `ib_enqueue_request`), tmb/ccl/proxy.mojo (`_proxy_main`).

  A post that is on the wire lands at any time and in any order; the completion
  of a payload is reported at any time after it landed.  With `ordered` the
  transport reports the completions of one peer's payloads in the order they
  were posted, as one queue pair does.
-/
import TorchMojoBackend.Foundation.Transition
import TorchMojoBackend.Ccl.Net.Engine

set_option autoImplicit false

namespace TorchMojoBackend.Ccl.Net

open TorchMojoBackend.Foundation

variable {n : Nat}

/-- What the nodes are set up with. -/
structure NetConfig (n : Nat) where
  nslots : Nat
  /-- Completions of the payloads for one peer come back in posting order. -/
  ordered : Bool
  doFlush : Fin n → Bool
  creditOff : Fin n → Int
  remoteBase : Fin n → Fin n → Int

/-- The configuration of one node. -/
def NetConfig.at (c : NetConfig n) (i : Fin n) : IbConfig n where
  myNode := i
  nslots := c.nslots
  doFlush := c.doFlush i
  creditOff := c.creditOff i
  remoteBase := c.remoteBase i

abbrev Nodes (n : Nat) := Fin n → Node n

inductive NetEvent (n : Nat) where
  /-- The host fills the next exchange: `_fill_work`. -/
  | fill (i : Fin n) (d : Descriptor)
  /-- The proxy sees that the stream released the exchanges up to `seq`. -/
  | request (i : Fin n) (seq : Nat)
  /-- The consumer of the next exchange has run. -/
  | consume (i : Fin n)
  /-- The proxy reads `MB_CONSUMED`. -/
  | publish (i : Fin n) (seq : Nat)
  /-- A post lands at its peer. -/
  | land (i : Fin n) (p : Post n)
  /-- The completion of a payload is reported. -/
  | ack (i j : Fin n) (seq : Nat)
  /-- A flush read comes back. -/
  | flushed (i : Fin n)
  /-- `ib_drive`. -/
  | drive (i : Fin n) (polled : Nat) (late : Bool)
  deriving DecidableEq, Repr

/-- What an exchange of a collective looks like: every node sends a payload to every
other and waits for one from each. -/
def AllToAll (n : Nat) (d : Descriptor) : Prop :=
  d.doSend = true ∧ 0 < d.sendBytes ∧ d.nrecv = n - 1

instance (d : Descriptor) : Decidable (AllToAll n d) :=
  inferInstanceAs (Decidable (_ ∧ _ ∧ _))

def recvCompletion (i : Fin n) (imm : Nat) : NetCompletion n :=
  { kind := .recv, peer := some i, imm := imm, wrId := 0, status := 0 }

def sendCompletion (j : Fin n) (seq : Nat) : NetCompletion n :=
  { kind := .send, peer := some j, imm := 0, wrId := seq, status := 0 }

def flushCompletion : NetCompletion n :=
  { kind := .flush, peer := none, imm := 0, wrId := 0, status := 0 }

/-- Put a completion into the queue of a node. -/
def report (s : Nodes n) (j : Fin n) (x : NetCompletion n) : Nodes n :=
  Function.update s j { s j with cq := (s j).cq ++ [x] }

/-- `_fill_work` for the exchange after the last filled. -/
def Node.fill (a : Node n) (d : Descriptor) : Node n :=
  { a.modify (a.filled + 1) (fun _ => fillWork { d with seq := a.filled + 1 }) with
    filled := a.filled + 1
    credit := Function.update a.credit (a.filled + 1) d.creditUpto }

/-- Payloads to `j` that must be reported before exchange `seq` when completions
come in order. -/
def Node.reportsNext (a : Node n) (j : Fin n) (seq : Nat) : Bool :=
  (a.acks.erase (j, seq)).all (fun x => x.1 ≠ j || seq < x.2) &&
    a.out.all fun p =>
      match p with
      | .data peer _ _ _ _ wrId => peer ≠ j || seq < wrId
      | _ => true

/-- One step of the nodes or of the transport. -/
def netStep (c : NetConfig n) (s : Nodes n) : NetEvent n → Option (Nodes n)
  | .fill i d =>
      if ((s i).work ((s i).filled + 1)).status ≠ 0 ∧ (s i).filled + 1 < 2 ^ 31 ∧
          AllToAll n d then
        some (Function.update s i ((s i).fill d))
      else none
  | .request i seq =>
      -- Every consumer enqueued before the request kernels has run.
      if (s i).request < seq ∧ seq ≤ (s i).filled ∧
          (∀ e, e < seq + 1 → (s i).credit e ≤ (s i).consumed) then
        some (Function.update s i { s i with request := seq })
      else none
  | .consume i =>
      if (s i).consumed < (s i).done then
        some (Function.update s i { s i with consumed := (s i).consumed + 1 })
      else none
  | .publish i seq =>
      if (s i).creditDevice < seq ∧ seq ≤ (s i).consumed then
        some (Function.update s i { s i with creditDevice := seq })
      else none
  | .land i p =>
      if p ∈ (s i).out then
        match p with
        | .data j _ _ _ imm wrId =>
            some (report (Function.update s i { s i with
              out := (s i).out.erase p, acks := (s i).acks ++ [(j, wrId)] }) j
              (recvCompletion i imm))
        | .credit j _ imm _ =>
            some (report (Function.update s i { s i with out := (s i).out.erase p }) j
              (recvCompletion i imm))
        | .flush _ _ => none
      else none
  | .ack i j seq =>
      if (j, seq) ∈ (s i).acks ∧ (c.ordered = true → (s i).reportsNext j seq = true) then
        some (report (Function.update s i { s i with acks := (s i).acks.erase (j, seq) }) i
          (sendCompletion j seq))
      else none
  | .flushed i =>
      if 0 < (s i).flushes then
        some (report (Function.update s i { s i with flushes := (s i).flushes - 1 }) i
          flushCompletion)
      else none
  | .drive i polled late =>
      -- The transport reports no error.
      some (Function.update s i (ibDrive (c.at i) (fun _ => 0) (s i) polled late).1)

/-- The nodes, from setup on. -/
def net (c : NetConfig n) : System (Nodes n) (NetEvent n) where
  Init s := s = fun _ => Node.boot n
  next := netStep c

/-! ## Messages in flight -/

/-- A payload of exchange `e` for `j`. -/
def Post.carries (j : Fin n) (e : Nat) : Post n → Bool
  | .data peer _ _ _ _ wrId => peer = j && wrId = e
  | _ => false

/-- The credit `u` for `j`. -/
def Post.credits (j : Fin n) (u : Nat) : Post n → Bool
  | .credit peer _ imm _ => peer = j && immIsCredit imm && immSeq imm = u
  | _ => false

/-- The arrival of the payload of exchange `e` from `i`. -/
def NetCompletion.brings (i : Fin n) (e : Nat) (x : NetCompletion n) : Bool :=
  x.kind = .recv && x.peer = some i && !immIsCredit x.imm && immSeq x.imm = e

/-- The arrival of the credit `u` from `i`. -/
def NetCompletion.credits (i : Fin n) (u : Nat) (x : NetCompletion n) : Bool :=
  x.kind = .recv && x.peer = some i && immIsCredit x.imm && immSeq x.imm = u

/-- The completion of the payload of exchange `e` for `j`. -/
def NetCompletion.completes (j : Fin n) (e : Nat) (x : NetCompletion n) : Bool :=
  x.kind = .send && x.peer = some j && x.wrId = e

theorem NetCompletion.brings_iff {i : Fin n} {e : Nat} {x : NetCompletion n} :
    x.brings i e = true ↔
      x.kind = .recv ∧ x.peer = some i ∧ immIsCredit x.imm = false ∧ immSeq x.imm = e := by
  simp only [NetCompletion.brings, Bool.and_eq_true, decide_eq_true_eq, Bool.not_eq_true',
    and_assoc]

theorem NetCompletion.credits_iff {i : Fin n} {u : Nat} {x : NetCompletion n} :
    x.credits i u = true ↔
      x.kind = .recv ∧ x.peer = some i ∧ immIsCredit x.imm = true ∧ immSeq x.imm = u := by
  simp only [NetCompletion.credits, Bool.and_eq_true, decide_eq_true_eq, and_assoc]

theorem NetCompletion.completes_iff {j : Fin n} {e : Nat} {x : NetCompletion n} :
    x.completes j e = true ↔ x.kind = .send ∧ x.peer = some j ∧ x.wrId = e := by
  simp only [NetCompletion.completes, Bool.and_eq_true, decide_eq_true_eq, and_assoc]

/-- Payloads of exchange `e` from `i` to `j` on the wire or not polled. -/
def flight (i j : Fin n) (a b : Node n) (e : Nat) : Nat :=
  a.out.countP (Post.carries j e) + b.cq.countP (NetCompletion.brings i e)

/-- The credit `u` from `i` to `j` is on the wire or not polled. -/
def Credited (i j : Fin n) (a b : Node n) (u : Nat) : Prop :=
  (∃ p, p ∈ a.out ∧ p.credits j u = true) ∨ ∃ x, x ∈ b.cq ∧ x.credits i u = true

/-- The engine of `j` has polled the payload of exchange `e` from `i`. -/
def Arrived (i j : Fin n) (a b : Node n) (e : Nat) : Prop :=
  1 ≤ e ∧ e ≤ a.posted ∧ flight i j a b e = 0

instance (i j : Fin n) (a b : Node n) (e : Nat) : Decidable (Arrived i j a b e) :=
  inferInstanceAs (Decidable (_ ∧ _ ∧ _))

/-- The exchange up to which the tallies have been taken. -/
def Node.taken (a : Node n) : Nat := if a.flushSeq = 0 then a.done else a.flushSeq

/-- The nodes whose payload of exchange `e` node `j` has counted. -/
def arrivals (s : Nodes n) (j : Fin n) (b : Node n) (e : Nat) : Finset (Fin n) :=
  Finset.univ.filter fun i => i ≠ j ∧ Arrived i j (s i) b e

/-! ## The invariant -/

/-- What a filled exchange that is not retired has in its cell. -/
structure Filled (n : Nat) (credit : Nat → Nat) (posted e : Nat) (w : IbWork) : Prop where
  seq : w.seq = e
  allToAll : AllToAll n w.toDescriptor
  credit : w.creditUpto = credit e
  sent : e ≤ posted → w.sent = true

/-- A post of node `i` on the wire. -/
def Post.Fits (i : Fin n) (posted : Nat) : Post n → Prop
  | .data peer _ _ _ imm wrId => peer ≠ i ∧ imm = wrId ∧ 1 ≤ wrId ∧ wrId ≤ posted
  | .credit peer _ imm _ => peer ≠ i ∧ immIsCredit imm = true
  | .flush _ _ => False

/-- A completion in the queue of node `i`. -/
structure NetCompletion.Fits (i : Fin n) (posted : Nat) (x : NetCompletion n) : Prop where
  status : x.status = 0
  recv : x.kind = .recv → ∃ j, j ≠ i ∧ x.peer = some j
  send : x.kind = .send → x.wrId ≤ posted ∧ ∃ j, j ≠ i ∧ x.peer = some j
  other : x.kind ≠ .other

/-- What holds of one node. -/
structure Own (c : NetConfig n) (i : Fin n) (a : Node n) : Prop where
  creditSent_le : a.creditSent ≤ a.consumed
  creditDevice_le : a.creditDevice ≤ a.consumed
  consumed_le : a.consumed ≤ a.done
  done_le : a.done ≤ a.request
  posted_le : a.posted ≤ a.request
  request_le : a.request ≤ a.filled
  filled_lt : a.filled < 2 ^ 31
  cells : RingHolds WORK_SLOTS IbWork.Running (Filled n a.credit a.posted) a.works a.done a.filled
  credit_le : ∀ e, e ≤ a.request → a.credit e ≤ a.consumed
  credit_sent : ∀ e, e ≤ a.posted → a.credit e ≤ a.creditSent
  done_le_posted : a.error = 0 → a.done ≤ a.posted
  flush : a.error = 0 → a.flushSeq ≠ 0 → a.flushSeq = a.done + 1 ∧ a.flushSeq ≤ a.posted
  flush_read : a.error = 0 → a.flushSeq ≠ 0 →
    0 < a.flushDone + a.flushes + a.cq.countP (fun x => x.kind = .flush)
  sends_done : a.error = 0 → ∀ j, j ≠ i → a.taken ≤ a.sendDone j
  out : ∀ p, p ∈ a.out → p.Fits i a.posted
  acks : ∀ x, x ∈ a.acks → x.1 ≠ i ∧ x.2 ≤ a.posted
  cq : ∀ x, x ∈ a.cq → x.Fits i a.posted
  sendDone_le : ∀ j, a.sendDone j ≤ a.posted
  send_known : ∀ j e, j ≠ i → 1 ≤ e → e ≤ a.posted →
    e ≤ a.sendDone j ∨ (∃ p, p ∈ a.out ∧ p.carries j e = true) ∨ (j, e) ∈ a.acks ∨
      ∃ x, x ∈ a.cq ∧ x.completes j e = true
  in_order : c.ordered = true → ∀ j w,
    (w ≤ a.sendDone j ∨ ∃ x, x ∈ a.cq ∧ x.completes j w = true) →
    (∀ p e, p ∈ a.out → p.carries j e = true → w < e) ∧ ∀ e, (j, e) ∈ a.acks → w < e

/-- What holds of a sender `i` and a receiver `j`. -/
structure Pair (c : NetConfig n) (i j : Fin n) (a b : Node n) : Prop where
  flight_le : ∀ e, flight i j a b e ≤ 1
  flight_posted : ∀ e, 0 < flight i j a b e → 1 ≤ e ∧ e ≤ a.posted
  posted_le : a.posted ≤ a.creditRecv j + c.nslots
  creditRecv_le : b.creditRecv i ≤ a.creditSent
  credited_le : ∀ u, Credited i j a b u → u ≤ a.creditSent
  credit_known : a.creditSent ≤ b.creditRecv i ∨ Credited i j a b a.creditSent
  taken : b.error = 0 → ∀ e, 1 ≤ e → e ≤ b.taken → Arrived i j a b e

/-- The invariant of the net. -/
structure Inv (c : NetConfig n) (s : Nodes n) : Prop where
  own : ∀ i, Own c i (s i)
  pair : ∀ i j, i ≠ j → Pair c i j (s i) (s j)
  tally : ∀ j, (s j).error = 0 → ∀ e, (s j).taken < e → e ≤ (s j).taken + c.nslots →
    (s j).tally (e % c.nslots) = (arrivals s j (s j) e).card

end TorchMojoBackend.Ccl.Net
