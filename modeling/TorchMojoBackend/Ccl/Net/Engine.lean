/-
  `Ccl.Net.Engine`: the progress engine of one node.

  Source: tmb/ccl/transport/net.mojo (`_sender_slot` to `ib_drive`).

  A node is its engine's state together with its side of the transport: what it
  posted and what its completion queue holds.  The return codes of the posts are
  a parameter.  Times, counters of the trace and the diagnostic of an idle
  engine are left out.
-/
import TorchMojoBackend.Ccl.Net.Work
import Mathlib.Data.Fintype.Card
import Mathlib.Data.List.FinRange

set_option autoImplicit false

namespace TorchMojoBackend.Ccl.Net

open TorchMojoBackend.Foundation

variable {n : Nat}

/-! ## Immediates -/

def IMM_CREDIT_BIT : Nat := 2 ^ 31

/-- The bits of `IMM_SEQ_MASK`. -/
def immSeq (imm : Nat) : Nat := imm % 2 ^ 31

def immIsCredit (imm : Nat) : Bool := imm / 2 ^ 31 % 2 = 1

/-- The immediate of a credit. -/
def creditImm (upto : Nat) : Nat := IMM_CREDIT_BIT + immSeq upto

@[simp] theorem immSeq_of_lt {e : Nat} (h : e < 2 ^ 31) : immSeq e = e := Nat.mod_eq_of_lt h

theorem immIsCredit_of_lt {e : Nat} (h : e < 2 ^ 31) : immIsCredit e = false := by
  unfold immIsCredit
  rw [Nat.div_eq_of_lt h]
  decide

theorem immSeq_creditImm {e : Nat} (h : e < 2 ^ 31) : immSeq (creditImm e) = e := by
  unfold creditImm IMM_CREDIT_BIT
  rw [immSeq_of_lt h]
  unfold immSeq
  rw [Nat.add_mod_left, Nat.mod_eq_of_lt h]

theorem immIsCredit_creditImm {e : Nat} (h : e < 2 ^ 31) : immIsCredit (creditImm e) = true := by
  unfold immIsCredit creditImm IMM_CREDIT_BIT
  rw [immSeq_of_lt h]
  have : (2 ^ 31 + e) / 2 ^ 31 = 1 := by omega
  rw [this]
  decide

/-! ## The transport -/

/-- `NC_RECV`, `NC_SEND`, `NC_FLUSH`, `NC_OTHER`. -/
inductive CompletionKind where
  | recv | send | flush | other
  deriving DecidableEq, Repr

/-- `NetCompletion`. -/
structure NetCompletion (n : Nat) where
  kind : CompletionKind
  peer : Option (Fin n)
  imm : Nat
  wrId : Nat
  status : Int
  deriving DecidableEq, Repr

/-- An operation handed to the transport.  A payload and the immediate that
announces it are one operation, as they are on verbs. -/
inductive Post (n : Nat) where
  | data (peer : Fin n) (laddr bytes raddr : Int) (imm wrId : Nat)
  | credit (peer : Fin n) (raddr : Int) (imm wrId : Nat)
  | flush (addr : Int) (wrId : Nat)
  deriving DecidableEq, Repr

/-- Where an operation goes. -/
def Post.peer? : Post n → Option (Fin n)
  | .data peer .. => some peer
  | .credit peer .. => some peer
  | .flush .. => none

/-- The part of `IbState` a run of the engine does not change. -/
structure IbConfig (n : Nat) where
  myNode : Fin n
  nslots : Nat
  doFlush : Bool
  creditOff : Int
  /-- `IbPeer.remote_base`. -/
  remoteBase : Fin n → Int

/-- The part of `IbState` the engine works on. -/
structure Ib (n : Nat) where
  /-- `st.works`. -/
  works : Nat → IbWork
  request : Nat
  posted : Nat
  done : Nat
  flushSeq : Nat
  flushDone : Nat
  sendDone : Fin n → Nat
  creditRecv : Fin n → Nat
  creditSent : Nat
  creditDevice : Nat
  tally : Nat → Nat
  peerSeqSeen : Nat
  error : Int

/-- A node: its engine, its side of the transport, and how far its host and its
stream are. -/
structure Node (n : Nat) extends Ib n where
  /-- Posted and not landed. -/
  out : List (Post n)
  /-- Landed payloads whose completion is not reported: peer and exchange. -/
  acks : List (Fin n × Nat)
  /-- Flush reads that have not come back. -/
  flushes : Nat
  /-- Completions not polled. -/
  cq : List (NetCompletion n)
  /-- The last exchange the host filled, the exchanges whose consumer has run. -/
  filled : Nat
  consumed : Nat
  /-- History: the credit each exchange was filled with. -/
  credit : Nat → Nat

/-- `IbState.__init__`. -/
def Node.boot (n : Nat) : Node n where
  works _ := IbWork.boot
  request := 0
  posted := 0
  done := 0
  flushSeq := 0
  flushDone := 0
  sendDone _ := 0
  creditRecv _ := 0
  creditSent := 0
  creditDevice := 0
  tally _ := 0
  peerSeqSeen := 0
  error := 0
  out := []
  acks := []
  flushes := 0
  cq := []
  filled := 0
  consumed := 0
  credit _ := 0

/-- `_work`. -/
def Node.work (s : Node n) (seq : Nat) : IbWork := s.works (workSlot seq)

/-- Change the cell of exchange `seq`. -/
def Node.modify (s : Node n) (seq : Nat) (f : IbWork → IbWork) : Node n :=
  { s with works := Function.update s.works (workSlot seq) (f (s.work seq)) }

/-- Hand an operation to the transport. -/
def Node.post (s : Node n) : Post n → Node n
  | .flush _ _ => { s with flushes := s.flushes + 1 }
  | p => { s with out := s.out ++ [p] }

/-- Post in order until one fails. -/
def postAll (rc : Post n → Int) (s : Node n) : List (Post n) → Node n × Bool
  | [] => (s, true)
  | p :: ps => if rc p ≠ 0 then (s, false) else postAll rc (s.post p) ps

/-! ## The engine -/

section Engine

variable (c : IbConfig n) (rc : Post n → Int)

/-- `st.peers`, by node. -/
def IbConfig.peers : List (Fin n) := (List.finRange n).filter (· ≠ c.myNode)

/-- `_sender_slot`. -/
def senderSlot (myNode peerNode : Nat) : Nat :=
  if myNode < peerNode then myNode else myNode - 1

def CREDIT_LINE_BYTES : Nat := 64

/-- `k` turns of the loop of `_release_on_error`. -/
def releaseLoop : Nat → Node n → Node n
  | 0, s => s
  | k + 1, s =>
      releaseLoop k { s.modify (s.done + 1) (fun w => { w with status := 2 }) with
        done := s.done + 1 }

/-- `_release_on_error`: the loop runs while `done` is below `request`. -/
def releaseOnError (s : Node n) : Node n :=
  { releaseLoop (s.request - s.done) s with flushSeq := 0 }

/-- The credits `_send_credits` posts. -/
def creditPosts (upto : Nat) : List (Post n) :=
  c.peers.map fun p => .credit p
    (c.remoteBase p + c.creditOff + (senderSlot c.myNode p * CREDIT_LINE_BYTES : Nat))
    (creditImm upto) upto

/-- `_send_credits`. -/
def sendCredits (s : Node n) (upto : Nat) : Node n × Bool :=
  if upto ≤ s.creditSent then (s, false)
  else
    match postAll rc s (creditPosts c upto) with
    | (s, true) => ({ s with creditSent := upto }, true)
    | (s, false) => ({ s with error := 8 }, false)

/-- `_can_post`. -/
def canPost (s : Node n) (seq : Nat) : Bool :=
  c.peers.all fun p => decide (seq - c.nslots ≤ s.creditRecv p)

/-- The payloads `_post_data` posts. -/
def dataPosts (w : IbWork) : List (Post n) :=
  c.peers.map fun p => .data p
    (w.sendAddr + (p : Nat) * w.sendNodeStride) w.sendBytes
    (c.remoteBase p + w.inboxBase + senderSlot c.myNode p * w.slotBytes)
    (immSeq w.seq) w.seq

/-- `_post_data` for exchange `seq`. -/
def postData (s : Node n) (seq : Nat) : Node n × Bool :=
  let w := s.work seq
  if w.doSend = false ∨ w.sendBytes ≤ 0 then (s, true)
  else
    match postAll rc s (dataPosts c w) with
    | (s, true) => (s.modify seq fun w => { w with sent := true }, true)
    | (s, false) => ({ s with error := 1 }, false)

/-- `_sends_done`. -/
def sendsDone (s : Node n) (w : IbWork) : Bool :=
  !w.sent || c.peers.all fun p => decide (w.seq ≤ s.sendDone p)

/-- `_consume_wc`; false for a failed completion. -/
def consumeWc (s : Node n) (x : NetCompletion n) : Node n × Bool :=
  if x.status ≠ 0 then ({ s with error := x.status }, false)
  else
    match x.kind with
    | .recv =>
        let seq := immSeq x.imm
        if immIsCredit x.imm then
          match x.peer with
          | some p =>
              if s.creditRecv p < seq then
                ({ s with creditRecv := Function.update s.creditRecv p seq }, true)
              else (s, true)
          | none => (s, true)
        else
          ({ s with
            tally := Function.update s.tally (seq % c.nslots) (s.tally (seq % c.nslots) + 1)
            peerSeqSeen := max s.peerSeqSeen seq }, true)
    | .send =>
        match x.peer with
        | some p =>
            if s.sendDone p < x.wrId then
              ({ s with sendDone := Function.update s.sendDone p x.wrId }, true)
            else (s, true)
        | none => (s, true)
    | .flush => ({ s with flushDone := s.flushDone + 1 }, true)
    | .other => (s, true)

/-- `_retire`. -/
def retire (s : Node n) (seq : Nat) : Node n :=
  s.modify seq fun w => { w with status := 1 }

@[simp] theorem retire_flushSeq (s : Node n) (seq : Nat) :
    (retire s seq).flushSeq = s.flushSeq := rfl

/-- What one turn of the loop of `_advance` does. -/
inductive Advance (n : Nat) where
  /-- Nothing can move. -/
  | stop
  | moved (s : Node n)
  /-- The flush read could not be posted. -/
  | failed (s : Node n)

/-- One turn of the loop of `_advance`. -/
def advanceStep (s : Node n) : Advance n :=
  if s.flushSeq ≠ 0 then
    if s.flushDone = 0 then .stop
    else
      .moved (retire { s with
        flushDone := s.flushDone - 1, done := s.flushSeq, flushSeq := 0 } s.flushSeq)
  else if s.posted ≤ s.done then .stop
  else
    let e := s.done + 1
    let w := s.work e
    let idx := e % c.nslots
    if s.tally idx < w.nrecv then .stop
    else if !sendsDone c s w then .stop
    else
      let s := { s with tally := Function.update s.tally idx (s.tally idx - w.nrecv) }
      if 0 < w.nrecv ∧ w.flushAddr ≠ 0 ∧ c.doFlush then
        let p := Post.flush w.flushAddr e
        if rc p ≠ 0 then .failed { s with error := 4 }
        else .moved { s.post p with flushSeq := e }
      else .moved (retire { s with done := e } e)

/-- A bound on the turns of `_advance`: an exchange is taken once, and retired once when
its flush read came back. -/
def Node.turns (s : Node n) : Nat :=
  if s.flushSeq = 0 then 2 * (s.posted - s.done) else 2 * (s.posted - s.flushSeq) + 1

theorem advanceStep_decreases {s t : Node n} (h : advanceStep c rc s = .moved t) :
    t.turns < s.turns := by
  unfold advanceStep at h
  split at h
  case isTrue hflush =>
    split at h
    case isTrue => cases h
    case isFalse hdone =>
      cases h
      unfold Node.turns
      rw [retire_flushSeq, if_neg hflush, if_pos rfl]
      exact Nat.lt_succ_self _
  case isFalse hflush =>
    rw [ne_eq, not_not] at hflush
    split at h
    case isTrue => cases h
    case isFalse hlt =>
      dsimp only at h
      split at h
      · cases h
      split at h
      · cases h
      unfold Node.turns
      rw [if_pos hflush]
      split at h
      · split at h
        · cases h
        · cases h
          rw [if_neg (Nat.succ_ne_zero _)]
          show 2 * (s.posted - (s.done + 1)) + 1 < _
          omega
      · cases h
        rw [retire_flushSeq, if_pos hflush]
        show 2 * (s.posted - (s.done + 1)) < _
        omega

/-- At most `k` turns of the loop of `_advance`; whether anything moved. -/
def advanceLoop : Nat → Node n → Node n × Bool
  | 0, s => (s, false)
  | k + 1, s =>
      match advanceStep c rc s with
      | .stop => (s, false)
      | .failed t => (t, false)
      | .moved t => ((advanceLoop k t).1, true)

/-- `_advance`. -/
def advance (s : Node n) : Node n × Bool := advanceLoop c rc (s.turns + 1) s

/-- More turns than `turns` change nothing. -/
theorem advanceLoop_eq {s : Node n} {k : Nat} (hk : s.turns < k) :
    advanceLoop c rc k s = advance c rc s := by
  unfold advance
  induction hm : s.turns using Nat.strongRecOn generalizing s k with
  | ind m ih =>
      cases k with
      | zero => omega
      | succ k =>
          unfold advanceLoop
          cases hstep : advanceStep c rc s with
          | stop => rfl
          | failed t => rfl
          | moved t =>
              have hlt := advanceStep_decreases c rc hstep
              dsimp only
              rw [ih t.turns (by omega) (by omega) rfl,
                ih t.turns (k := m) (by omega) (by omega) rfl]

/-- `_advance` is its loop. -/
theorem advance_eq (s : Node n) :
    advance c rc s =
      match advanceStep c rc s with
      | .stop => (s, false)
      | .failed t => (t, false)
      | .moved t => ((advance c rc t).1, true) := by
  conv_lhs => unfold advance advanceLoop
  cases hstep : advanceStep c rc s with
  | stop => rfl
  | failed t => rfl
  | moved t =>
      dsimp only
      rw [advanceLoop_eq c rc (advanceStep_decreases c rc hstep)]

/-- The part of `ib_drive` that posts the next exchange: the node, whether anything
moved, whether the posts succeeded. -/
def postNext (s : Node n) : Node n × Bool × Bool :=
  if s.posted < s.request then
    let e := s.posted + 1
    let (s, moved) := sendCredits c rc s (s.work e).creditUpto
    if canPost c s e then
      match postData c rc s e with
      | (s, true) => ({ s with posted := e }, true, true)
      | (s, false) => (s, moved, false)
    else (s, moved, true)
  else (s, false, true)

/-- The completions of one poll; false if one failed. -/
def consumeAll (s : Node n) : List (NetCompletion n) → Node n × Bool
  | [] => (s, true)
  | x :: xs =>
      match consumeWc c s x with
      | (s, true) => consumeAll s xs
      | (s, false) => (s, false)

def COMP_BATCH : Nat := 16

/-- `ib_drive`: one step of the engine that polls up to `polled` completions.
`late` says that the deadline for progress has passed.  The result tells whether
anything moved. -/
def ibDrive (s : Node n) (polled : Nat) (late : Bool) : Node n × Bool :=
  if s.error ≠ 0 then (releaseOnError s, false)
  else
    let (s, credited) := sendCredits c rc s s.creditDevice
    match postNext c rc s with
    | (s, _, false) => (releaseOnError s, false)
    | (s, posted, true) =>
        let batch := s.cq.take (min polled COMP_BATCH)
        match consumeAll c { s with cq := s.cq.drop (min polled COMP_BATCH) } batch with
        | (s, false) => (releaseOnError s, false)
        | (s, true) =>
            let (s, advanced) := advance c rc s
            let moved := credited || posted || !batch.isEmpty || advanced
            if !moved && decide (s.done < s.request) && late then
              (releaseOnError { s with error := 3 }, false)
            else (s, moved)

end Engine

end TorchMojoBackend.Ccl.Net
