/-
  `FlightRecorder.Record`: one entry of the flight recorder.

  Every entry is made by `_record` from the arguments of a library call and the
  tag word of the torch-level operation it belongs to.  The tag says whether the
  operation is a member of a coalescing block and its first, or the block's end.
  The counters of the process group count collectives, point-to-point operations
  and operations as `ProcessGroupNCCL` does.
-/
import TorchMojoBackend.Watchdog.Entry

set_option autoImplicit false

namespace TorchMojoBackend.FlightRecorder

open TorchMojoBackend.Watchdog

/-- A tag word: the low bits are the id of the Python record, 0 if none. -/
structure Tag where
  id : Nat
  member : Bool
  first : Bool
  isEnd : Bool
  p2p : Bool
  deriving DecidableEq, Repr

/-- The tag word 0. -/
def Tag.zero : Tag := ⟨0, false, false, false, false⟩

/-- The recording state of a process group; `groupC` and `groupP` say that the open
coalescing block has advanced the collective and the point-to-point count. -/
structure Counters where
  cseq : Nat
  pseq : Nat
  opid : Nat
  groupC : Bool
  groupP : Bool
  deriving DecidableEq, Repr

/-- An entry of the ring; `link` and `done` are 0 and `false` until they are set. -/
structure FrEntry where
  pg : Nat
  cseq : Nat
  pseq : Nat
  opid : Nat
  op : Op
  count : Int
  dtype : Int
  root : Int
  nops : Nat
  p2p : Bool
  member : Bool
  isEnd : Bool
  untracked : Bool
  folded : Bool
  tag : Nat
  comm : Nat
  done : Bool
  link : Nat
  deriving DecidableEq

/-- The tag `_record` goes by: the end of a block that counted nothing is another
group's, so the entry is an ordinary one. -/
def Counters.effective (c : Counters) (tag : Tag) : Tag :=
  if tag.isEnd ∧ c.groupC = false ∧ c.groupP = false then .zero else tag

/-- An operation with a Python record is point-to-point when its tag says so, another
one when its native operation is. -/
def Tag.p2pOr (tag : Tag) (p2pOp : Bool) : Bool :=
  if tag.id ≠ 0 then tag.p2p else p2pOp

/-- One more of the kind. -/
def Counters.bumpSeq (c : Counters) (p2p : Bool) : Counters :=
  if p2p then { c with pseq := c.pseq + 1 } else { c with cseq := c.cseq + 1 }

/-- The count of the kind, once in a block. -/
def Counters.bumpOnce (c : Counters) (p2p : Bool) : Counters :=
  if p2p then
    if c.groupP then c else { c with groupP := true, pseq := c.pseq + 1 }
  else if c.groupC then c
  else { c with groupC := true, cseq := c.cseq + 1 }

/-- The counters after an entry with the effective tag `tag`. -/
def Counters.advance (c : Counters) (tag : Tag) (p2p : Bool) : Counters :=
  if tag.member then
    let c := if tag.first then { c with groupC := false, groupP := false } else c
    { c with opid := c.opid + 1 }.bumpOnce p2p
  else if tag.isEnd then { c with groupC := false, groupP := false }
  else { c with opid := c.opid + 1 }.bumpSeq p2p

/-- `_record`: the counters and the entry. -/
def Counters.record (c : Counters) (pg : Nat) (e : Entry) (untracked : Bool) (comm : Nat)
    (tagWord : Tag) (deferred : Bool) : Counters × FrEntry :=
  let tag := c.effective tagWord
  let p2p := tag.p2pOr e.op.pointToPoint
  let c := c.advance tag p2p
  (c, { pg := pg
        cseq := c.cseq
        pseq := c.pseq
        opid := c.opid
        op := e.op
        count := e.count
        dtype := e.dtype
        root := e.root
        nops := e.nops
        p2p := p2p
        member := tag.member
        isEnd := !tag.member && tag.isEnd
        untracked := untracked
        folded := deferred
        tag := tag.id
        comm := comm
        done := false
        link := 0 })

end TorchMojoBackend.FlightRecorder
