/-
  `FlightRecorder.Ring`: the ring of entries in memory.

  Every slot is a sequence lock.  Two kinds of writers take it: the producer, under
  the backend mutex, which records entries and links them or marks them untracked,
  and any thread that stamps an entry completed.  A snapshot takes no lock: it
  copies the entries from the oldest on, tries one that changes meanwhile again and
  leaves out one whose slot a newer entry has.  Every access of a word is a step of
  its own; `log`, `newer` and `busy` are histories.
-/
import TorchMojoBackend.FlightRecorder.Record
import TorchMojoBackend.Foundation.RingBuffer
import TorchMojoBackend.Foundation.SeqLock
import TorchMojoBackend.Foundation.Threads

set_option autoImplicit false

namespace TorchMojoBackend.FlightRecorder.Ring

open TorchMojoBackend.Foundation

/-! ## Words -/

/-- The words of a slot but `F_VER`. -/
abbrev Words : Type := Nat → Int

/-- `F_ID` -/
def wordId : Nat := 1

/-- `F_FLAGS` -/
def wordFlags : Nat := 11

/-- `F_DONE` -/
def wordDone : Nat := 16

/-- `F_LINK` -/
def wordLink : Nat := 17

/-- `F_FLAGS` of an entry: `FL_P2P`, `FL_MEMBER`, `FL_END`, `FL_UNTRACKED` and `FL_FOLDED`. -/
def flags (e : FrEntry) : Int :=
  (if e.p2p then 1 else 0) + (if e.member then 2 else 0) + (if e.isEnd then 4 else 0) +
    (if e.untracked then 8 else 0) + (if e.folded then 16 else 0)

/-- `x | FL_UNTRACKED` -/
def orUntracked (x : Int) : Int := if x / 8 % 2 = 1 then x else x + 8

/-- The stores of `_record`, in order. -/
def recordStores (rid : Nat) (e : FrEntry) (created thread : Int) : List (Nat × Int) :=
  [(wordId, rid + 1), (2, e.pg), (3, e.cseq), (4, e.pseq), (5, e.opid), (6, e.op.code),
    (7, e.count), (8, e.dtype), (9, e.root), (10, e.nops), (wordFlags, flags e), (12, created),
    (13, thread), (14, e.tag), (15, e.comm), (wordDone, 0), (wordLink, 0)]

/-- What a writer does to a slot. -/
inductive Job where
  | record (rid : Nat) (e : FrEntry) (created thread : Int)
  | link (rid1 link : Nat)
  | untracked (rid1 : Nat)
  | done (rid1 : Nat) (now : Int)

namespace Job

/-- The id plus one of the entry it is about. -/
def rid1 : Job → Nat
  | record rid _ _ _ => rid + 1
  | link rid1 _ | untracked rid1 | done rid1 _ => rid1

/-- `_slot` -/
def slot (size : Nat) (j : Job) : Nat := ringSlot size j.rid1

/-- The id of the entry it records, if it does. -/
def recorded? : Job → Option Nat
  | record rid _ _ _ => some rid
  | link _ _ | untracked _ | done _ _ => none

/-- It runs under the backend mutex. -/
def producer : Job → Bool
  | record _ _ _ _ | link _ _ | untracked _ => true
  | done _ _ => false

/-- Its stores to a slot with the words `c`. -/
def stores (j : Job) (c : Words) : List (Nat × Int) :=
  match j with
  | record rid e created thread => recordStores rid e created thread
  | link rid1 target => if c wordId = rid1 then [(wordLink, (target : Int))] else []
  | untracked rid1 => if c wordId = rid1 then [(wordFlags, orUntracked (c wordFlags))] else []
  | done rid1 now => if c wordId = rid1 ∧ c wordDone = 0 then [(wordDone, max now 1)] else []

/-- The words it leaves. -/
def apply (j : Job) (c : Words) : Words := storeAll (j.stores c) c

end Job

/-- The words of a slot after jobs. -/
def contents (log : List Job) : Words := replay Job.apply (fun _ => 0) log

abbrev Slot : Type := Cell Job Nat Int

/-! ## Memory and locations -/

/-- The ring, `H_NEXT` and the backend mutex. -/
structure Mem where
  next : Nat
  slots : Nat → Slot
  locked : Bool

/-- A snapshot in progress: its capacity, `H_NEXT` as it read it, the entry it is at and
the entries it has; `newer` and `busy` are those it left out, because a newer one had the
slot or after 64 attempts. -/
structure Reader where
  cap : Nat
  limit : Nat
  rid : Nat
  out : List (List (Nat × Int))
  newer : List Nat
  busy : List Nat

/-- Where a thread is. -/
inductive Pc where
  | idle
  /-- `_record` is about to read `H_NEXT` -/
  | next (e : FrEntry) (created thread : Int)
  /-- `fr_done` looks at the id without the lock -/
  | look (rid1 : Nat) (now : Int)
  /-- `_lock` is about to read the version -/
  | lock (j : Job)
  /-- `_lock` is about to exchange the version it read -/
  | swap (v : Nat) (j : Job)
  /-- the id is checked under the lock -/
  | check (v : Nat) (j : Job)
  /-- the word to change is read -/
  | load (v : Nat) (j : Job)
  /-- stores are left; none when the version is to be given back -/
  | store (v : Nat) (j : Job) (stores : List (Nat × Int))
  /-- `_record` is about to write `H_NEXT` -/
  | publish (rid : Nat)
  /-- the mutex is to be released -/
  | leave
  /-- `_snapshot` is about to read `H_NEXT` -/
  | limit (cap : Nat)
  /-- it is about to read the version of its entry's slot -/
  | entry (r : Reader) (attempt : Nat)
  /-- it copies the words -/
  | copy (r : Reader) (attempt : Nat) (view : View Nat Int)
  /-- it is about to read the version again -/
  | recheck (r : Reader) (attempt : Nat) (view : View Nat Int)
  | returned (r : Reader)

namespace Reader

/-- The head of the loop over the entries. -/
def enter (r : Reader) : Pc :=
  if r.rid < r.limit ∧ r.out.length < r.cap then .entry r 0 else .returned r

/-- The attempt was in vain. -/
def fail (r : Reader) (attempt : Nat) : Pc :=
  if attempt + 1 < 64 then .entry r (attempt + 1)
  else enter { r with rid := r.rid + 1, busy := r.busy ++ [r.rid] }

/-- A consistent copy: kept, or already a newer entry's. -/
def keep (r : Reader) (got : List (Nat × Int)) : Pc :=
  if got.lookup wordId = some ((r.rid : Int) + 1) then
    enter { r with rid := r.rid + 1, out := r.out ++ [got] }
  else enter { r with rid := r.rid + 1, newer := r.newer ++ [r.rid] }

end Reader

/-! ## Steps -/

inductive Action where
  /-- `_record` of an entry whose ids were counted -/
  | record (e : FrEntry) (created thread : Int)
  | link (rid1 link : Nat)
  | untracked (rid1 : Nat)
  | done (rid1 : Nat) (now : Int)
  | snapshot (cap : Nat)
  /-- the next access of memory -/
  | step

/-- Put a slot back. -/
def Mem.setSlot (m : Mem) (i : Nat) (c : Slot) : Mem :=
  { m with slots := Function.update m.slots i c }

/-- A thread takes the mutex. -/
def enterMutex (p : Pc) (m : Mem) : Option (Pc × Mem) :=
  if m.locked then none else some (p, { m with locked := true })

/-- A thread makes a call. -/
def call (a : Action) (m : Mem) : Option (Pc × Mem) :=
  match a with
  | .record e created thread => enterMutex (.next e created thread) m
  | .link rid1 target => if rid1 = 0 then none else enterMutex (.lock (.link rid1 target)) m
  | .untracked rid1 => if rid1 = 0 then none else enterMutex (.lock (.untracked rid1)) m
  | .done rid1 now => if rid1 = 0 then none else some (.look rid1 now, m)
  | .snapshot cap => some (.limit cap, m)
  | .step => none

/-- A writer's next access. -/
def writeStep (size : Nat) (p : Pc) (m : Mem) : Option (Pc × Mem) :=
  match p with
  | .next e created thread => some (.lock (.record m.next e created thread), m)
  | .look rid1 now =>
    if (m.slots (ringSlot size rid1)).words wordId ≠ rid1 then some (.idle, m)
    else some (.lock (.done rid1 now), m)
  | .lock j =>
    let v := (m.slots (j.slot size)).version
    some (if v % 2 = 0 then .swap v j else .lock j, m)
  | .swap v j =>
    let c := m.slots (j.slot size)
    if c.version = v then
      let m' := m.setSlot (j.slot size) c.acquire
      match j with
      | .record rid e created thread =>
        some (.store v j (recordStores rid e created thread), m')
      | .link _ _ | .untracked _ | .done _ _ => some (.check v j, m')
    else some (.lock j, m)
  | .check v j =>
    if (m.slots (j.slot size)).words wordId = j.rid1 then
      match j with
      | .link _ target => some (.store v j [(wordLink, target)], m)
      | .untracked _ | .done _ _ | .record _ _ _ _ => some (.load v j, m)
    else some (.store v j [], m)
  | .load v j =>
    let words := (m.slots (j.slot size)).words
    match j with
    | .untracked _ => some (.store v j [(wordFlags, orUntracked (words wordFlags))], m)
    | .done _ now =>
      some (.store v j (if words wordDone = 0 then [(wordDone, max now 1)] else []), m)
    | .link _ _ | .record _ _ _ _ => none
  | .store v j ((k, x) :: stores) =>
    some (.store v j stores, m.setSlot (j.slot size) ((m.slots (j.slot size)).store k x))
  | .store v j [] =>
    let m' := m.setSlot (j.slot size) ((m.slots (j.slot size)).release v j)
    match j with
    | .record rid _ _ _ => some (.publish rid, m')
    | .link _ _ | .untracked _ => some (.leave, m')
    | .done _ _ => some (.idle, m')
  | .publish rid => some (.leave, { m with next := rid + 1 })
  | .leave => some (.idle, { m with locked := false })
  | _ => none

/-- A snapshot's next access. -/
def readStep (size : Nat) (p : Pc) (m : Mem) : Option Pc :=
  match p with
  | .limit cap => some (Reader.enter ⟨cap, m.next, m.next - size, [], [], []⟩)
  | .entry r attempt =>
    let v := (m.slots (r.rid % size)).version
    some (if v % 2 = 0 then .copy r attempt ⟨v, []⟩ else r.fail attempt)
  | .copy r attempt view =>
    let k := view.got.length + 1
    let view' : View Nat Int :=
      ⟨view.version, view.got ++ [(k, (m.slots (r.rid % size)).words k)]⟩
    some (if k < wordLink then .copy r attempt view' else .recheck r attempt view')
  | .recheck r attempt view =>
    some (if (m.slots (r.rid % size)).version ≠ view.version then r.fail attempt
      else r.keep view.got)
  | .returned _ => some .idle
  | _ => none

def atom (size : Nat) (p : Pc) (a : Action) (m : Mem) : Option (Pc × Mem) :=
  match p, a with
  | .idle, a => call a m
  | p, .step => (writeStep size p m).or ((readStep size p m).map fun p' => (p', m))
  | _, _ => none

/-- Threads that record, stamp, link and take snapshots, on a ring of `size` slots. -/
def ring (size : Nat) : Program Mem Pc Action where
  start := .idle
  boot := ⟨0, fun _ => ⟨0, fun _ => 0, []⟩, false⟩
  atom := atom size

end TorchMojoBackend.FlightRecorder.Ring
