/-
  `Watchdog.Queue`: the in-flight queue of one tracker.

  Source: tmb/backend/watchdog.mojo (`_slot`, `_boundary`, `_retire_now`,
  `_unmap_retired`, `_map_segment`, `_full`, `watch_commit`, `_drain`,
  `_poll_tracker` from its load of `T_TAIL` on).

  The issuing thread runs `watch_commit` under the backend mutex; any number of
  threads retire.  Every load and store of a shared word is one step.  What is
  kept here and not in the source is named: the log of committed slots, the list
  of retired intervals and the queries of an attempt.
-/
import Mathlib.Algebra.Group.Nat.Defs
import TorchMojoBackend.Foundation.Threads

set_option autoImplicit false

namespace TorchMojoBackend.Watchdog.Queue

open TorchMojoBackend.Foundation

/-! ## Slots and segments -/

/-- Slots of a segment. -/
def SEG : Nat := 1024

/-- Entries of the segment table. -/
def NSEG : Nat := 1024

/-- The driver's code for an event that is not complete. -/
def notReady : Int := 600

/-- `_teardown`: the driver's codes for a context that is going away. -/
def teardown (rc : Int) : Bool := rc = 4 || rc = 201 || rc = 709

/-- The words of a slot (`S_VER` to `S_FR`). -/
inductive Word where
  | ver | seq | op | nops | count | dtype | root | redop | fp | issued | event | cpos | fr
  deriving DecidableEq, Repr

/-- The contents of a slot. -/
abbrev Slot := Word → Int

/-- What the caller of `watch_commit` describes: the fields of `Entry` the
commit stores as they are. -/
structure Entry where
  op : Int
  nops : Int
  count : Int
  dtype : Int
  root : Int
  redop : Int
  fp : Nat
  cpos : Int
  deriving DecidableEq, Repr

/-- One tracker's queue. -/
structure Tracker where
  /-- The backend mutex. -/
  locked : Bool
  /-- `T_HEAD`, `T_TAIL`, `T_DONE`, `T_SEQ`. -/
  head : Nat
  tail : Nat
  done : Int
  seq : Int
  /-- `T_FAULT`, `T_ASYNC`. -/
  fault : Int
  async : Int
  /-- `_claimed`. -/
  claimed : Bool
  /-- `tr.segs`: segment addresses, 0 when unmapped. -/
  segs : Nat → Nat
  /-- `tr.seg_lo`, `tr.seg_pool` (last in, first out), `tr.inflight_limit`,
  `tr.overflowing`. -/
  segLo : Nat
  pool : List Nat
  limit : Nat
  overflowing : Bool
  /-- The memory of the segments; address 0 is `tr.zero_seg`. -/
  slots : Nat → Nat → Slot
  /-- The addresses and events the allocators hand out next. -/
  nextSeg : Nat
  nextEvent : Int
  /-- The comm stream: position of the last record of an event, records made,
  records the device has passed. -/
  recordedAt : Int → Option Nat
  recorded : Nat
  completed : Nat
  /-- History: the slot committed for each index, the intervals retired. -/
  log : List Slot
  retirements : List (Nat × Nat)

/-- `Tracker.__init__`. -/
def Tracker.boot : Tracker where
  locked := false
  head := 0
  tail := 0
  done := 0
  seq := 0
  fault := 0
  async := 0
  claimed := false
  segs _ := 0
  segLo := 0
  pool := []
  limit := (NSEG - 1) * SEG
  overflowing := false
  slots _ _ _ := 0
  nextSeg := 1
  nextEvent := 1
  recordedAt _ := none
  recorded := 0
  completed := 0
  log := []
  retirements := []

/-- The segment `_slot` finds for index `i`. -/
def Tracker.segOf (m : Tracker) (i : Nat) : Nat := m.segs (i / SEG % NSEG)

/-- `_slot`: the words of index `i`. -/
def Tracker.slot (m : Tracker) (i : Nat) : Slot := m.slots (m.segOf i) (i % SEG)

/-- `_full`. -/
def Tracker.full (m : Tracker) (head : Nat) : Prop :=
  m.limit ≤ head - m.tail ∨ NSEG - 1 ≤ head / SEG - m.segLo

instance (m : Tracker) (head : Nat) : Decidable (m.full head) := by
  unfold Tracker.full
  infer_instance

/-- The driver reports the event complete: the device has passed its last
record. -/
def Tracker.complete (m : Tracker) (event : Int) : Prop :=
  ∀ i, m.recordedAt event = some i → i < m.completed

instance (m : Tracker) (event : Int) : Decidable (m.complete event) :=
  match h : m.recordedAt event with
  | none => isTrue (by intro i hi; rw [h] at hi; cases hi)
  | some j =>
      if hj : j < m.completed then
        isTrue (by intro i hi; rw [h] at hi; cases hi; exact hj)
      else isFalse (fun hall => hj (hall j h))

/-! ## Retirement -/

/-- The caller of a retirement. -/
inductive Kind where
  /-- `_retire_now`. -/
  | now
  /-- `_poll_tracker`. -/
  | poll
  /-- One round of `_drain`. -/
  | drain
  deriving DecidableEq, Repr

/-- One attempt to retire: its snapshot of the queue, and (history) the index, the
event and the answer of each query it made. -/
structure Attempt where
  kind : Kind
  tail : Nat
  head : Nat
  asked : List (Nat × Int × Int)
  deriving DecidableEq, Repr

/-- Which event `_boundary` is about to ask for. -/
inductive Probe where
  | newest
  | mid (lo hi : Nat)
  deriving DecidableEq, Repr

/-- The index whose event is asked for. -/
def Probe.index (head : Nat) : Probe → Nat
  | .newest => head - 1
  | .mid lo hi => (lo + hi) / 2

/-- The entries below this index are known to be complete. -/
def Probe.found (tail : Nat) : Probe → Nat
  | .newest => tail
  | .mid lo _ => lo

/-- The control location inside a retirement. -/
inductive Retire where
  /-- `_drain`: about to load `T_FAULT`, then `T_ASYNC`. -/
  | drainFault
  | drainAsync
  | loadTail (kind : Kind)
  | loadHead (kind : Kind) (tail : Nat)
  /-- `_boundary`: about to load the segment, the event, and to query it. -/
  | askSeg (a : Attempt) (p : Probe)
  | askEvent (a : Attempt) (p : Probe) (seg : Nat)
  | askQuery (a : Attempt) (p : Probe) (event : Int)
  /-- `_boundary` returned `Boundary(stop, rc)`. -/
  | decided (a : Attempt) (stop : Nat) (rc : Int)
  /-- About to load the segment and the `S_SEQ` of the last entry to retire. -/
  | seqSeg (a : Attempt) (stop : Nat)
  | seqLoad (a : Attempt) (stop seg : Nat)
  /-- About to compare-exchange `T_TAIL`. -/
  | cas (a : Attempt) (stop : Nat) (seq : Int)
  | storeDone (seq : Int)
  deriving DecidableEq, Repr

/-- The head of `_boundary`'s binary search loop. -/
def Attempt.search (a : Attempt) (lo hi : Nat) : Retire :=
  if lo < hi then .askSeg a (.mid lo hi) else .decided a lo 0

/-- `_boundary` after a query of the probed event. -/
def Attempt.answer (a : Attempt) (p : Probe) (rc : Int) : Retire :=
  if rc = 0 then
    match p with
    | .newest => .decided a a.head 0
    | .mid lo hi => a.search ((lo + hi) / 2 + 1) hi
  else if rc = notReady then
    match p with
    | .newest => a.search a.tail (a.head - 1)
    | .mid lo hi => a.search lo ((lo + hi) / 2)
  else .decided a (p.found a.tail) rc

/-- One step of a retirement other than a query; `none` inside when it ends. -/
def retireStep : Retire → Tracker → Option Retire × Tracker
  | .drainFault, m => (if m.fault = 0 then some .drainAsync else none, m)
  | .drainAsync, m => (if m.async = 0 then some (.loadTail .drain) else none, m)
  | .loadTail kind, m => (some (.loadHead kind m.tail), m)
  | .loadHead kind tail, m =>
      (if tail = m.head then none
        else some (.askSeg { kind, tail, head := m.head, asked := [] } .newest), m)
  | .askSeg a p, m => (some (.askEvent a p (m.segOf (p.index a.head))), m)
  | .askEvent a p seg, m =>
      let event := m.slots seg (p.index a.head % SEG) .event
      (some (if event = 0 then .decided a (p.found a.tail) 0 else .askQuery a p event), m)
  | .askQuery a p event, m => (some (.askQuery a p event), m)
  | .decided a stop rc, m =>
      -- `_drain` gives up on any error; `_poll_tracker` stops at driver teardown and
      -- looks at the tail again
      (if (a.kind = .drain ∧ rc ≠ 0) ∨ (a.kind = .poll ∧ (teardown rc ∨ m.tail ≠ a.tail)) ∨
          stop ≤ a.tail then none
        else some (.seqSeg a stop), m)
  | .seqSeg a stop, m => (some (.seqLoad a stop (m.segOf (stop - 1))), m)
  | .seqLoad a stop seg, m => (some (.cas a stop (m.slots seg ((stop - 1) % SEG) .seq)), m)
  | .cas a stop seq, m =>
      if m.tail = a.tail then
        (some (.storeDone seq),
          { m with tail := stop, retirements := m.retirements ++ [(a.tail, stop)] })
      else (none, m)
  | .storeDone seq, m => (none, { m with done := max m.done seq })

/-! ## Commits -/

/-- The arguments of `watch_commit` and what it has read of them so far. -/
structure Commit where
  entry : Entry
  /-- The flight recorder entry. -/
  fr : Int
  seq : Int
  head : Nat
  deriving DecidableEq, Repr

/-- The slot a commit writes: its segment, its event, the version found in it and
the host time. -/
structure Target where
  seg : Nat
  event : Int
  ver : Int
  now : Int
  deriving DecidableEq, Repr

/-- The two calls of `_unmap_retired`. -/
inductive Unmap where
  /-- In `watch_commit`, before the second look at `_full`. -/
  | recheck
  /-- In `_map_segment`, before a segment is taken. -/
  | take
  deriving DecidableEq, Repr

/-- Where a retirement returns to. -/
inductive Back where
  | idle
  | unmap (c : Commit) (u : Unmap)
  deriving DecidableEq, Repr

/-- The control location of a thread. -/
inductive Pc where
  | idle
  | retire (r : Retire) (back : Back)
  | commitFault (entry : Entry) (fr : Int)
  | commitClaimed (entry : Entry) (fr : Int)
  | commitSeq (entry : Entry) (fr : Int)
  | commitHead (entry : Entry) (fr seq : Int)
  | commitFull (c : Commit)
  | unmapTail (c : Commit) (u : Unmap)
  | unmapLoop (c : Commit) (u : Unmap) (tail : Nat)
  | recheckFull (c : Commit)
  | mapLook (c : Commit)
  | mapTail (c : Commit)
  | mapTake (c : Commit)
  | slotSeg (c : Commit)
  | slotEvent (c : Commit) (seg : Nat)
  | createEvent (c : Commit) (seg : Nat)
  | record (c : Commit) (seg : Nat) (event : Int)
  | storeFault (rc : Int)
  | loadVer (c : Commit) (seg : Nat) (event : Int)
  | storing (c : Commit) (t : Target) (stores : List (Word × Int))
  | publish (c : Commit) (t : Target)
  | leave

/-- Where the code goes on after a retirement. -/
def Back.pc : Back → Pc
  | .idle => .idle
  | .unmap c u => .unmapTail c u

/-- Where the code goes on after `_unmap_retired`. -/
def Unmap.pc (c : Commit) : Unmap → Pc
  | .recheck => .recheckFull c
  | .take => .mapTake c

/-- The stores of a commit into its slot, in order. -/
def Commit.stores (c : Commit) (t : Target) : List (Word × Int) :=
  [(.ver, t.ver + 1), (.seq, c.seq), (.op, c.entry.op), (.nops, c.entry.nops),
    (.count, c.entry.count), (.dtype, c.entry.dtype), (.root, c.entry.root),
    (.redop, c.entry.redop), (.fp, (c.entry.fp % 2 ^ 62 : Nat)), (.issued, t.now),
    (.cpos, c.entry.cpos), (.fr, c.fr), (.ver, t.ver + 2)]

/-- The record a commit is for. -/
def Commit.record (c : Commit) (t : Target) : Slot
  | .ver => t.ver + 2
  | .seq => c.seq
  | .op => c.entry.op
  | .nops => c.entry.nops
  | .count => c.entry.count
  | .dtype => c.entry.dtype
  | .root => c.entry.root
  | .redop => c.entry.redop
  | .fp => (c.entry.fp % 2 ^ 62 : Nat)
  | .issued => t.now
  | .event => t.event
  | .cpos => c.entry.cpos
  | .fr => c.fr

/-- Store one word of a slot. -/
def Tracker.store (m : Tracker) (seg off : Nat) (w : Word) (x : Int) : Tracker :=
  { m with slots := fun s o => if s = seg ∧ o = off
      then Function.update (m.slots s o) w x else m.slots s o }

/-- The accesses and choices of a thread. -/
inductive Action where
  | commit (entry : Entry) (fr : Int)
  /-- The next access of the code, where nothing is to be chosen. -/
  | tick
  /-- The driver's answers: event creation, event record, event query. -/
  | create (ok : Bool)
  | record (rc : Int)
  | query (rc : Int)
  /-- The host clock at the store of `S_ISSUED`. -/
  | stamp (now : Int)
  /-- A retirement by the watchdog, a drain or the exit path. -/
  | retire (kind : Kind)
  /-- The device passes one more record of the comm stream. -/
  | complete
  /-- `watch_fault`, an asynchronous error, a claim of the communicator. -/
  | fault (rc : Int)
  | async (rc : Int)
  | claim
  /-- `watch_test_limit`. -/
  | limit (entries : Nat)
  deriving DecidableEq, Repr

/-- The first location of a retirement. -/
def Kind.start : Kind → Retire
  | .drain => .drainFault
  | kind => .loadTail kind

/-- What happens around the queue: the device, faults, a claim. -/
def outside : Action → Tracker → Option Tracker
  | .complete, m =>
      if m.completed < m.recorded then some { m with completed := m.completed + 1 } else none
  | .fault rc, m => some { m with fault := if m.fault = 0 then rc else m.fault }
  | .async rc, m => some { m with async := rc }
  | .claim, m => some { m with claimed := true }
  | .limit entries, m =>
      some { m with limit := max (min entries ((NSEG - 1) * SEG)) 1 }
  | _, _ => none

/-- The accesses of `watch_commit`, `_map_segment` and `_unmap_retired` that
choose nothing. -/
def commitStep : Pc → Tracker → Option (Pc × Tracker)
  | .commitFault e fr, m =>
      some (if m.fault ≠ 0 then .leave else .commitClaimed e fr, m)
  | .commitClaimed e fr, m => some (if m.claimed then .leave else .commitSeq e fr, m)
  | .commitSeq e fr, m => some (.commitHead e fr (m.seq + 1), { m with seq := m.seq + 1 })
  | .commitHead e fr seq, m => some (.commitFull { entry := e, fr, seq, head := m.head }, m)
  | .commitFull c, m =>
      some (if m.full c.head then .retire (.loadTail .now) (.unmap c .recheck)
        else .mapLook c, m)
  | .unmapTail c u, m => some (.unmapLoop c u m.tail, m)
  | .unmapLoop c u tail, m =>
      if m.segLo < c.head / SEG ∧ (m.segLo + 1) * SEG ≤ tail then
        let seg := m.segs (m.segLo % NSEG)
        some (.unmapLoop c u tail,
          { m with
            segs := Function.update m.segs (m.segLo % NSEG) 0
            pool := if seg = 0 then m.pool else seg :: m.pool
            segLo := m.segLo + 1 })
      else some (u.pc c, m)
  | .recheckFull c, m =>
      if m.full c.head then some (.leave, { m with overflowing := true })
      else some (.mapLook c, m)
  | .mapLook c, m =>
      some (if m.segOf c.head = 0 then .mapTail c else .slotSeg c,
        { m with overflowing := false })
  | .mapTail c, m =>
      some (if m.segLo < c.head / SEG ∧ m.tail < (m.segLo + 1) * SEG
        then .retire (.loadTail .now) (.unmap c .take) else .unmapTail c .take, m)
  | .mapTake c, m =>
      match m.pool with
      | seg :: pool =>
          some (.slotSeg c,
            { m with segs := Function.update m.segs (c.head / SEG % NSEG) seg, pool })
      | [] =>
          some (.slotSeg c,
            { m with
              segs := Function.update m.segs (c.head / SEG % NSEG) m.nextSeg
              nextSeg := m.nextSeg + 1 })
  | .slotSeg c, m => some (.slotEvent c (m.segOf c.head), m)
  | .slotEvent c seg, m =>
      let event := m.slots seg (c.head % SEG) .event
      some (if event = 0 then .createEvent c seg else .record c seg event, m)
  | .storeFault rc, m =>
      some (.leave, { m with fault := if m.fault = 0 then rc else m.fault })
  | .storing c t ((w, x) :: stores), m =>
      some (.storing c t stores, m.store t.seg (c.head % SEG) w x)
  | .storing c t [], m => some (.publish c t, m)
  | .publish c t, m =>
      some (.leave, { m with head := c.head + 1, log := m.log ++ [c.record t] })
  | .leave, m => some (.idle, { m with locked := false })
  | _, _ => none

/-- One atomic step of a thread. -/
def atom : Pc → Action → Tracker → Option (Pc × Tracker)
  | .idle, .commit e fr, m =>
      if m.locked then none else some (.commitFault e fr, { m with locked := true })
  | .idle, .retire kind, m => some (.retire kind.start .idle, m)
  | .idle, a, m => (outside a m).map fun m' => (.idle, m')
  | .retire (.askQuery a p event) back, .query rc, m =>
      -- the driver answers 0 for a complete event and not-ready for another
      if (rc = 0 ∧ ¬ m.complete event) ∨ (rc = notReady ∧ m.complete event) then none
      else some (.retire
        ({ a with asked := (p.index a.head, event, rc) :: a.asked }.answer p rc) back, m)
  | .retire (.askQuery _ _ _) _, _, _ => none
  | .retire r back, .tick, m =>
      match retireStep r m with
      | (some r', m') => some (.retire r' back, m')
      | (none, m') => some (back.pc, m')
  | .createEvent c seg, .create ok, m =>
      if ok then
        some (.record c seg m.nextEvent,
          { m.store seg (c.head % SEG) .event m.nextEvent with nextEvent := m.nextEvent + 1 })
      else some (.storeFault (-1), m)
  | .record c seg event, .record rc, m =>
      if rc = 0 then
        some (.loadVer c seg event,
          { m with
            recordedAt := Function.update m.recordedAt event (some m.recorded)
            recorded := m.recorded + 1 })
      else some (.storeFault rc, m)
  | .loadVer c seg event, .stamp now, m =>
      let t : Target := { seg, event, ver := m.slots seg (c.head % SEG) .ver, now }
      some (.storing c t (c.stores t), m)
  | p, .tick, m => commitStep p m
  | _, _, _ => none

/-- The program of every thread of the process, for one tracker. -/
def program : Program Tracker Pc Action where
  start := .idle
  boot := Tracker.boot
  atom := atom

/-- All interleavings of commits, retirements and the device. -/
def queue (Thread : Type) [DecidableEq Thread] :
    System (Config Thread Tracker Pc) (Thread × Action) :=
  program.system Thread

end TorchMojoBackend.Watchdog.Queue
