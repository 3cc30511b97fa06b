/-
  `Distributed.DumpSignal`: the dump signal among the ranks of one store.

  A signaller increments the generation counter and then sets torch's dump key.
  The monitor of every rank reads the key before the counter, claims what it sees,
  dumps and sets an acknowledgement key for each generation; the incident threads
  of a rank do so for the generation they took.  Requests run on a worker whose
  thread gives up after a while: an acknowledgement can reach the store long after
  its thread has gone on, and a signal can take a generation nobody waits for.

  The store is not restarted here; what a restart does to the bookkeeping of one
  process is in `Distributed.Poller`.
-/
import TorchMojoBackend.Distributed.Poller

set_option autoImplicit false

namespace TorchMojoBackend.Distributed

open TorchMojoBackend.Foundation

/-! ## The store and the ranks -/

/-- An `ack_dump` request of `rank`: the generations whose key it still has to set,
and whether it raised. -/
structure AckJob (Rank : Type) where
  rank : Rank
  left : Finset Nat
  raised : Bool

/-- How far the request a thread waits for has come. -/
inductive Reply (Nonce : Type) where
  | none
  /-- the poll has read torch's key -/
  | key (hasKey : Bool)
  | seen (s : Seen Nonce)
  /-- the signal has taken its generation -/
  | taken (g : Nat)
  | signalled (g : Nat)
  /-- the `n`th `ack_dump` request -/
  | acking (n : Nat)

/-- The store, the processes and the requests under way.  `start` holds the counter
when the last dump of a thread started, `written` the dumps written with it. -/
structure World (Nonce Thread Rank : Type) where
  nonce : Nonce
  gen : Nat
  dumpKey : Bool
  acks : List (Nat × Rank)
  procs : Rank → Process Nonce Unit Thread
  reply : Rank → Thread → Reply Nonce
  jobs : List (AckJob Rank)
  start : Rank → Thread → Nat
  written : List (Rank × Nat)

/-- The thread a step of a process belongs to. -/
def ProcessEvent.thread? {Nonce Key Thread : Type} :
    ProcessEvent Nonce Key Thread → Option Thread
  | .attach .. | .detach _ => none
  | .poll t .. | .answer t .. | .reacked t _ | .signal t _ | .signalled t .. | .startDump t
  | .endDump t _ | .finish t .. => some t

inductive WorldEvent (Nonce Thread Rank : Type) where
  /-- a step of one process -/
  | proc (r : Rank) (e : ProcessEvent Nonce Unit Thread)
  /-- the poll of a thread reads torch's key, then the counter -/
  | readKey (r : Rank) (t : Thread)
  | readGen (r : Rank) (t : Thread)
  /-- `signal_dump` takes a generation, then sets torch's key -/
  | take (r : Rank) (t : Thread)
  | setKey (r : Rank) (t : Thread)
  /-- a signal whose thread gave up, or of a process without a monitor -/
  | strayTake
  | strayKey
  /-- a thread sends its `ack_dump` -/
  | sendAcks (r : Rank) (t : Thread)
  /-- an `ack_dump` sets the key of one of its generations, or raises -/
  | setAck (n : Nat) (g : Nat)
  | failAcks (n : Nat)

variable {Nonce Thread Rank : Type}

section Steps

variable [DecidableEq Nonce] [DecidableEq Thread] [DecidableEq Rank]

namespace World

def setReply (w : World Nonce Thread Rank) (r : Rank) (t : Thread) (reply : Reply Nonce) :
    World Nonce Thread Rank :=
  { w with reply := Function.update w.reply r (Function.update (w.reply r) t reply) }

/-- The `ack_dump` a thread waits for has set all its keys. -/
def Acked (w : World Nonce Thread Rank) (r : Rank) (t : Thread) : Bool :=
  match w.reply r t with
  | .acking n => (w.jobs[n]?).any fun job => decide (job.left = ∅) && !job.raised
  | _ => false

/-- The store answers a step of a process this way.  A request can fail at any
time; the baseline `attach` reads may be an old one when it is applied. -/
def Admits (w : World Nonce Thread Rank) (r : Rank) : ProcessEvent Nonce Unit Thread → Bool
  | .attach _ _ (some seen) => decide (seen.nonce = w.nonce) && decide (seen.gen ≤ w.gen)
  | .answer t _ _ (some seen) =>
    match w.reply r t with
    | .seen s => decide (s = seen)
    | _ => false
  | .signalled t _ (some gen) =>
    match w.reply r t with
    | .signalled g => decide (g = gen)
    | _ => false
  | .reacked t true => w.Acked r t
  | .finish t _ true => w.Acked r t
  | _ => true

/-- What the histories record of a step. -/
def note (w : World Nonce Thread Rank) (r : Rank) :
    ProcessEvent Nonce Unit Thread → World Nonce Thread Rank
  | .startDump t =>
    { w with start := Function.update w.start r (Function.update (w.start r) t w.gen) }
  | .endDump t true => { w with written := (r, w.start r t) :: w.written }
  | _ => w

/-- The generations a thread is to acknowledge now. -/
def toAck (w : World Nonce Thread Rank) (r : Rank) (t : Thread) : Option (Finset Nat) :=
  match (w.procs r).pc t with
  | .reacking unacked _ => some unacked
  | .dumped c true => if c.acks = ∅ then none else some c.acks
  | _ => none

end World

/-- A thread's step uses up the answer it waited for. -/
def World.clear (w : World Nonce Thread Rank) (r : Rank) (e : ProcessEvent Nonce Unit Thread) :
    World Nonce Thread Rank :=
  match e.thread? with
  | none => w
  | some t => w.setReply r t .none

def worldNext (timing : Timing) (w : World Nonce Thread Rank) :
    WorldEvent Nonce Thread Rank → Option (World Nonce Thread Rank)
  | .proc r e =>
    if w.Admits r e then
      (processNext timing (w.procs r) e).map fun p =>
        { (w.note r e).clear r e with procs := Function.update w.procs r p }
    else none
  | .readKey r t =>
    match (w.procs r).pc t, w.reply r t with
    | .polling _ _, .none => some (w.setReply r t (.key w.dumpKey))
    | _, _ => none
  | .readGen r t =>
    match w.reply r t with
    | .key hasKey => some (w.setReply r t (.seen ⟨w.nonce, hasKey, w.gen⟩))
    | _ => none
  | .take r t =>
    match (w.procs r).pc t, w.reply r t with
    | .signalling _, .none =>
      some { w.setReply r t (.taken (w.gen + 1)) with gen := w.gen + 1 }
    | _, _ => none
  | .setKey r t =>
    match w.reply r t with
    | .taken g => some { w.setReply r t (.signalled g) with dumpKey := true }
    | _ => none
  | .strayTake => some { w with gen := w.gen + 1 }
  | .strayKey => some { w with dumpKey := true }
  | .sendAcks r t =>
    match w.toAck r t, w.reply r t with
    | some gens, .none =>
      some { w.setReply r t (.acking w.jobs.length) with
        jobs := w.jobs ++ [⟨r, gens, false⟩] }
    | _, _ => none
  | .setAck n g =>
    match w.jobs[n]? with
    | some job =>
      if g ∈ job.left ∧ job.raised = false then
        some { w with
          jobs := w.jobs.set n { job with left := job.left.erase g }
          acks := (g, job.rank) :: w.acks }
      else none
    | none => none
  | .failAcks n =>
    match w.jobs[n]? with
    | some job => some { w with jobs := w.jobs.set n { job with raised := true } }
    | none => none

/-- Any number of ranks on one store, which starts without acknowledgements and with
the counter an earlier job left. -/
def dumpSignal (timing : Timing) :
    System (World Nonce Thread Rank) (WorldEvent Nonce Thread Rank) where
  Init w := w.acks = [] ∧ w.jobs = [] ∧ (∀ r, w.procs r = .start) ∧ (∀ r t, w.reply r t = .none)
  next := worldNext timing

end Steps

/-! ## What a process knows of its generations

`F` is what is known of every generation a process claims, `U` of those its dumps
covered; `start` is the counter at the start of a thread's dump. -/

section Bounds

variable {Key : Type} {F U : Nat → Prop}

structure StoreState.Bounded (F U : Nat → Prop) (st : StoreState Nonce) : Prop where
  failed : ∀ g ∈ st.failed, F g
  unacked : ∀ g ∈ st.unacked, U g

/-- A fact about every generation a claim takes or acknowledges. -/
def Claim.All (P : Nat → Prop) (c : Claim Key) : Prop :=
  (∀ g ∈ c.gens, P g) ∧ ∀ g ∈ c.acks, P g

theorem Claim.All.mono {P Q : Nat → Prop} (hPQ : ∀ g, P g → Q g) {c : Claim Key}
    (h : c.All P) : c.All Q :=
  ⟨fun g hg => hPQ g (h.1 g hg), fun g hg => hPQ g (h.2 g hg)⟩

def Pc.Bounded (F U : Nat → Prop) (start : Nat) : Pc Key → Prop
  | .reacking unacked c => (∀ g ∈ unacked, U g) ∧ c.All F
  | .claimed c => c.All F
  | .dumping c => c.All F ∧ c.All (· ≤ start)
  | .dumped c ok => c.All F ∧ (ok = true → c.All U)
  | _ => True

structure Process.Bounded (F U : Nat → Prop) (start : Thread → Nat)
    (p : Process Nonce Key Thread) : Prop where
  objects : ∀ st ∈ p.objects, st.Bounded F U
  pcs : ∀ t, (p.pc t).Bounded F U (start t)

theorem StoreState.Bounded.mono {F' U' : Nat → Prop} (hF : ∀ g, F g → F' g)
    (hU : ∀ g, U g → U' g) {st : StoreState Nonce} (h : st.Bounded F U) : st.Bounded F' U' :=
  ⟨fun g hg => hF g (h.failed g hg), fun g hg => hU g (h.unacked g hg)⟩

theorem Pc.Bounded.mono {F' U' : Nat → Prop} (hF : ∀ g, F g → F' g) (hU : ∀ g, U g → U' g)
    {start : Nat} {pc : Pc Key} (h : pc.Bounded F U start) : pc.Bounded F' U' start := by
  cases pc with
  | idle | polling | signalling => trivial
  | reacking unacked c => exact ⟨fun g hg => hU g (h.1 g hg), h.2.mono hF⟩
  | claimed c => exact Claim.All.mono hF h
  | dumping c => exact ⟨h.1.mono hF, h.2⟩
  | dumped c ok => exact ⟨h.1.mono hF, fun hok => (h.2 hok).mono hU⟩

theorem Process.Bounded.mono {F' U' : Nat → Prop} (hF : ∀ g, F g → F' g)
    (hU : ∀ g, U g → U' g) {start : Thread → Nat} {p : Process Nonce Key Thread}
    (h : p.Bounded F U start) : p.Bounded F' U' start :=
  ⟨fun st hst => (h.objects st hst).mono hF hU, fun t => (h.pcs t).mono hF hU⟩

theorem Claim.pc_bounded {c : Claim Key} (h : c.All F) (start : Nat) :
    c.pc.Bounded F U start := by
  unfold Claim.pc
  split
  · exact h
  · trivial

/-! ### The operations of a state -/

namespace StoreState

theorem init_bounded (nonce : Option Nonce) (base : Option Nat) (torchSeen : Bool) :
    (init nonce base torchSeen).Bounded F U :=
  ⟨fun g hg => absurd hg (Finset.notMem_empty g), fun g hg => absurd hg (Finset.notMem_empty g)⟩

theorem Like.bounded {st st' : StoreState Nonce} (hl : Like st st') (h : st.Bounded F U) :
    st'.Bounded F U :=
  ⟨fun g hg => h.failed g (hl.failed ▸ hg), fun g hg => h.unacked g (hl.unacked hg)⟩

/-- A claim takes failed generations and positive ones up to its bound. -/
theorem claim_bounded {st : StoreState Nonce} (h : st.Bounded F U) (now : Nat) {upto : Nat}
    (hupto : ∀ g, 0 < g → g ≤ upto → F g) :
    (∀ g ∈ (st.claim now upto).1, F g) ∧ (st.claim now upto).2.Bounded F U := by
  unfold claim
  split
  · exact ⟨fun g hg => absurd hg (Finset.notMem_empty g), h⟩
  · dsimp only
    refine ⟨fun g hg => ?_, fun g hg => ?_, h.unacked⟩
    · obtain hnew | hretry := Finset.mem_union.mp (Finset.mem_sdiff.mp hg).1
      · obtain ⟨hlt, hle⟩ := Finset.mem_Ioc.mp hnew
        exact hupto g (by omega) hle
      · split at hretry
        · exact h.failed g hretry
        · exact absurd hretry (Finset.notMem_empty g)
    · split at hg
      · exact absurd hg (Finset.notMem_empty g)
      · exact h.failed g hg

theorem serve_bounded {st : StoreState Nonce} (h : st.Bounded F U) (now : Nat)
    {seen : Seen Nonce} (hseen : ∀ g, 0 < g → g ≤ seen.gen → F g) :
    (∀ g ∈ (st.serve now seen).1, F g) ∧ (st.serve now seen).2.2.Bounded F U := by
  have hst : StoreState.Bounded F U
      (if some seen.gen ≠ st.first then { st with torchSeen := true } else st) := by
    split
    · exact ⟨h.failed, h.unacked⟩
    · exact h
  exact claim_bounded hst now hseen

theorem compact_bounded {st : StoreState Nonce} (h : st.Bounded F U) : st.compact.Bounded F U := by
  unfold compact
  split
  · exact h
  · exact ⟨h.failed, h.unacked⟩

/-- A failed dump leaves its generations to retry, a written one perhaps to
acknowledge. -/
theorem finish_bounded (timing : Timing) {st : StoreState Nonce} (h : st.Bounded F U)
    (now : Nat) {gens : Finset Nat} {dumped : Bool} (hF : ∀ g ∈ gens, F g)
    (hU : dumped = true → ∀ g ∈ gens, U g) (acked : Bool) :
    (st.finish timing now gens dumped acked).Bounded F U := by
  unfold finish
  split
  · exact h
  · cases dumped with
    | false =>
        refine (backoff_like timing _ now false).bounded ⟨fun g hg => ?_, h.unacked⟩
        exact (Finset.mem_union.mp hg).elim (h.failed g) (hF g)
    | true =>
        have hcompact : StoreState.Bounded F U (compact { st with
            pending := st.pending \ gens, failed := st.failed \ gens
            done := st.done ∪ gens, dumpBackoff := 0 }) :=
          compact_bounded ⟨fun g hg => h.failed g (Finset.mem_sdiff.mp hg).1, h.unacked⟩
        cases acked with
        | true => exact hcompact
        | false =>
            refine ⟨hcompact.failed, fun g hg => ?_⟩
            exact (Finset.mem_union.mp hg).elim (hcompact.unacked g) (hU rfl g)

end StoreState

/-! ### The operations of a process -/

namespace Process

variable {p : Process Nonce Key Thread} {start : Thread → Nat}

theorem Bounded.pc (h : p.Bounded F U start) {t : Thread} {pc : Pc Key} (hpc : p.pc t = pc) :
    pc.Bounded F U (start t) :=
  hpc ▸ h.pcs t

theorem Bounded.setObject (h : p.Bounded F U start) (i : Nat) {st : StoreState Nonce}
    (hst : st.Bounded F U) : (p.setObject i st).Bounded F U start := by
  refine ⟨fun st' hst' => ?_, h.pcs⟩
  obtain hold | rfl := List.mem_or_eq_of_mem_set hst'
  · exact h.objects st' hold
  · exact hst

theorem Bounded.addState [DecidableEq Key] (h : p.Bounded F U start) (key : Key)
    (nonce : Option Nonce) (base : Option Nat) (torchSeen : Bool) :
    (p.addState key (.init nonce base torchSeen)).Bounded F U start := by
  refine ⟨fun st hst => ?_, h.pcs⟩
  obtain hold | hnew := List.mem_append.mp hst
  · exact h.objects st hold
  · rw [List.mem_singleton.mp hnew]
    exact StoreState.init_bounded nonce base torchSeen

theorem Bounded.setPc [DecidableEq Thread] (h : p.Bounded F U start) (t : Thread) {pc : Pc Key}
    (hpc : pc.Bounded F U (start t)) : (p.setPc t pc).Bounded F U start := by
  refine ⟨h.objects, fun v => ?_⟩
  by_cases hv : v = t
  · subst hv
    rw [setPc_pc_self]
    exact hpc
  · rw [setPc_pc_of_ne hv]
    exact h.pcs v

theorem Bounded.attach [DecidableEq Nonce] [DecidableEq Key] (h : p.Bounded F U start)
    (group : Nat) (key : Key) (read : Option (Seen Nonce)) :
    (p.attach group key read).Bounded F U start := by
  have hgroups : Process.Bounded F U start
      { p with groups := (group, key) :: p.groups.filter fun e => e.1 ≠ group } :=
    ⟨h.objects, h.pcs⟩
  unfold Process.attach
  dsimp only
  split
  · exact hgroups.addState ..
  · exact hgroups.addState ..
  · split
    · exact hgroups.addState ..
    · split
      · exact hgroups
      · exact hgroups.addState ..
  · exact hgroups

theorem Bounded.detach [DecidableEq Key] (h : p.Bounded F U start) (group : Nat) :
    (p.detach group).Bounded F U start := by
  unfold Process.detach
  split
  · exact h
  · exact ⟨h.objects, h.pcs⟩

theorem Bounded.locate [DecidableEq Nonce] [DecidableEq Key] (h : p.Bounded F U start)
    (key : Key) (i : Nat) {st : StoreState Nonce} (hst : st.Bounded F U) (seen : Seen Nonce) :
    (p.locate key i st seen).1.Bounded F U start ∧
      ∀ i' st', (p.locate key i st seen).2 = some (i', st') → st'.Bounded F U := by
  unfold Process.locate
  split
  · exact ⟨h.addState .., fun i' st' he => nomatch he⟩
  · split
    · refine ⟨h, fun i' st' he => ?_⟩
      cases he
      exact hst
    · refine ⟨h.addState .., fun i' st' he => ?_⟩
      cases he
      exact StoreState.init_bounded ..

theorem Bounded.answer [DecidableEq Nonce] [DecidableEq Key] (timing : Timing)
    (h : p.Bounded F U start) (key : Key) (i now : Nat) (stuck : Bool)
    {seen : Option (Seen Nonce)} (hseen : ∀ s, seen = some s → ∀ g, 0 < g → g ≤ s.gen → F g)
    (start' : Nat) :
    (p.answer timing key i now stuck seen).1.Bounded F U start ∧
      (p.answer timing key i now stuck seen).2.Bounded F U start' := by
  unfold Process.answer
  split
  · exact ⟨h, trivial⟩
  · rename_i st hst
    have hbound := h.objects st (List.mem_of_getElem? hst)
    split
    · exact ⟨h, trivial⟩
    · exact ⟨h.setObject i ((StoreState.pollFailed_like timing st now).bounded hbound), trivial⟩
  · rename_i st s hst
    have hbound : StoreState.Bounded F U { st with pollBackoff := 0 } :=
      ⟨(h.objects st (List.mem_of_getElem? hst)).failed,
        (h.objects st (List.mem_of_getElem? hst)).unacked⟩
    split
    · exact ⟨h, trivial⟩
    · obtain ⟨hloc, hfound⟩ := (h.setObject i hbound).locate key i hbound s
      dsimp only
      generalize (p.setObject i { st with pollBackoff := 0 }).locate key i
        { st with pollBackoff := 0 } s = found at hloc hfound
      obtain ⟨q, r⟩ := found
      cases r with
      | none => exact ⟨hloc, trivial⟩
      | some found =>
          obtain ⟨i', st'⟩ := found
          obtain ⟨hgens, hst'⟩ :=
            StoreState.serve_bounded (hfound i' st' rfl) now (hseen s rfl)
          refine ⟨hloc.setObject i' hst', ?_⟩
          dsimp only
          split
          · exact Claim.pc_bounded ⟨hgens, hgens⟩ start'
          · exact ⟨hst'.unacked, hgens, hgens⟩

theorem Bounded.claim (h : p.Bounded F U start) (key : Key) (now : Nat) {gen : Option Nat}
    (hgen : ∀ g, gen = some g → ∀ g', 0 < g' → g' ≤ g → F g') :
    (p.claim key now gen).1.Bounded F U start ∧ (p.claim key now gen).2.All F := by
  have hnone : (⟨key, none, ∅, ∅, false⟩ : Claim Key).All F :=
    ⟨fun g hg => absurd hg (Finset.notMem_empty g), fun g hg => absurd hg (Finset.notMem_empty g)⟩
  unfold Process.claim
  split
  · exact ⟨h, hnone⟩
  · exact ⟨h, hnone⟩
  · rename_i g hzero
    have hpos : 0 < g := Nat.pos_of_ne_zero fun hg => hzero (hg ▸ rfl)
    have hself : F g := hgen g rfl g hpos le_rfl
    have hsingle : ∀ g' ∈ ({g} : Finset Nat), F g' := fun g' hg' =>
      Finset.mem_singleton.mp hg' ▸ hself
    split
    · exact ⟨h, hsingle, hsingle⟩
    · rename_i i st hst
      obtain ⟨i', -, hst'⟩ := Option.bind_eq_some_iff.mp hst
      obtain ⟨st'', hst'', heq⟩ := Option.map_eq_some_iff.mp hst'
      cases heq
      have hbound := h.objects st (List.mem_of_getElem? hst'')
      obtain ⟨hgens, hclaimed⟩ := StoreState.claim_bounded hbound now (hgen g rfl)
      refine ⟨h.setObject i hclaimed, hgens, fun g' hg' => ?_⟩
      obtain rfl | hg' := Finset.mem_insert.mp hg'
      · exact hself
      · exact hgens g' hg'

theorem Bounded.onState (h : p.Bounded F U start) (c : Claim Key)
    {f : StoreState Nonce → StoreState Nonce}
    (hf : ∀ st : StoreState Nonce, st.Bounded F U → (f st).Bounded F U) :
    (p.onState c f).Bounded F U start := by
  unfold Process.onState
  split
  · exact h
  · rename_i i st hst
    obtain ⟨i', -, hst'⟩ := Option.bind_eq_some_iff.mp hst
    obtain ⟨st'', hst'', heq⟩ := Option.map_eq_some_iff.mp hst'
    cases heq
    exact h.setObject i (hf st (h.objects st (List.mem_of_getElem? hst'')))

theorem Bounded.finish (timing : Timing) (h : p.Bounded F U start) {c : Claim Key} {ok : Bool}
    (hc : (Pc.dumped c ok).Bounded F U 0) (now : Nat) (acked : Bool) :
    (p.finish timing c now ok acked).Bounded F U start := by
  refine h.onState c fun st hst => ?_
  split
  · exact (StoreState.torchDone_like timing st now ok).bounded hst
  · exact StoreState.finish_bounded timing hst now hc.1.1 (fun hok => (hc.2 hok).1) _

/-- What a step is told: answers of the store speak of generations taken, a dump
starts after the generations known, and a written dump covers what its start did. -/
structure Told (F U : Nat → Prop) (start start' : Thread → Nat)
    (e : ProcessEvent Nonce Key Thread) : Prop where
  answer : ∀ t now stuck s, e = .answer t now stuck (some s) → ∀ g, 0 < g → g ≤ s.gen → F g
  signalled : ∀ t now g, e = .signalled t now (some g) → ∀ g', 0 < g' → g' ≤ g → F g'
  startDump : ∀ t, e = .startDump t → ∀ g, F g → g ≤ start' t
  written : ∀ t, e = .endDump t true → ∀ g, F g → g ≤ start t → U g
  same : ∀ t, e ≠ .startDump t → start' t = start t

theorem Bounded.next [DecidableEq Nonce] [DecidableEq Key] [DecidableEq Thread]
    {timing : Timing} {start' : Thread → Nat} (h : p.Bounded F U start)
    {e : ProcessEvent Nonce Key Thread} (htold : Told F U start start' e)
    {q : Process Nonce Key Thread} (hnext : processNext timing p e = some q) :
    q.Bounded F U start' := by
  -- only a thread that starts its dump has a new start
  have hkeep : (∀ t, e ≠ .startDump t) → ∀ q : Process Nonce Key Thread,
      q.Bounded F U start → q.Bounded F U start' := by
    intro hne q hq
    rw [show start' = start from funext fun t => htold.same t (hne t)]
    exact hq
  cases e with
  | attach group key read =>
      cases hnext
      exact hkeep (fun t h => by cases h) _ (h.attach group key read)
  | detach group =>
      cases hnext
      exact hkeep (fun t h => by cases h) _ (h.detach group)
  | poll t key now =>
      refine hkeep (fun t h => by cases h) _ ?_
      simp only [processNext] at hnext
      split at hnext
      · obtain ⟨-, heq⟩ := Option.ite_none_right_eq_some.mp hnext
        cases heq
        exact h.setPc t trivial
      · cases hnext
  | answer t now stuck seen =>
      refine hkeep (fun t h => by cases h) _ ?_
      simp only [processNext] at hnext
      split at hnext
      · rename_i key i hpc
        cases hnext
        obtain ⟨hq, hto⟩ := h.answer timing key i now stuck
          (fun s (hs : seen = some s) => htold.answer t now stuck s (hs ▸ rfl)) (start t)
        exact hq.setPc t hto
      · cases hnext
  | reacked t ok =>
      refine hkeep (fun t h => by cases h) _ ?_
      simp only [processNext] at hnext
      split at hnext
      · rename_i unacked c hpc
        cases hnext
        have hc : (∀ g ∈ unacked, U g) ∧ c.All F := h.pc hpc
        have hq : Process.Bounded F U start (if ok then
            p.onState c fun st => { st with unacked := st.unacked \ unacked } else p) := by
          cases ok with
          | false => exact h
          | true => exact h.onState c fun st hst =>
              ⟨hst.failed, fun g hg => hst.unacked g (Finset.mem_sdiff.mp hg).1⟩
        exact hq.setPc t (Claim.pc_bounded hc.2 _)
      · cases hnext
  | signal t key =>
      refine hkeep (fun t h => by cases h) _ ?_
      obtain ⟨-, heq⟩ := Option.ite_none_right_eq_some.mp hnext
      cases heq
      exact h.setPc t trivial
  | signalled t now gen =>
      refine hkeep (fun t h => by cases h) _ ?_
      simp only [processNext] at hnext
      split at hnext
      · rename_i key hpc
        cases hnext
        obtain ⟨hq, hc⟩ := h.claim key now
          (fun g (hg : gen = some g) => htold.signalled t now g (hg ▸ rfl))
        exact hq.setPc t hc
      · cases hnext
  | startDump t =>
      simp only [processNext] at hnext
      split at hnext
      · rename_i c hpc
        cases hnext
        have hc : c.All F := h.pc hpc
        refine ⟨h.objects, fun v => ?_⟩
        by_cases hv : v = t
        · subst hv
          rw [setPc_pc_self]
          exact ⟨hc, hc.mono (htold.startDump v rfl)⟩
        · rw [setPc_pc_of_ne hv, htold.same v fun he => hv (ProcessEvent.startDump.inj he).symm]
          exact h.pcs v
      · cases hnext
  | endDump t ok =>
      refine hkeep (fun t h => by cases h) _ ?_
      simp only [processNext] at hnext
      split at hnext
      · rename_i c hpc
        cases hnext
        have hc : c.All F ∧ c.All (· ≤ start t) := h.pc hpc
        have hset : (p.setPc t (.dumped c ok)).Bounded F U start := by
          refine h.setPc t ⟨hc.1, ?_⟩
          rintro rfl
          have hwritten := htold.written t rfl
          exact ⟨fun g hg => hwritten g (hc.1.1 g hg) (hc.2.1 g hg),
            fun g hg => hwritten g (hc.1.2 g hg) (hc.2.2 g hg)⟩
        exact ⟨hset.objects, hset.pcs⟩
      · cases hnext
  | finish t now acked =>
      refine hkeep (fun t h => by cases h) _ ?_
      simp only [processNext] at hnext
      split at hnext
      · rename_i c ok hpc
        cases hnext
        have hc : (Pc.dumped c ok).Bounded F U 0 := h.pc hpc
        exact (h.finish timing hc now acked).setPc t trivial
      · cases hnext

end Process

end Bounds

/-! ## Every interleaving -/

namespace World

/-- A signaller has taken the generation. -/
def Taken (w : World Nonce Thread Rank) (g : Nat) : Prop :=
  0 < g ∧ g ≤ w.gen

/-- The rank has written a dump that started when the counter had reached `g`. -/
def Dumped (w : World Nonce Thread Rank) (r : Rank) (g : Nat) : Prop :=
  0 < g ∧ ∃ started, (r, started) ∈ w.written ∧ g ≤ started

def ReplyOk (w : World Nonce Thread Rank) : Reply Nonce → Prop
  | .seen s => s.gen ≤ w.gen
  | .taken g | .signalled g => g ≤ w.gen
  | _ => True

structure Inv (w : World Nonce Thread Rank) : Prop where
  procs : ∀ r, (w.procs r).Bounded w.Taken (w.Dumped r) (w.start r)
  reply : ∀ r t, w.ReplyOk (w.reply r t)
  jobs : ∀ job ∈ w.jobs, ∀ g ∈ job.left, w.Dumped job.rank g
  acks : ∀ g r, (g, r) ∈ w.acks → w.Dumped r g

theorem ReplyOk.mono {w v : World Nonce Thread Rank} (hgen : w.gen ≤ v.gen)
    {reply : Reply Nonce} (h : w.ReplyOk reply) : v.ReplyOk reply := by
  cases reply with
  | seen s => exact le_trans (show s.gen ≤ w.gen from h) hgen
  | taken g => exact le_trans (show g ≤ w.gen from h) hgen
  | signalled g => exact le_trans (show g ≤ w.gen from h) hgen
  | none | key | acking => trivial

/-- A step that leaves the processes and their dumps alone, and adds only what was
dumped to the requests and the acknowledgements. -/
theorem Inv.request {w w' : World Nonce Thread Rank} (h : w.Inv) (hprocs : w'.procs = w.procs)
    (hstart : w'.start = w.start) (hwritten : w'.written = w.written) (hgen : w.gen ≤ w'.gen)
    (hreply : ∀ r t, w'.ReplyOk (w'.reply r t))
    (hjobs : ∀ job ∈ w'.jobs, ∀ g ∈ job.left, w.Dumped job.rank g)
    (hacks : ∀ g r, (g, r) ∈ w'.acks → w.Dumped r g) : w'.Inv := by
  have hdumped : ∀ r g, w.Dumped r g → w'.Dumped r g := by
    intro r g hd
    unfold Dumped
    rw [hwritten]
    exact hd
  refine ⟨fun r => ?_, hreply, fun job hjob g hg => hdumped _ _ (hjobs job hjob g hg),
    fun g r hg => hdumped _ _ (hacks g r hg)⟩
  rw [hprocs, hstart]
  exact (h.procs r).mono (fun g hg => ⟨hg.1, hg.2.trans hgen⟩) (hdumped r)

variable [DecidableEq Thread] [DecidableEq Rank]

/-- The request of one thread moves on. -/
theorem Inv.replies {w w' : World Nonce Thread Rank} (h : w.Inv) {r : Rank} {t : Thread}
    {reply : Reply Nonce}
    (heq : w'.reply = (w.setReply r t reply).reply) (hgen : w.gen ≤ w'.gen)
    (hok : w'.ReplyOk reply) (v : Rank) (u : Thread) : w'.ReplyOk (w'.reply v u) := by
  rw [heq]
  by_cases hv : v = r
  · subst hv
    by_cases hu : u = t
    · subst hu
      simpa [setReply] using hok
    · simpa [setReply, hu] using (h.reply v u).mono hgen
  · simpa [setReply, hv] using (h.reply v u).mono hgen

/-- What a step of a process leaves alone. -/
structure Recorded (w w' : World Nonce Thread Rank) : Prop where
  gen : w'.gen = w.gen
  jobs : w'.jobs = w.jobs
  acks : w'.acks = w.acks
  written : ∀ x ∈ w.written, x ∈ w'.written

theorem recorded (w : World Nonce Thread Rank) (r : Rank) (e : ProcessEvent Nonce Unit Thread) :
    Recorded w ((w.note r e).clear r e) := by
  have hnote : Recorded w (w.note r e) := by
    unfold note
    split
    · exact ⟨rfl, rfl, rfl, fun _ hx => hx⟩
    · exact ⟨rfl, rfl, rfl, fun _ hx => List.mem_cons_of_mem _ hx⟩
    · exact ⟨rfl, rfl, rfl, fun _ hx => hx⟩
  unfold clear
  split
  · exact hnote
  · exact ⟨hnote.gen, hnote.jobs, hnote.acks, hnote.written⟩

/-- The answers of the other threads stay. -/
theorem clear_reply (w : World Nonce Thread Rank) (r : Rank)
    (e : ProcessEvent Nonce Unit Thread) (v : Rank) (t : Thread) :
    ((w.note r e).clear r e).reply v t = w.reply v t ∨
      ((w.note r e).clear r e).reply v t = .none := by
  have hnote : (w.note r e).reply = w.reply := by
    unfold note
    split <;> rfl
  unfold clear
  split
  · exact .inl (by rw [hnote])
  · rename_i u _
    by_cases hv : v = r
    · subst hv
      by_cases ht : t = u
      · subst ht
        exact .inr (by simp [setReply])
      · exact .inl (by simp [setReply, ht, hnote])
    · exact .inl (by simp [setReply, hv, hnote])

theorem clear_start (w : World Nonce Thread Rank) (r : Rank)
    (e : ProcessEvent Nonce Unit Thread) : (w.clear r e).start = w.start := by
  unfold clear
  split <;> rfl

/-- Only a thread that starts its dump has a new start. -/
theorem note_start (w : World Nonce Thread Rank) (r : Rank)
    (e : ProcessEvent Nonce Unit Thread) (v : Rank) (t : Thread)
    (h : v = r → e ≠ .startDump t) : (w.note r e).start v t = w.start v t := by
  unfold note
  split
  · rename_i u
    by_cases hv : v = r
    · subst hv
      have hu : t ≠ u := fun he => h rfl (he ▸ rfl)
      simp [hu]
    · simp [hv]
  · rfl
  · rfl

omit [DecidableEq Thread] [DecidableEq Rank] in
theorem Dumped.mono {w w' : World Nonce Thread Rank} {r : Rank} {g : Nat}
    (hsub : ∀ x ∈ w.written, x ∈ w'.written) (h : w.Dumped r g) : w'.Dumped r g := by
  obtain ⟨hpos, started, hmem, hle⟩ := h
  exact ⟨hpos, started, hsub _ hmem, hle⟩

/-- A step of one process, with what the histories record of it. -/
theorem Inv.proc [DecidableEq Nonce] {timing : Timing} {w : World Nonce Thread Rank}
    (h : w.Inv) {r : Rank} {e : ProcessEvent Nonce Unit Thread} (hadmits : w.Admits r e = true)
    {p : Process Nonce Unit Thread} (hnext : processNext timing (w.procs r) e = some p) :
    Inv { (w.note r e).clear r e with procs := Function.update w.procs r p } := by
  have hrec := w.recorded r e
  have hF : ∀ g, w.Taken g → Taken ((w.note r e).clear r e) g := fun g hg =>
    ⟨hg.1, hrec.gen ▸ hg.2⟩
  have hU : ∀ v g, w.Dumped v g → Dumped ((w.note r e).clear r e) v g := fun v g hg =>
    hg.mono hrec.written
  have htold : Process.Told w.Taken (Dumped ((w.note r e).clear r e) r) (w.start r)
      ((w.note r e).start r) e := by
    refine ⟨?_, ?_, ?_, ?_, fun t hne => note_start w r e r t fun _ => hne⟩
    · rintro t now stuck s rfl g hpos hle
      have hreply := h.reply r t
      simp only [Admits] at hadmits
      split at hadmits
      · rename_i s' hs'
        rw [hs', of_decide_eq_true hadmits] at hreply
        exact ⟨hpos, hle.trans hreply⟩
      · cases hadmits
    · rintro t now g rfl g' hpos hle
      have hreply := h.reply r t
      simp only [Admits] at hadmits
      split at hadmits
      · rename_i g'' hg''
        rw [hg'', of_decide_eq_true hadmits] at hreply
        exact ⟨hpos, hle.trans hreply⟩
      · cases hadmits
    · rintro t rfl g hg
      simpa [note] using hg.2
    · rintro t rfl g hg hle
      exact ⟨hg.1, w.start r t, List.mem_cons_self, hle⟩
  refine ⟨fun v => ?_, fun v t => ?_, ?_, ?_⟩
  · have hv : Process.Bounded (Taken ((w.note r e).clear r e))
        (Dumped ((w.note r e).clear r e) v) ((w.note r e).start v)
        (Function.update w.procs r p v) := by
      by_cases hv : v = r
      · subst hv
        have hstep := ((h.procs v).mono (fun _ => id) (hU v)).next htold hnext
        rw [Function.update_self]
        exact hstep.mono hF fun _ => id
      · have hsame : (w.note r e).start v = w.start v :=
          funext fun t => note_start w r e v t fun he => absurd he hv
        rw [Function.update_of_ne hv, hsame]
        exact (h.procs v).mono hF (hU v)
    rw [← clear_start (w.note r e) r e] at hv
    exact hv
  · obtain hold | hnone := clear_reply w r e v t
    · have hok := (h.reply v t).mono (v := (w.note r e).clear r e) hrec.gen.ge
      rw [← hold] at hok
      exact hok
    · have hok : ReplyOk ((w.note r e).clear r e) (Reply.none : Reply Nonce) := trivial
      rw [← hnone] at hok
      exact hok
  · intro job hjob g hg
    exact hU _ g (h.jobs job (hrec.jobs ▸ hjob) g hg)
  · intro g v hg
    exact hU v g (h.acks g v (hrec.acks ▸ hg))

omit [DecidableEq Thread] [DecidableEq Rank] in
/-- What a thread sends to acknowledge was dumped. -/
theorem Inv.toAck_dumped {w : World Nonce Thread Rank} (h : w.Inv) {r : Rank} {t : Thread}
    {gens : Finset Nat} (hack : w.toAck r t = some gens) : ∀ g ∈ gens, w.Dumped r g := by
  unfold toAck at hack
  split at hack
  · rename_i unacked c hpc
    cases hack
    exact ((h.procs r).pc hpc).1
  · rename_i c hpc
    split at hack
    · cases hack
    · cases hack
      exact (((h.procs r).pc hpc).2 rfl).2
  · cases hack

theorem Inv.next [DecidableEq Nonce] {timing : Timing} {w w' : World Nonce Thread Rank}
    (h : w.Inv) {e : WorldEvent Nonce Thread Rank} (hnext : worldNext timing w e = some w') :
    w'.Inv := by
  cases e with
  | proc r e =>
      obtain ⟨hadmits, hstep⟩ := Option.ite_none_right_eq_some.mp hnext
      obtain ⟨p, hp, heq⟩ := Option.map_eq_some_iff.mp hstep
      exact heq ▸ h.proc hadmits hp
  | readKey r t =>
      simp only [worldNext] at hnext
      split at hnext
      · cases hnext
        exact h.request rfl rfl rfl le_rfl (h.replies rfl le_rfl trivial) h.jobs h.acks
      · cases hnext
  | readGen r t =>
      simp only [worldNext] at hnext
      split at hnext
      · cases hnext
        exact h.request rfl rfl rfl le_rfl
          (h.replies rfl le_rfl (show w.gen ≤ w.gen from le_rfl)) h.jobs h.acks
      · cases hnext
  | take r t =>
      simp only [worldNext] at hnext
      split at hnext
      · cases hnext
        exact h.request rfl rfl rfl (Nat.le_succ _)
          (h.replies rfl (Nat.le_succ _) (show w.gen + 1 ≤ w.gen + 1 from le_rfl)) h.jobs h.acks
      · cases hnext
  | setKey r t =>
      simp only [worldNext] at hnext
      split at hnext
      · rename_i g hg
        cases hnext
        have htaken : g ≤ w.gen := by
          have hok := h.reply r t
          rw [hg] at hok
          exact hok
        exact h.request rfl rfl rfl le_rfl (h.replies rfl le_rfl htaken) h.jobs h.acks
      · cases hnext
  | strayTake =>
      cases hnext
      exact h.request rfl rfl rfl (Nat.le_succ _)
        (fun r t => (h.reply r t).mono (Nat.le_succ _)) h.jobs h.acks
  | strayKey =>
      cases hnext
      exact h.request rfl rfl rfl le_rfl h.reply h.jobs h.acks
  | sendAcks r t =>
      simp only [worldNext] at hnext
      split at hnext
      · rename_i gens hack _
        cases hnext
        refine h.request rfl rfl rfl le_rfl (h.replies rfl le_rfl trivial) ?_ h.acks
        intro job hjob g hg
        obtain hold | hnew := List.mem_append.mp hjob
        · exact h.jobs job hold g hg
        · rw [List.mem_singleton.mp hnew] at hg ⊢
          exact h.toAck_dumped hack g hg
      · cases hnext
  | setAck n g =>
      simp only [worldNext] at hnext
      split at hnext
      · rename_i job hjob
        obtain ⟨⟨hg, -⟩, heq⟩ := Option.ite_none_right_eq_some.mp hnext
        cases heq
        have hold := h.jobs job (List.mem_of_getElem? hjob)
        refine h.request rfl rfl rfl le_rfl h.reply ?_ ?_
        · intro job' hjob' g' hg'
          obtain hmem | rfl := List.mem_or_eq_of_mem_set hjob'
          · exact h.jobs job' hmem g' hg'
          · exact hold g' (Finset.mem_of_mem_erase hg')
        · intro g' v hmem
          obtain heq | hmem := List.mem_cons.mp hmem
          · cases heq
            exact hold g hg
          · exact h.acks g' v hmem
      · cases hnext
  | failAcks n =>
      simp only [worldNext] at hnext
      split at hnext
      · rename_i job hjob
        cases hnext
        refine h.request rfl rfl rfl le_rfl h.reply ?_ h.acks
        intro job' hjob' g' hg'
        obtain hmem | rfl := List.mem_or_eq_of_mem_set hjob'
        · exact h.jobs job' hmem g' hg'
        · exact h.jobs job (List.mem_of_getElem? hjob) g' hg'
      · cases hnext

end World

theorem Process.start_bounded {F U : Nat → Prop} (start : Thread → Nat) :
    (Process.start : Process Nonce Unit Thread).Bounded F U start :=
  ⟨fun _ hst => absurd hst List.not_mem_nil, fun _ => trivial⟩

section Reachable

variable [DecidableEq Thread] [DecidableEq Rank] [DecidableEq Nonce] {timing : Timing}

theorem world_inv_of_reachable {w : World Nonce Thread Rank}
    (hw : (dumpSignal timing).Reachable w) : w.Inv := by
  refine hw.invariant ?_ ?_
  · rintro w ⟨hacks, hjobs, hprocs, hreply⟩
    refine ⟨fun r => ?_, fun r t => ?_, ?_, ?_⟩
    · rw [hprocs r]
      exact Process.start_bounded _
    · rw [hreply r t]
      trivial
    · intro job hjob
      rw [hjobs] at hjob
      cases hjob
    · intro g r hg
      rw [hacks] at hg
      cases hg
  · intro w e w' _ hinv hnext
    exact hinv.next hnext

/-- An acknowledgement in the store means a dump: the rank has written one that
started when the generation had been taken. -/
theorem acknowledged_dumped {w : World Nonce Thread Rank}
    (hw : (dumpSignal timing).Reachable w) :
    ∀ g r, (g, r) ∈ w.acks → 0 < g ∧ ∃ started, (r, started) ∈ w.written ∧ g ≤ started :=
  (world_inv_of_reachable hw).acks

end Reachable

/-- Two ranks with a monitor `false` and an incident thread `true` each. -/
def twoRanks : World Nat Bool Bool where
  nonce := 7
  gen := 0
  dumpKey := false
  acks := []
  procs _ := .start
  reply _ _ := .none
  jobs := []
  start _ _ := 0
  written := []

/-- Rank `false` signals; rank `true` sees the generation, dumps and acknowledges it
after its monitor has given the acknowledgement up. -/
theorem acknowledged_dumped_late :
    ∃ w, (dumpSignal ⟨1, 60, 15⟩).run twoRanks
        [.proc true (.attach 0 () (some ⟨7, false, 0⟩)), .proc false (.signal true ()),
          .take false true, .proc true (.poll false () 5), .readKey true false,
          .readGen true false, .proc true (.answer false 5 false (some ⟨7, false, 1⟩)),
          .proc true (.startDump false), .proc true (.endDump false true), .sendAcks true false,
          .proc true (.finish false 6 false), .setAck 0 1] = some w ∧
      w.acks = [(1, true)] ∧
      ∀ g r, (g, r) ∈ w.acks → 0 < g ∧ ∃ started, (r, started) ∈ w.written ∧ g ≤ started := by
  have hrun : ((dumpSignal ⟨1, 60, 15⟩).run twoRanks
        [.proc true (.attach 0 () (some ⟨7, false, 0⟩)), .proc false (.signal true ()),
          .take false true, .proc true (.poll false () 5), .readKey true false,
          .readGen true false, .proc true (.answer false 5 false (some ⟨7, false, 1⟩)),
          .proc true (.startDump false), .proc true (.endDump false true), .sendAcks true false,
          .proc true (.finish false 6 false), .setAck 0 1]).any
      (fun w => decide (w.acks = [(1, true)])) = true := by
    decide
  obtain ⟨w, hw, hacks⟩ := (Option.any_eq_true _ _).mp hrun
  have hinit : (dumpSignal ⟨1, 60, 15⟩).Init twoRanks :=
    ⟨rfl, rfl, fun _ => rfl, fun _ _ => rfl⟩
  exact ⟨w, hw, of_decide_eq_true hacks,
    acknowledged_dumped (System.Reachable.run (.of_init hinit) hw)⟩

end TorchMojoBackend.Distributed
