/-
  `Distributed.Poller`: the states of the watched stores and the threads that
  serve them, in one process.

  The monitor polls the store of the newest group; an incident thread signals a
  dump itself.  Both claim generations under the poller's lock, dump and
  acknowledge without it, and report the outcome under it.  In between the
  groups of the process come and go and a store can be restarted, which
  replaces its state: a claim keeps the state it was made on.

  What the store answers is a parameter of the events here.
-/
import TorchMojoBackend.Distributed.StoreState

set_option autoImplicit false

namespace TorchMojoBackend.Distributed

open TorchMojoBackend.Foundation

/-! ## The process -/

/-- What a thread has claimed: the state it belongs to, when there is one, the
generations, those it acknowledges once its dump is written, and whether it
serves torch's own key. -/
structure Claim (Key : Type) where
  key : Key
  state : Option Nat
  gens : Finset Nat
  acks : Finset Nat
  torch : Bool
  deriving DecidableEq

/-- Where a thread of the monitor or of an incident report stands. -/
inductive Pc (Key : Type) where
  | idle
  /-- the read of `poll` is running -/
  | polling (key : Key) (state : Nat)
  /-- `poll` acknowledges again what a written dump covered -/
  | reacking (unacked : Finset Nat) (c : Claim Key)
  /-- the incident's `signal_dump` is running -/
  | signalling (key : Key)
  /-- about to dump -/
  | claimed (c : Claim Key)
  | dumping (c : Claim Key)
  | dumped (c : Claim Key) (ok : Bool)
  deriving DecidableEq

/-- The poller's tables, with every state they ever held, and the threads;
`dumps` collects the claims whose dump was written. -/
structure Process (Nonce Key Thread : Type) where
  objects : List (StoreState Nonce)
  states : Key → Option Nat
  groups : List (Nat × Key)
  pc : Thread → Pc Key
  dumps : List (Claim Key)

/-- The claim of a thread whose outcome is still to come. -/
def Pc.claim? {Key : Type} : Pc Key → Option (Claim Key)
  | .reacking _ c | .claimed c | .dumping c | .dumped c _ => some c
  | _ => none

/-- The generations of state `i` a thread at this place has claimed. -/
def Pc.claimsOn {Key : Type} (pc : Pc Key) (i : Nat) : Finset Nat :=
  match pc.claim? with
  | some c => if c.state = some i then c.gens else ∅
  | none => ∅

/-- Where a thread goes with a claim: to its dump, when anything asks for one. -/
def Claim.pc {Key : Type} (c : Claim Key) : Pc Key :=
  if c.gens ≠ ∅ ∨ c.torch = true then .claimed c else .idle

namespace Process

variable {Nonce Key Thread : Type} [DecidableEq Nonce] [DecidableEq Key] [DecidableEq Thread]

def setPc (p : Process Nonce Key Thread) (t : Thread) (pc : Pc Key) :
    Process Nonce Key Thread :=
  { p with pc := Function.update p.pc t pc }

def setObject (p : Process Nonce Key Thread) (i : Nat) (st : StoreState Nonce) :
    Process Nonce Key Thread :=
  { p with objects := p.objects.set i st }

/-- A new state goes under `key`. -/
def addState (p : Process Nonce Key Thread) (key : Key) (st : StoreState Nonce) :
    Process Nonce Key Thread :=
  { p with
    objects := p.objects ++ [st]
    states := Function.update p.states key (some p.objects.length) }

/-- `_Poller.attach`; `read` is the baseline, `none` when its read failed. -/
def attach (p : Process Nonce Key Thread) (group : Nat) (key : Key)
    (read : Option (Seen Nonce)) : Process Nonce Key Thread :=
  let p := { p with groups := (group, key) :: p.groups.filter fun e => e.1 ≠ group }
  match p.states key, read with
  | none, some seen => p.addState key (.init (some seen.nonce) (some seen.gen) seen.hasKey)
  | none, none => p.addState key (.init none none false)
  | some i, some seen =>
    match (p.objects[i]?).bind StoreState.nonce with
    | none => p.addState key (.init (some seen.nonce) (some seen.gen) seen.hasKey)
    | some nonce =>
      if nonce = seen.nonce then p else p.addState key (.init (some seen.nonce) (some 0) false)
  | some _, none => p

/-- `_Poller.detach`: the last group of a store takes its state along. -/
def detach (p : Process Nonce Key Thread) (group : Nat) : Process Nonce Key Thread :=
  match p.groups.find? fun e => e.1 = group with
  | none => p
  | some entry =>
    let groups := p.groups.filter fun e => e.1 ≠ group
    { p with
      groups := groups
      states := if groups.all fun e => e.2 ≠ entry.2 then Function.update p.states entry.2 none
        else p.states }

/-- The state a poll's answer is served on.  The first answer is the baseline of a
state that has none, and a server that was restarted gets a new state. -/
def locate (p : Process Nonce Key Thread) (key : Key) (i : Nat) (st : StoreState Nonce)
    (seen : Seen Nonce) : Process Nonce Key Thread × Option (Nat × StoreState Nonce) :=
  match st.nonce with
  | none => (p.addState key (.init (some seen.nonce) (some seen.gen) seen.hasKey), none)
  | some nonce =>
    if seen.nonce = nonce then (p, some (i, st))
    else
      let new := .init (some seen.nonce) (some 0) false
      (p.addState key new, some (p.objects.length, new))

/-- The locked section of `poll`: the process after it and where the monitor goes. -/
def answer (timing : Timing) (p : Process Nonce Key Thread) (key : Key) (i : Nat) (now : Nat)
    (stuck : Bool) (seen : Option (Seen Nonce)) : Process Nonce Key Thread × Pc Key :=
  match p.objects[i]?, seen with
  | none, _ => (p, .idle)
  | some st, none =>
    if p.states key ≠ some i ∨ stuck then (p, .idle)
    else (p.setObject i (st.pollFailed timing now), .idle)
  | some st, some seen =>
    if p.states key ≠ some i then (p, .idle)
    else
      let st := { st with pollBackoff := 0 }
      match (p.setObject i st).locate key i st seen with
      | (p, none) => (p, .idle)
      | (p, some (i, st)) =>
        let (gens, torchSignal, st) := st.serve now seen
        let c := ⟨key, some i, gens, gens, torchSignal⟩
        (p.setObject i st, if st.unacked = ∅ then c.pc else .reacking st.unacked c)

/-- `claim`: the incident's generation, `none` or 0 when the store did not answer,
and the generations the process had yet to serve. -/
def claim (p : Process Nonce Key Thread) (key : Key) (now : Nat) (gen : Option Nat) :
    Process Nonce Key Thread × Claim Key :=
  match gen with
  | none | some 0 => (p, ⟨key, none, ∅, ∅, false⟩)
  | some gen =>
    match (p.states key).bind fun i => (p.objects[i]?).map fun st => (i, st) with
    | none => (p, ⟨key, none, {gen}, {gen}, false⟩)
    | some (i, st) =>
      let (gens, st) := st.claim now gen
      (p.setObject i st, ⟨key, some i, gens, insert gen gens, false⟩)

/-- Apply `f` to the state of a claim. -/
def onState (p : Process Nonce Key Thread) (c : Claim Key)
    (f : StoreState Nonce → StoreState Nonce) : Process Nonce Key Thread :=
  match c.state.bind fun i => (p.objects[i]?).map fun st => (i, st) with
  | none => p
  | some (i, st) => p.setObject i (f st)

/-- The outcome of a claim, on the state it was claimed from. -/
def finish (timing : Timing) (p : Process Nonce Key Thread) (c : Claim Key) (now : Nat)
    (dumped acked : Bool) : Process Nonce Key Thread :=
  p.onState c fun st =>
    if c.torch then st.torchDone timing now dumped
    else st.finish timing now c.gens dumped (dumped && acked)

end Process

/-- What can happen to a process; the answers of the store are part of the event. -/
inductive ProcessEvent (Nonce Key Thread : Type) where
  | attach (group : Nat) (key : Key) (read : Option (Seen Nonce))
  | detach (group : Nat)
  | poll (t : Thread) (key : Key) (now : Nat)
  | answer (t : Thread) (now : Nat) (stuck : Bool) (seen : Option (Seen Nonce))
  | reacked (t : Thread) (ok : Bool)
  | signal (t : Thread) (key : Key)
  | signalled (t : Thread) (now : Nat) (gen : Option Nat)
  | startDump (t : Thread)
  | endDump (t : Thread) (ok : Bool)
  | finish (t : Thread) (now : Nat) (acked : Bool)

variable {Nonce Key Thread : Type} [DecidableEq Nonce] [DecidableEq Key] [DecidableEq Thread]

def processNext (timing : Timing) (p : Process Nonce Key Thread) :
    ProcessEvent Nonce Key Thread → Option (Process Nonce Key Thread)
  | .attach group key read => some (p.attach group key read)
  | .detach group => some (p.detach group)
  | .poll t key now =>
    match p.pc t, p.states key with
    | .idle, some i =>
      if (p.objects[i]?).all fun st => decide (st.pollAt ≤ now) then
        some (p.setPc t (.polling key i))
      else none
    | _, _ => none
  | .answer t now stuck seen =>
    match p.pc t with
    | .polling key i =>
      let (p', pc) := p.answer timing key i now stuck seen
      some (p'.setPc t pc)
    | _ => none
  | .reacked t ok =>
    match p.pc t with
    | .reacking unacked c =>
      let p' := if ok then p.onState c fun st => { st with unacked := st.unacked \ unacked }
        else p
      some (p'.setPc t c.pc)
    | _ => none
  | .signal t key => if p.pc t = .idle then some (p.setPc t (.signalling key)) else none
  | .signalled t now gen =>
    match p.pc t with
    | .signalling key =>
      let (p', c) := p.claim key now gen
      some (p'.setPc t (.claimed c))
    | _ => none
  | .startDump t =>
    match p.pc t with
    | .claimed c => some (p.setPc t (.dumping c))
    | _ => none
  | .endDump t ok =>
    match p.pc t with
    | .dumping c =>
      some { p.setPc t (.dumped c ok) with dumps := if ok then c :: p.dumps else p.dumps }
    | _ => none
  | .finish t now acked =>
    match p.pc t with
    | .dumped c ok => some ((p.finish timing c now ok acked).setPc t .idle)
    | _ => none

/-- A process before its first group. -/
def Process.start : Process Nonce Key Thread where
  objects := []
  states _ := none
  groups := []
  pc _ := .idle
  dumps := []

/-- The bookkeeping of one process, whatever the store answers. -/
def bookkeeping (timing : Timing) :
    System (Process Nonce Key Thread) (ProcessEvent Nonce Key Thread) where
  Init p := p = .start
  next := processNext timing

/-! ## The invariant -/

omit [DecidableEq Nonce] [DecidableEq Key] [DecidableEq Thread]

/-- One of the written dumps covered `g` of state `i`. -/
def Covers (dumps : List (Claim Key)) (i g : Nat) : Prop :=
  ∃ c ∈ dumps, c.state = some i ∧ g ∈ c.gens

theorem Covers.mono {dumps dumps' : List (Claim Key)} (h : ∀ c ∈ dumps, c ∈ dumps')
    {i g : Nat} (hc : Covers dumps i g) : Covers dumps' i g := by
  obtain ⟨c, hmem, hstate, hg⟩ := hc
  exact ⟨c, h c hmem, hstate, hg⟩

/-- What the place of a thread says: a dump for torch's key takes no generation, and
a dump that ended well was written. -/
structure Pc.Ok (dumps : List (Claim Key)) (pc : Pc Key) : Prop where
  torch : ∀ c, pc.claim? = some c → c.torch = true → c.gens = ∅
  dumped : ∀ c, pc = .dumped c true → c ∈ dumps

/-- A state agrees with the claims on it and with the dumps written. -/
structure StoreState.Kept (pc : Thread → Pc Key) (dumps : List (Claim Key)) (i : Nat)
    (st : StoreState Nonce) : Prop where
  sound : st.Sound
  pending : ∀ g, g ∈ st.pending ↔ ∃ t, g ∈ (pc t).claimsOn i
  served : ∀ g, st.Served g → Covers dumps i g
  unacked : ∀ g ∈ st.unacked, Covers dumps i g

/-- The states and the claims on them agree. -/
structure Process.Inv (p : Process Nonce Key Thread) : Prop where
  kept : ∀ (i : Nat) st, p.objects[i]? = some st → st.Kept p.pc p.dumps i
  one : ∀ i t t' g, g ∈ (p.pc t).claimsOn i → g ∈ (p.pc t').claimsOn i → t = t'
  lt : ∀ t i g, g ∈ (p.pc t).claimsOn i → i < p.objects.length
  ok : ∀ t, (p.pc t).Ok p.dumps

/-- `q` keeps what `p` recorded: no state goes, no base falls and no dump is
forgotten. -/
structure Process.Grows (p q : Process Nonce Key Thread) : Prop where
  state : ∀ (i : Nat) st, p.objects[i]? = some st → ∃ st', q.objects[i]? = some st' ∧
    ∀ base, st.base = some base → ∃ base', st'.base = some base' ∧ base ≤ base'
  dumps : ∀ c ∈ p.dumps, c ∈ q.dumps

theorem Process.Grows.refl (p : Process Nonce Key Thread) : p.Grows p :=
  ⟨fun _ st hst => ⟨st, hst, fun base hbase => ⟨base, hbase, le_rfl⟩⟩, fun _ hc => hc⟩

theorem Process.Grows.trans {p q r : Process Nonce Key Thread} (hpq : p.Grows q)
    (hqr : q.Grows r) : p.Grows r := by
  refine ⟨fun i st hst => ?_, fun c hc => hqr.dumps c (hpq.dumps c hc)⟩
  obtain ⟨st', hst', hbase⟩ := hpq.state i st hst
  obtain ⟨st'', hst'', hbase'⟩ := hqr.state i st' hst'
  refine ⟨st'', hst'', fun base h => ?_⟩
  obtain ⟨base', h', hle⟩ := hbase base h
  obtain ⟨base'', h'', hle'⟩ := hbase' base' h'
  exact ⟨base'', h'', hle.trans hle'⟩

/-- What one change of the process is to keep. -/
structure Process.Keeps (p q : Process Nonce Key Thread) : Prop where
  inv : q.Inv
  grows : p.Grows q

theorem Process.Keeps.trans {p q r : Process Nonce Key Thread} (hpq : p.Keeps q)
    (hqr : q.Keeps r) : p.Keeps r :=
  ⟨hqr.inv, hpq.grows.trans hqr.grows⟩

/-! ### Places and claims -/

theorem Pc.claimsOn_eq_empty {pc : Pc Key} (h : pc.claim? = none) (i : Nat) :
    pc.claimsOn i = ∅ := by
  simp [Pc.claimsOn, h]

theorem Pc.claimsOn_eq {pc : Pc Key} {c : Claim Key} (h : pc.claim? = some c) (i : Nat) :
    pc.claimsOn i = if c.state = some i then c.gens else ∅ := by
  simp [Pc.claimsOn, h]

/-- A claim that asks for no dump holds no generation. -/
theorem Claim.pc_claimsOn (c : Claim Key) (i : Nat) :
    c.pc.claimsOn i = if c.state = some i then c.gens else ∅ := by
  by_cases h : c.gens ≠ ∅ ∨ c.torch = true
  · rw [Claim.pc, if_pos h]
    rfl
  · rw [Claim.pc, if_neg h]
    obtain ⟨hgens, -⟩ := not_or.mp h
    simp [Pc.claimsOn, Pc.claim?, not_not.mp hgens]

theorem Pc.ok_of_claim?_eq_none {pc : Pc Key} (h : pc.claim? = none)
    (dumps : List (Claim Key)) : pc.Ok dumps := by
  refine ⟨fun c hc => ?_, fun c hc => ?_⟩
  · rw [h] at hc
    cases hc
  · rw [hc] at h
    cases h

theorem Claim.pc_ok (c : Claim Key) (dumps : List (Claim Key))
    (htorch : c.torch = true → c.gens = ∅) : c.pc.Ok dumps := by
  by_cases h : c.gens ≠ ∅ ∨ c.torch = true
  · rw [Claim.pc, if_pos h]
    refine ⟨fun d hd => ?_, fun d hd => nomatch hd⟩
    cases hd
    exact htorch
  · rw [Claim.pc, if_neg h]
    exact Pc.ok_of_claim?_eq_none rfl dumps

theorem Pc.Ok.mono {dumps dumps' : List (Claim Key)} (hd : ∀ c ∈ dumps, c ∈ dumps')
    {pc : Pc Key} (h : pc.Ok dumps) : pc.Ok dumps' :=
  ⟨h.torch, fun c hc => hd c (h.dumped c hc)⟩

namespace Process

/-! ### Changes of a process -/

section Changes

variable {p : Process Nonce Key Thread}

/-- `groups` and `states` are not part of the bookkeeping. -/
theorem Inv.tables (h : p.Inv) (states : Key → Option Nat) (groups : List (Nat × Key)) :
    p.Keeps { p with states := states, groups := groups } :=
  ⟨⟨h.kept, h.one, h.lt, h.ok⟩, ⟨(Grows.refl p).state, fun _ hc => hc⟩⟩

theorem getElem?_setObject {i : Nat} {st : StoreState Nonce} (hst : p.objects[i]? = some st)
    (st' : StoreState Nonce) (j : Nat) :
    (p.setObject i st').objects[j]? = if j = i then some st' else p.objects[j]? := by
  obtain ⟨hi, -⟩ := List.getElem?_eq_some_iff.mp hst
  simp only [setObject, List.getElem?_set]
  by_cases hj : j = i
  · subst hj
    simp [hi]
  · rw [if_neg (fun h => hj h.symm), if_neg hj]

theorem grows_setObject {i : Nat} {st st' : StoreState Nonce}
    (hst : p.objects[i]? = some st)
    (hbase : ∀ base, st.base = some base → ∃ base', st'.base = some base' ∧ base ≤ base') :
    p.Grows (p.setObject i st') := by
  refine ⟨fun j stj hj => ?_, fun _ hc => hc⟩
  rw [getElem?_setObject hst]
  by_cases hji : j = i
  · subst hji
    rw [hst, Option.some.injEq] at hj
    exact ⟨st', if_pos rfl, hj ▸ hbase⟩
  · rw [if_neg hji]
    exact ⟨stj, hj, fun base h => ⟨base, h, le_rfl⟩⟩

/-- A state is replaced by one that agrees with the same claims and dumps. -/
theorem Inv.setObject (h : p.Inv) {i : Nat} {st st' : StoreState Nonce}
    (hst : p.objects[i]? = some st) (hk : st'.Kept p.pc p.dumps i) :
    (p.setObject i st').Inv := by
  refine ⟨fun j stj hj => ?_, h.one, fun t j g hg => ?_, h.ok⟩
  · rw [getElem?_setObject hst] at hj
    by_cases hji : j = i
    · rw [if_pos hji, Option.some.injEq] at hj
      rw [← hj, hji]
      exact hk
    · rw [if_neg hji] at hj
      exact h.kept j stj hj
  · simpa [Process.setObject] using h.lt t j g hg

/-- A change of a state that the bookkeeping does not see. -/
theorem Inv.setObject_like (h : p.Inv) {i : Nat} {st st' : StoreState Nonce}
    (hst : p.objects[i]? = some st) (hl : StoreState.Like st st') :
    p.Keeps (p.setObject i st') := by
  have hk := h.kept i st hst
  refine ⟨h.setObject hst ⟨hl.sound hk.sound, ?_, ?_, ?_⟩,
    grows_setObject hst fun base hbase => ⟨base, hl.base.trans hbase, le_rfl⟩⟩
  · rw [hl.pending]
    exact hk.pending
  · exact fun g hg => hk.served g (hl.served.mp hg)
  · exact fun g hg => hk.unacked g (hl.unacked hg)

/-- A new state starts with nothing claimed on it. -/
theorem Inv.addState [DecidableEq Key] (h : p.Inv) (key : Key) (nonce : Option Nonce)
    (base : Option Nat) (torchSeen : Bool) :
    p.Keeps (p.addState key (.init nonce base torchSeen)) := by
  have hget : ∀ j, (p.addState key (.init nonce base torchSeen)).objects[j]? =
      if j = p.objects.length then some (.init nonce base torchSeen) else p.objects[j]? := by
    intro j
    simp only [Process.addState]
    by_cases hj : j = p.objects.length
    · simp [hj]
    · rw [if_neg hj]
      by_cases hlt : j < p.objects.length
      · exact List.getElem?_append_left hlt
      · rw [List.getElem?_eq_none (by simp; omega), List.getElem?_eq_none (by omega)]
  constructor
  · refine ⟨fun j stj hj => ?_, h.one, fun t j g hg => ?_, h.ok⟩
    · rw [hget] at hj
      by_cases hjl : j = p.objects.length
      · rw [if_pos hjl, Option.some.injEq] at hj
        subst hj
        refine ⟨StoreState.init_sound nonce base torchSeen, fun g => ?_, fun g hg => ?_, ?_⟩
        · refine ⟨fun hg => absurd hg (Finset.notMem_empty g), fun ⟨t, hg⟩ => ?_⟩
          exact absurd (h.lt t j g hg) (by omega)
        · exact absurd hg (StoreState.not_served_init nonce base torchSeen g)
        · exact fun g hg => absurd hg (Finset.notMem_empty g)
      · rw [if_neg hjl] at hj
        exact h.kept j stj hj
    · have hlt := h.lt t j g hg
      simp only [Process.addState, List.length_append, List.length_singleton]
      omega
  · refine ⟨fun j stj hj => ?_, fun _ hc => hc⟩
    obtain ⟨hlt, -⟩ := List.getElem?_eq_some_iff.mp hj
    refine ⟨stj, ?_, fun b hb => ⟨b, hb, le_rfl⟩⟩
    rw [hget, if_neg (by omega)]
    exact hj

/-- A dump was written. -/
theorem Inv.writes (h : p.Inv) (c : Claim Key) : p.Keeps { p with dumps := c :: p.dumps } := by
  have hmono : ∀ d ∈ p.dumps, d ∈ c :: p.dumps := fun d hd => List.mem_cons_of_mem c hd
  refine ⟨⟨fun i st hst => ?_, h.one, h.lt, fun t => (h.ok t).mono hmono⟩,
    (Grows.refl p).state, hmono⟩
  have hk := h.kept i st hst
  exact ⟨hk.sound, hk.pending, fun g hg => (hk.served g hg).mono hmono,
    fun g hg => (hk.unacked g hg).mono hmono⟩

variable [DecidableEq Thread]

@[simp] theorem setPc_pc_self (p : Process Nonce Key Thread) (t : Thread) (pc : Pc Key) :
    (p.setPc t pc).pc t = pc := Function.update_self ..

theorem setPc_pc_of_ne {p : Process Nonce Key Thread} {t v : Thread} (hv : v ≠ t)
    (pc : Pc Key) : (p.setPc t pc).pc v = p.pc v := Function.update_of_ne hv ..

/-- A thread moves without giving up or taking a claim. -/
theorem Inv.setPc (h : p.Inv) (t : Thread) {pc : Pc Key}
    (hsame : ∀ i, pc.claimsOn i = (p.pc t).claimsOn i) (hok : pc.Ok p.dumps) :
    p.Keeps (p.setPc t pc) := by
  have hclaims : ∀ v i, ((p.setPc t pc).pc v).claimsOn i = (p.pc v).claimsOn i := by
    intro v i
    by_cases hv : v = t
    · subst hv
      rw [setPc_pc_self, hsame]
    · rw [setPc_pc_of_ne hv]
  refine ⟨⟨fun i st hst => ?_, fun i v v' g hg hg' => ?_, fun v i g hg => ?_, fun v => ?_⟩,
    (Grows.refl p).state, fun _ hc => hc⟩
  · have hk := h.kept i st hst
    exact ⟨hk.sound, by simpa only [hclaims] using hk.pending, hk.served, hk.unacked⟩
  · rw [hclaims] at hg hg'
    exact h.one i v v' g hg hg'
  · rw [hclaims] at hg
    exact h.lt v i g hg
  · by_cases hv : v = t
    · subst hv
      rw [setPc_pc_self]
      exact hok
    · rw [setPc_pc_of_ne hv]
      exact h.ok v

/-- A thread without a claim takes one. -/
theorem Inv.claims (h : p.Inv) {t : Thread} {pc : Pc Key} {i : Nat}
    {st st' : StoreState Nonce} {gens : Finset Nat} (hst : p.objects[i]? = some st)
    (hc : StoreState.Claims st gens st') (hfree : (p.pc t).claim? = none)
    (hclaims : ∀ j, pc.claimsOn j = if some i = some j then gens else ∅)
    (hok : pc.Ok p.dumps) :
    p.Keeps ((p.setObject i st').setPc t pc) := by
  have hk := h.kept i st hst
  have hself : pc.claimsOn i = gens := by rw [hclaims, if_pos rfl]
  have hother : ∀ j, j ≠ i → pc.claimsOn j = ∅ := fun j hj => by
    rw [hclaims, if_neg fun he => hj (Option.some.inj he).symm]
  -- what is claimed anew was not claimed by any thread
  have hnew : ∀ j g, g ∈ pc.claimsOn j → ∀ v, g ∉ (p.pc v).claimsOn j := by
    intro j g hg v hv
    by_cases hj : j = i
    · subst hj
      rw [hself] at hg
      exact Finset.disjoint_left.mp hc.fresh hg ((hk.pending g).mpr ⟨v, hv⟩)
    · rw [hother j hj] at hg
      exact absurd hg (Finset.notMem_empty g)
  have hpc : ∀ v j g, g ∈ (((p.setObject i st').setPc t pc).pc v).claimsOn j ↔
      g ∈ (p.pc v).claimsOn j ∨ (v = t ∧ g ∈ pc.claimsOn j) := by
    intro v j g
    by_cases hv : v = t
    · subst hv
      rw [setPc_pc_self, Pc.claimsOn_eq_empty hfree]
      simp
    · rw [setPc_pc_of_ne hv]
      simp [hv, Process.setObject]
  refine ⟨⟨fun j stj hj => ?_, fun j v v' g hg hg' => ?_, fun v j g hg => ?_, fun v => ?_⟩, ?_⟩
  · have hj' : (p.setObject i st').objects[j]? = some stj := hj
    rw [getElem?_setObject hst] at hj'
    by_cases hji : j = i
    · rw [if_pos hji, Option.some.injEq] at hj'
      subst hj' hji
      refine ⟨hc.sound, fun g => ?_, fun g hg => hk.served g (hc.served.mp hg), ?_⟩
      · simp only [hpc, exists_or, exists_eq_left, hself]
        rw [hc.pending, Finset.mem_union, hk.pending]
      · rw [hc.unacked]
        exact hk.unacked
    · rw [if_neg hji] at hj'
      have hkj := h.kept j stj hj'
      refine ⟨hkj.sound, fun g => ?_, hkj.served, hkj.unacked⟩
      simp only [hpc, hother j hji, Finset.notMem_empty, and_false, or_false]
      exact hkj.pending g
  · rw [hpc] at hg hg'
    obtain hg | ⟨rfl, hg⟩ := hg
    · obtain hg' | ⟨rfl, hg'⟩ := hg'
      · exact h.one j v v' g hg hg'
      · exact absurd hg (hnew j g hg' v)
    · obtain hg' | ⟨rfl, hg'⟩ := hg'
      · exact absurd hg' (hnew j g hg v')
      · rfl
  · have hlen : ((p.setObject i st').setPc t pc).objects.length = p.objects.length :=
      List.length_set
    rw [hlen]
    obtain hold | ⟨rfl, hnewg⟩ := (hpc v j g).mp hg
    · exact h.lt v j g hold
    · by_cases hji : j = i
      · exact hji ▸ (List.getElem?_eq_some_iff.mp hst).1
      · rw [hother j hji] at hnewg
        exact absurd hnewg (Finset.notMem_empty g)
  · by_cases hv : v = t
    · subst hv
      rw [setPc_pc_self]
      exact hok
    · rw [setPc_pc_of_ne hv]
      exact h.ok v
  · have hgrows : p.Grows (p.setObject i st') :=
      grows_setObject hst fun base hb => ⟨base, hc.base.trans hb, le_rfl⟩
    exact ⟨hgrows.state, hgrows.dumps⟩

/-- The outcome of a claim reaches its state, and its thread is free again. -/
theorem Inv.finishes (h : p.Inv) {t : Thread} {c : Claim Key} {ok : Bool} {i : Nat}
    {st st' : StoreState Nonce} (hpc : p.pc t = .dumped c ok) (hi : c.state = some i)
    (hst : p.objects[i]? = some st) (hf : StoreState.Finishes st c.gens ok st') :
    p.Keeps ((p.setObject i st').setPc t .idle) := by
  have hk := h.kept i st hst
  have hmine : ∀ j, (p.pc t).claimsOn j = if some i = some j then c.gens else ∅ := by
    intro j
    rw [Pc.claimsOn_eq (c := c) (by rw [hpc]; rfl), hi]
  have hpc' : ∀ v j g, g ∈ (((p.setObject i st').setPc t .idle).pc v).claimsOn j ↔
      v ≠ t ∧ g ∈ (p.pc v).claimsOn j := by
    intro v j g
    by_cases hv : v = t
    · subst hv
      rw [setPc_pc_self]
      simp [Pc.claimsOn, Pc.claim?]
    · rw [setPc_pc_of_ne hv]
      simp [hv, Process.setObject]
  have hcovered : ∀ g, ok = true ∧ g ∈ c.gens → Covers p.dumps i g := by
    rintro g ⟨rfl, hg⟩
    exact ⟨c, (h.ok t).dumped c hpc, hi, hg⟩
  refine ⟨⟨fun j stj hj => ?_, fun j v v' g hg hg' => ?_, fun v j g hg => ?_, fun v => ?_⟩, ?_⟩
  · have hj' : (p.setObject i st').objects[j]? = some stj := hj
    rw [getElem?_setObject hst] at hj'
    by_cases hji : j = i
    · rw [if_pos hji, Option.some.injEq] at hj'
      subst hj' hji
      refine ⟨hf.sound, fun g => ?_, fun g hg => ?_, fun g hg => ?_⟩
      · rw [hf.pending, Finset.mem_sdiff, hk.pending]
        simp only [hpc']
        constructor
        · rintro ⟨⟨v, hv⟩, hnot⟩
          refine ⟨v, ?_, hv⟩
          rintro rfl
          rw [hmine, if_pos rfl] at hv
          exact hnot hv
        · rintro ⟨v, hvt, hv⟩
          refine ⟨⟨v, hv⟩, fun hg => hvt ?_⟩
          refine h.one j v t g hv ?_
          rw [hmine, if_pos rfl]
          exact hg
      · exact (hf.served g hg).elim (hk.served g) (hcovered g)
      · exact (hf.unacked g hg).elim (hk.unacked g) (hcovered g)
    · rw [if_neg hji] at hj'
      have hkj := h.kept j stj hj'
      refine ⟨hkj.sound, fun g => ?_, hkj.served, hkj.unacked⟩
      simp only [hpc', hkj.pending g]
      refine exists_congr fun v => (and_iff_right_of_imp ?_).symm
      rintro hg rfl
      rw [hmine, if_neg fun he => hji (Option.some.inj he).symm] at hg
      exact absurd hg (Finset.notMem_empty g)
  · exact h.one j v v' g ((hpc' v j g).mp hg).2 ((hpc' v' j g).mp hg').2
  · have hlen : ((p.setObject i st').setPc t .idle).objects.length = p.objects.length :=
      List.length_set
    rw [hlen]
    exact h.lt v j g ((hpc' v j g).mp hg).2
  · by_cases hv : v = t
    · subst hv
      rw [setPc_pc_self]
      exact Pc.ok_of_claim?_eq_none rfl _
    · rw [setPc_pc_of_ne hv]
      exact h.ok v
  · have hgrows : p.Grows (p.setObject i st') := grows_setObject hst hf.base_le
    exact ⟨hgrows.state, hgrows.dumps⟩

/-- A claim without a state has no outcome to report. -/
theorem Inv.drops (h : p.Inv) {t : Thread} {c : Claim Key} {ok : Bool}
    (hpc : p.pc t = .dumped c ok) (hi : c.state = none) : p.Keeps (p.setPc t .idle) := by
  refine h.setPc t (fun i => ?_) (Pc.ok_of_claim?_eq_none rfl _)
  have hclaim : (p.pc t).claim? = some c := by rw [hpc]; rfl
  rw [Pc.claimsOn_eq hclaim, hi, if_neg (by simp)]
  rfl

omit [DecidableEq Thread] in
/-- The state of a claim changes where the bookkeeping does not see it. -/
theorem Inv.onState_like (h : p.Inv) (c : Claim Key)
    {f : StoreState Nonce → StoreState Nonce} (hf : ∀ st, StoreState.Like st (f st)) :
    p.Keeps (p.onState c f) := by
  unfold onState
  split
  · exact ⟨h, Grows.refl p⟩
  · rename_i i st hst
    obtain ⟨i', hi', hst'⟩ := Option.bind_eq_some_iff.mp hst
    obtain ⟨st'', hst'', heq⟩ := Option.map_eq_some_iff.mp hst'
    cases heq
    exact h.setObject_like hst'' (hf st)

omit [DecidableEq Thread] in
theorem onState_pc (p : Process Nonce Key Thread) (c : Claim Key)
    (f : StoreState Nonce → StoreState Nonce) : (p.onState c f).pc = p.pc := by
  unfold onState
  split <;> rfl

omit [DecidableEq Thread] in
theorem Inv.attach [DecidableEq Nonce] [DecidableEq Key] (h : p.Inv) (group : Nat) (key : Key)
    (read : Option (Seen Nonce)) : p.Keeps (p.attach group key read) := by
  have hgroups := h.tables p.states ((group, key) :: p.groups.filter fun e => e.1 ≠ group)
  unfold Process.attach
  dsimp only
  split
  · exact hgroups.trans (hgroups.inv.addState key _ _ _)
  · exact hgroups.trans (hgroups.inv.addState key _ _ _)
  · split
    · exact hgroups.trans (hgroups.inv.addState key _ _ _)
    · split
      · exact hgroups
      · exact hgroups.trans (hgroups.inv.addState key _ _ _)
  · exact hgroups

omit [DecidableEq Thread] in
theorem Inv.detach [DecidableEq Key] (h : p.Inv) (group : Nat) : p.Keeps (p.detach group) := by
  unfold Process.detach
  split
  · exact ⟨h, Grows.refl p⟩
  · exact h.tables _ _

omit [DecidableEq Thread] in
/-- Finding the state to serve on keeps the bookkeeping, and the state found is in the
table. -/
theorem Inv.locate [DecidableEq Nonce] [DecidableEq Key] (h : p.Inv) (key : Key) {i : Nat}
    {st : StoreState Nonce} (hst : p.objects[i]? = some st) (seen : Seen Nonce) :
    p.Keeps (p.locate key i st seen).1 ∧ (p.locate key i st seen).1.pc = p.pc ∧
      ∀ i' st', (p.locate key i st seen).2 = some (i', st') →
        (p.locate key i st seen).1.objects[i']? = some st' := by
  unfold Process.locate
  split
  · exact ⟨h.addState key _ _ _, rfl, fun i' st' he => nomatch he⟩
  · split
    · refine ⟨⟨h, Grows.refl p⟩, rfl, fun i' st' he => ?_⟩
      cases he
      exact hst
    · refine ⟨h.addState key _ _ _, rfl, fun i' st' he => ?_⟩
      cases he
      simp [Process.addState]

theorem Inv.answer [DecidableEq Nonce] [DecidableEq Key] (timing : Timing) (h : p.Inv)
    {t : Thread} {key : Key} {i : Nat} (hpc : p.pc t = .polling key i) (now : Nat) (stuck : Bool)
    (seen : Option (Seen Nonce)) :
    p.Keeps ((p.answer timing key i now stuck seen).1.setPc t
      (p.answer timing key i now stuck seen).2) := by
  have hfree : (p.pc t).claim? = none := by rw [hpc]; rfl
  -- the poll ends here
  have hidle : ∀ {q : Process Nonce Key Thread}, p.Keeps q → q.pc = p.pc →
      p.Keeps (q.setPc t .idle) := by
    intro q hq hqpc
    refine hq.trans (hq.inv.setPc t (fun j => ?_) (Pc.ok_of_claim?_eq_none rfl _))
    rw [hqpc, Pc.claimsOn_eq_empty hfree]
    rfl
  have hself : p.Keeps p := ⟨h, Grows.refl p⟩
  unfold Process.answer
  split
  · exact hidle hself rfl
  · rename_i st hst
    split
    · exact hidle hself rfl
    · exact hidle (h.setObject_like hst (StoreState.pollFailed_like timing st now)) rfl
  · rename_i st seen hst
    split
    · exact hidle hself rfl
    · have hl : StoreState.Like st { st with pollBackoff := 0 } :=
        ⟨rfl, rfl, rfl, rfl, rfl, rfl, Finset.Subset.refl _⟩
      have hobj := h.setObject_like hst hl
      have hst' : (p.setObject i { st with pollBackoff := 0 }).objects[i]? =
          some { st with pollBackoff := 0 } := by
        rw [getElem?_setObject hst, if_pos rfl]
      obtain ⟨hloc, hlocpc, hfound⟩ := hobj.inv.locate key hst' seen
      dsimp only
      generalize hq : (p.setObject i { st with pollBackoff := 0 }).locate key i
        { st with pollBackoff := 0 } seen = found at hloc hlocpc hfound
      obtain ⟨q, r⟩ := found
      cases r with
      | none => exact hidle (hobj.trans hloc) hlocpc
      | some found =>
          obtain ⟨i', st'⟩ := found
          have hget := hfound i' st' rfl
          have hclaims := StoreState.serve_claims (hloc.inv.kept i' st' hget).sound now seen
          have hqfree : (q.pc t).claim? = none := by
            rw [show q.pc = p.pc from hlocpc]
            exact hfree
          refine (hobj.trans hloc).trans (hloc.inv.claims hget hclaims hqfree ?_ ?_)
          · intro j
            dsimp only
            split
            · exact Claim.pc_claimsOn _ j
            · rfl
          · have htorch : (st'.serve now seen).2.1 = true → (st'.serve now seen).1 = ∅ := by
              intro ht
              simp only [StoreState.serve, Bool.and_eq_true, decide_eq_true_eq] at ht
              exact ht.1.1.1
            dsimp only
            split
            · exact Claim.pc_ok _ _ htorch
            · refine ⟨fun c hc => ?_, fun c hc => ?_⟩
              · cases hc
                exact htorch
              · cases hc

theorem Inv.claim (h : p.Inv) {t : Thread} {key : Key} (hpc : p.pc t = .signalling key)
    (now : Nat) (gen : Option Nat) :
    p.Keeps ((p.claim key now gen).1.setPc t (.claimed (p.claim key now gen).2)) := by
  have hfree : (p.pc t).claim? = none := by rw [hpc]; rfl
  have hbare : ∀ c : Claim Key, c.state = none → c.torch = false →
      p.Keeps (p.setPc t (.claimed c)) := by
    intro c hstate htorch
    refine h.setPc t (fun j => ?_) ⟨fun d hd ht => ?_, fun d hd => nomatch hd⟩
    · rw [Pc.claimsOn_eq_empty hfree, Pc.claimsOn_eq (c := c) rfl, hstate, if_neg (by simp)]
    · cases hd
      exact absurd (htorch.symm.trans ht) (by decide)
  unfold Process.claim
  split
  · exact hbare _ rfl rfl
  · exact hbare _ rfl rfl
  · split
    · exact hbare _ rfl rfl
    · rename_i i st hst
      obtain ⟨i', -, hst'⟩ := Option.bind_eq_some_iff.mp hst
      obtain ⟨st'', hst'', heq⟩ := Option.map_eq_some_iff.mp hst'
      cases heq
      have hclaims := StoreState.claim_claims (h.kept i st hst'').sound now
      refine h.claims hst'' (hclaims _) hfree (fun j => rfl) ?_
      refine ⟨fun c hc ht => ?_, fun c hc => nomatch hc⟩
      cases hc
      cases ht

theorem Inv.finish (timing : Timing) (h : p.Inv) {t : Thread} {c : Claim Key} {ok : Bool}
    (hpc : p.pc t = .dumped c ok) (now : Nat) (acked : Bool) :
    p.Keeps ((p.finish timing c now ok acked).setPc t .idle) := by
  have hclaim : (p.pc t).claim? = some c := by rw [hpc]; rfl
  unfold Process.finish onState
  split
  · rename_i hnone
    cases hstate : c.state with
    | none => exact h.drops hpc hstate
    | some i =>
        -- a claim on a state that is not in the table holds nothing
        have hget : p.objects[i]? = none := by
          rw [hstate, Option.bind_some] at hnone
          exact Option.map_eq_none_iff.mp hnone
        refine h.setPc t (fun j => ?_) (Pc.ok_of_claim?_eq_none rfl _)
        refine (Finset.eq_empty_of_forall_notMem fun g hg => ?_).symm
        have hlt := h.lt t j g hg
        rw [Pc.claimsOn_eq hclaim, hstate] at hg
        split at hg
        · rename_i hij
          cases hij
          rw [List.getElem?_eq_none_iff] at hget
          omega
        · exact absurd hg (Finset.notMem_empty g)
  · rename_i i st hst
    obtain ⟨i', hi', hst'⟩ := Option.bind_eq_some_iff.mp hst
    obtain ⟨st'', hst'', heq⟩ := Option.map_eq_some_iff.mp hst'
    cases heq
    refine h.finishes hpc hi' hst'' ?_
    have hk := h.kept i st hst''
    have hgens : c.gens ⊆ st.pending := by
      intro g hg
      refine (hk.pending g).mpr ⟨t, ?_⟩
      rw [Pc.claimsOn_eq hclaim, if_pos hi']
      exact hg
    split
    · rename_i htorch
      have hempty : c.gens = ∅ := (h.ok t).torch c hclaim htorch
      rw [hempty]
      have hnone := StoreState.finish_finishes timing hk.sound now
        (Finset.empty_subset st.pending) ok false
      rw [StoreState.finish, if_pos rfl] at hnone
      exact hnone.of_like (StoreState.torchDone_like timing st now ok)
    · exact StoreState.finish_finishes timing hk.sound now hgens ok (ok && acked)

/-- Every step keeps the bookkeeping. -/
theorem Inv.next [DecidableEq Nonce] [DecidableEq Key] {timing : Timing} (h : p.Inv)
    {e : ProcessEvent Nonce Key Thread} {q : Process Nonce Key Thread}
    (hnext : processNext timing p e = some q) : p.Keeps q := by
  cases e with
  | attach group key read =>
      cases hnext
      exact h.attach group key read
  | detach group =>
      cases hnext
      exact h.detach group
  | poll t key now =>
      simp only [processNext] at hnext
      split at hnext
      · rename_i i hpc hkey
        obtain ⟨-, heq⟩ := Option.ite_none_right_eq_some.mp hnext
        cases heq
        refine h.setPc t (fun j => ?_) (Pc.ok_of_claim?_eq_none rfl _)
        rw [hpc]
        rfl
      · cases hnext
  | answer t now stuck seen =>
      simp only [processNext] at hnext
      split at hnext
      · rename_i key i hpc
        cases hnext
        exact h.answer timing hpc now stuck seen
      · cases hnext
  | reacked t ok =>
      simp only [processNext] at hnext
      split at hnext
      · rename_i unacked c hpc
        cases hnext
        have hq : p.Keeps (if ok then
            p.onState c fun st => { st with unacked := st.unacked \ unacked } else p) := by
          cases ok with
          | false => exact ⟨h, Grows.refl p⟩
          | true => exact h.onState_like c fun st =>
              ⟨rfl, rfl, rfl, rfl, rfl, rfl, Finset.sdiff_subset⟩
        have hqpc : (if ok then
            p.onState c fun st => { st with unacked := st.unacked \ unacked } else p).pc =
              p.pc := by
          cases ok with
          | false => rfl
          | true => exact onState_pc p c _
        refine hq.trans (hq.inv.setPc t (fun j => ?_) (Claim.pc_ok c _ ?_))
        · rw [hqpc, hpc, Claim.pc_claimsOn]
          rfl
        · exact (h.ok t).torch c (by rw [hpc]; rfl)
      · cases hnext
  | signal t key =>
      obtain ⟨hpc, heq⟩ := Option.ite_none_right_eq_some.mp hnext
      cases heq
      refine h.setPc t (fun j => ?_) (Pc.ok_of_claim?_eq_none rfl _)
      rw [hpc]
      rfl
  | signalled t now gen =>
      simp only [processNext] at hnext
      split at hnext
      · rename_i key hpc
        cases hnext
        exact h.claim hpc now gen
      · cases hnext
  | startDump t =>
      simp only [processNext] at hnext
      split at hnext
      · rename_i c hpc
        cases hnext
        refine h.setPc t (fun j => ?_) ⟨fun d hd => ?_, fun d hd => nomatch hd⟩
        · rw [hpc]
          rfl
        · exact (h.ok t).torch d (by rw [hpc]; exact hd)
      · cases hnext
  | endDump t ok =>
      simp only [processNext] at hnext
      split at hnext
      · rename_i c hpc
        cases hnext
        have hsame : ∀ j, (Pc.dumped c ok).claimsOn j = (p.pc t).claimsOn j := fun j => by
          rw [hpc]
          rfl
        have htorch : ∀ d, (Pc.dumped c ok).claim? = some d → d.torch = true → d.gens = ∅ :=
          fun d hd => (h.ok t).torch d (by rw [hpc]; exact hd)
        cases ok with
        | false => exact h.setPc t hsame ⟨htorch, fun d hd => nomatch hd⟩
        | true =>
            have hwrites := h.writes c
            refine hwrites.trans (hwrites.inv.setPc t hsame ⟨htorch, fun d hd => ?_⟩)
            cases hd
            exact List.mem_cons_self
      · cases hnext
  | finish t now acked =>
      simp only [processNext] at hnext
      split at hnext
      · rename_i c ok hpc
        cases hnext
        exact h.finish timing hpc now acked
      · cases hnext

end Changes

theorem start_inv : (start : Process Nonce Key Thread).Inv where
  kept _ _ hst := nomatch hst
  one _ _ _ g hg := absurd hg (Finset.notMem_empty g)
  lt _ _ g hg := absurd hg (Finset.notMem_empty g)
  ok _ := Pc.ok_of_claim?_eq_none rfl _

end Process

/-! ## Nothing asked for is lost -/

/-- The next claim that reaches `g` after the backoff takes it. -/
def StoreState.Claimable (st : StoreState Nonce) (g : Nat) : Prop :=
  ∀ now upto, st.dumpRetryAt ≤ now → g ≤ upto → g ∈ (st.claim now upto).1

/-- A written dump covered the generation, or a claim can take it. -/
def Process.Settled (p : Process Nonce Key Thread) (i g : Nat) : Prop :=
  Covers p.dumps i g ∨ ∃ st, p.objects[i]? = some st ∧ st.Claimable g

/-- What a thread with a claim still does, whatever comes of it. -/
def Pc.rest (pc : Pc Key) (t : Thread) (reacked ok : Bool) (now : Nat) (acked : Bool) :
    List (ProcessEvent Nonce Key Thread) :=
  match pc with
  | .reacking _ _ => [.reacked t reacked, .startDump t, .endDump t ok, .finish t now acked]
  | .claimed _ => [.startDump t, .endDump t ok, .finish t now acked]
  | .dumping _ => [.endDump t ok, .finish t now acked]
  | .dumped _ _ => [.finish t now acked]
  | _ => []

theorem StoreState.claimable_of_failed {st : StoreState Nonce} (hs : st.Sound) {g : Nat}
    (hg : g ∈ st.failed) : st.Claimable g := by
  cases hs with
  | unread hbase hfirst hdone hpending hfailed =>
      rw [hfailed] at hg
      exact absurd hg (Finset.notMem_empty g)
  | read hbase hhigh hfirst hle hmark =>
      intro now upto hdue hup
      exact (StoreState.mem_claim hbase hhigh hmark now upto g).mpr (.inr ⟨hg, hdue⟩)

namespace Process

section Settling

variable {p : Process Nonce Key Thread} {timing : Timing}

/-- A generation above the base is settled, or a thread has claimed it. -/
theorem Inv.settled_or_claimed (h : p.Inv) {i : Nat} {st : StoreState Nonce}
    (hst : p.objects[i]? = some st) {base : Nat} (hbase : st.base = some base) {g : Nat}
    (hg : base < g) : p.Settled i g ∨ ∃ t, g ∈ (p.pc t).claimsOn i := by
  have hk := h.kept i st hst
  cases hk.sound with
  | unread hnone => exact absurd (hbase.symm.trans hnone) (by simp)
  | read hbase' hhigh hfirst hle hmark =>
      rename_i base' high first
      cases hbase.symm.trans hbase'
      by_cases hgh : g ≤ high
      · obtain hdone | hpending | hfailed := (hmark.mem_iff g).mp ⟨hg, hgh⟩
        · exact .inl (.inl (hk.served g (.inl hdone)))
        · exact .inr ((hk.pending g).mp hpending)
        · exact .inl (.inr ⟨st, hst, StoreState.claimable_of_failed hk.sound hfailed⟩)
      · refine .inl (.inr ⟨st, hst, fun now upto _ hup => ?_⟩)
        exact (StoreState.mem_claim hbase hhigh hmark now upto g).mpr
          (.inl ⟨not_le.mp hgh, hup⟩)

variable [DecidableEq Thread]

/-- The outcome of a claim settles what it held. -/
theorem Inv.settled_of_finish (h : p.Inv) {t : Thread} {c : Claim Key} {ok : Bool}
    (hpc : p.pc t = .dumped c ok) {i g : Nat} (hi : c.state = some i) (hg : g ∈ c.gens)
    (now : Nat) (acked : Bool) :
    ((p.finish timing c now ok acked).setPc t .idle).Settled i g := by
  have hclaim : (p.pc t).claim? = some c := by rw [hpc]; rfl
  have hkeeps := h.finish timing hpc now acked
  cases ok with
  | true =>
      have hcovers : Covers p.dumps i g := ⟨c, (h.ok t).dumped c hpc, hi, hg⟩
      exact .inl (hcovers.mono hkeeps.grows.dumps)
  | false =>
      have hmine : g ∈ (p.pc t).claimsOn i := by
        rw [Pc.claimsOn_eq hclaim, if_pos hi]
        exact hg
      obtain ⟨st, hst⟩ : ∃ st, p.objects[i]? = some st :=
        ⟨_, List.getElem?_eq_getElem (h.lt t i g hmine)⟩
      have htorch : c.torch = false := by
        cases ht : c.torch with
        | false => rfl
        | true =>
            rw [(h.ok t).torch c hclaim ht] at hg
            exact absurd hg (Finset.notMem_empty g)
      have hgens : c.gens ⊆ st.pending := fun g' hg' => by
        refine ((h.kept i st hst).pending g').mpr ⟨t, ?_⟩
        rw [Pc.claimsOn_eq hclaim, if_pos hi]
        exact hg'
      have hfin := StoreState.finish_finishes timing (h.kept i st hst).sound now hgens false
        (false && acked)
      have hobjects : ((p.finish timing c now false acked).setPc t .idle).objects[i]? =
          some (st.finish timing now c.gens false (false && acked)) := by
        have hfinish : p.finish timing c now false acked =
            p.setObject i (st.finish timing now c.gens false (false && acked)) := by
          simp [Process.finish, onState, hi, hst, htorch]
        rw [hfinish]
        exact (getElem?_setObject hst _ i).trans (if_pos rfl)
      exact .inr ⟨_, hobjects, StoreState.claimable_of_failed hfin.sound (hfin.failed rfl g hg)⟩

variable [DecidableEq Nonce] [DecidableEq Key]

theorem run_of_next {p q r : Process Nonce Key Thread} {e : ProcessEvent Nonce Key Thread}
    {es : List (ProcessEvent Nonce Key Thread)} (hnext : processNext timing p e = some q)
    (hrun : (bookkeeping timing).run q es = some r) :
    (bookkeeping timing).run p (e :: es) = some r := by
  rw [System.run_cons, show (bookkeeping timing).next p e = some q from hnext]
  exact hrun

/-- A thread settles its claim on its own, whatever its requests and its dump come to. -/
theorem Inv.settled_of_rest (h : p.Inv) {t : Thread} {i g : Nat}
    (hg : g ∈ (p.pc t).claimsOn i) (reacked ok : Bool) (now : Nat) (acked : Bool) :
    ∃ q, (bookkeeping timing).run p ((p.pc t).rest t reacked ok now acked) = some q ∧
      q.Settled i g := by
  -- each place is one step away from the next one
  have hdumped : ∀ {p : Process Nonce Key Thread} {c : Claim Key} {ok : Bool}, p.Inv →
      p.pc t = .dumped c ok → c.state = some i → g ∈ c.gens →
      ∃ q, (bookkeeping timing).run p [.finish t now acked] = some q ∧ q.Settled i g := by
    intro p c ok h hpc hi hg
    refine ⟨(p.finish timing c now ok acked).setPc t .idle, ?_,
      h.settled_of_finish hpc hi hg now acked⟩
    simp [System.run, bookkeeping, processNext, hpc]
  have hdumping : ∀ {p : Process Nonce Key Thread} {c : Claim Key}, p.Inv →
      p.pc t = .dumping c → c.state = some i → g ∈ c.gens →
      ∃ q, (bookkeeping timing).run p [.endDump t ok, .finish t now acked] = some q ∧
        q.Settled i g := by
    intro p c h hpc hi hg
    have hnext : processNext timing p (.endDump t ok) =
        some { p.setPc t (.dumped c ok) with dumps := if ok then c :: p.dumps else p.dumps } := by
      simp only [processNext, hpc]
    obtain ⟨q, hrun, hq⟩ := hdumped (h.next hnext).inv (setPc_pc_self p t _) hi hg
    exact ⟨q, run_of_next hnext hrun, hq⟩
  have hclaimed : ∀ {p : Process Nonce Key Thread} {c : Claim Key}, p.Inv →
      p.pc t = .claimed c → c.state = some i → g ∈ c.gens →
      ∃ q, (bookkeeping timing).run p [.startDump t, .endDump t ok, .finish t now acked] =
        some q ∧ q.Settled i g := by
    intro p c h hpc hi hg
    have hnext : processNext timing p (.startDump t) = some (p.setPc t (.dumping c)) := by
      simp only [processNext, hpc]
    obtain ⟨q, hrun, hq⟩ := hdumping (h.next hnext).inv (setPc_pc_self p t _) hi hg
    exact ⟨q, run_of_next hnext hrun, hq⟩
  have hheld : ∀ c, (p.pc t).claim? = some c → c.state = some i ∧ g ∈ c.gens := by
    intro c hc
    rw [Pc.claimsOn_eq hc] at hg
    split at hg
    · exact ⟨‹_›, hg⟩
    · exact absurd hg (Finset.notMem_empty g)
  cases hpc : p.pc t with
  | idle | polling | signalling =>
      rw [hpc] at hg
      exact absurd hg (Finset.notMem_empty g)
  | dumped c ok' =>
      obtain ⟨hi, hgc⟩ := hheld c (by rw [hpc]; rfl)
      exact hdumped h hpc hi hgc
  | dumping c =>
      obtain ⟨hi, hgc⟩ := hheld c (by rw [hpc]; rfl)
      exact hdumping h hpc hi hgc
  | claimed c =>
      obtain ⟨hi, hgc⟩ := hheld c (by rw [hpc]; rfl)
      exact hclaimed h hpc hi hgc
  | reacking unacked c =>
      obtain ⟨hi, hgc⟩ := hheld c (by rw [hpc]; rfl)
      obtain ⟨q, hnext⟩ : ∃ q : Process Nonce Key Thread,
          processNext timing p (.reacked t reacked) =
          some (q.setPc t c.pc) := ⟨_, by simp only [processNext, hpc]; rfl⟩
      have hcpc : c.pc = .claimed c := if_pos (.inl (Finset.ne_empty_of_mem hgc))
      obtain ⟨r, hrun, hr⟩ := hclaimed (h.next hnext).inv
        ((setPc_pc_self q t _).trans hcpc) hi hgc
      exact ⟨r, run_of_next hnext hrun, hr⟩

end Settling

end Process

section Reachable

variable [DecidableEq Nonce] [DecidableEq Key] [DecidableEq Thread] {timing : Timing}

theorem inv_of_reachable {p : Process Nonce Key Thread}
    (hp : (bookkeeping timing).Reachable p) : p.Inv := by
  refine hp.invariant ?_ ?_
  · rintro p rfl
    exact Process.start_inv
  · intro p e q _ hinv hnext
    exact (hinv.next hnext).inv

theorem grows_of_run {p q : Process Nonce Key Thread}
    {es : List (ProcessEvent Nonce Key Thread)} (hp : (bookkeeping timing).Reachable p)
    (hrun : (bookkeeping timing).run p es = some q) : p.Grows q := by
  refine System.run_relates Process.Grows.refl (fun p q r => Process.Grows.trans) ?_ hp hrun
  intro p e q hreach hnext
  exact ((inv_of_reachable hreach).next hnext).grows

/-- In every reachable state of a process, for each of its store states: the
generations above `base` up to `high` are done, pending or failed, each exactly one
of them; no run lowers `base`; no two claims in progress share a generation; every
generation above `base` is dumped or claimable, or a thread holds it that settles it
by its own steps; and every unacknowledged one was dumped. -/
theorem generation_bookkeeping {p : Process Nonce Key Thread}
    (hp : (bookkeeping timing).Reachable p) {i : Nat} {st : StoreState Nonce}
    (hst : p.objects[i]? = some st) :
    (∀ base high, st.base = some base → st.high = some high →
      st.done ∪ st.pending ∪ st.failed = Finset.Ioc base high ∧ Disjoint st.done st.pending ∧
        Disjoint st.done st.failed ∧ Disjoint st.pending st.failed) ∧
    (st.base = none → st.done ∪ st.pending ∪ st.failed = ∅) ∧
    (∀ es q, (bookkeeping timing).run p es = some q → ∃ st', q.objects[i]? = some st' ∧
      ∀ base, st.base = some base → ∃ base', st'.base = some base' ∧ base ≤ base') ∧
    (∀ t t', t ≠ t' → Disjoint ((p.pc t).claimsOn i) ((p.pc t').claimsOn i)) ∧
    (∀ base g, st.base = some base → base < g → p.Settled i g ∨
      ∃ t, g ∈ (p.pc t).claimsOn i ∧ ∀ reacked ok now acked, ∃ q,
        (bookkeeping timing).run p ((p.pc t).rest t reacked ok now acked) = some q ∧
          q.Settled i g) ∧
    (∀ g ∈ st.unacked, Covers p.dumps i g) := by
  have hinv := inv_of_reachable hp
  have hk := hinv.kept i st hst
  refine ⟨?_, ?_, ?_, ?_, ?_, hk.unacked⟩
  · intro base high hbase hhigh
    cases hk.sound with
    | unread hnone => exact absurd (hbase.symm.trans hnone) (by simp)
    | read hbase' hhigh' hfirst hle hmark =>
        cases hbase.symm.trans hbase'
        cases hhigh.symm.trans hhigh'
        exact ⟨hmark.union_eq, hmark.done_pending, hmark.done_failed, hmark.pending_failed⟩
  · intro hnone
    cases hk.sound with
    | unread hbase hfirst hdone hpending hfailed => simp [hdone, hpending, hfailed]
    | read hbase => exact absurd (hnone.symm.trans hbase) (by simp)
  · intro es q hrun
    exact (grows_of_run hp hrun).state i st hst
  · intro t t' hne
    refine Finset.disjoint_left.mpr fun g hg hg' => hne ?_
    exact hinv.one i t t' g hg hg'
  · intro base g hbase hg
    obtain hsettled | ⟨t, ht⟩ := hinv.settled_or_claimed hst hbase hg
    · exact .inl hsettled
    · exact .inr ⟨t, ht, fun reacked ok now acked =>
        hinv.settled_of_rest ht reacked ok now acked⟩

/-- The monitor serves three generations without getting its acknowledgement
through; an incident's dump of the next two fails. -/
theorem generation_bookkeeping_twoThreads :
    ∃ (p : Process Nat Unit Bool) (st : StoreState Nat),
      (bookkeeping ⟨1, 60, 15⟩).run .start
        [.attach 0 () (some ⟨7, false, 0⟩), .poll true () 5,
          .answer true 5 false (some ⟨7, true, 3⟩), .signal false (), .startDump true,
          .endDump true true, .finish true 6 false, .signalled false 7 (some 5),
          .startDump false, .endDump false false,
          .finish false 8 false] = some p ∧
      p.objects[0]? = some st ∧ st.base = some 3 ∧ st.high = some 5 ∧ st.failed = {4, 5} ∧
      st.done ∪ st.pending ∪ st.failed = Finset.Ioc 3 5 ∧
      (∀ g, 3 < g → p.Settled 0 g ∨ ∃ t, g ∈ (p.pc t).claimsOn 0) ∧
      ∀ g ∈ st.unacked, Covers p.dumps 0 g := by
  have hrun : ((bookkeeping ⟨1, 60, 15⟩).run (.start : Process Nat Unit Bool)
        [.attach 0 () (some ⟨7, false, 0⟩), .poll true () 5,
          .answer true 5 false (some ⟨7, true, 3⟩), .signal false (), .startDump true,
          .endDump true true, .finish true 6 false, .signalled false 7 (some 5),
          .startDump false, .endDump false false,
          .finish false 8 false]).any (fun p => (p.objects[0]?).any fun st =>
      decide (st.base = some 3 ∧ st.high = some 5 ∧ st.failed = {4, 5})) = true := by
    decide
  obtain ⟨p, hp, hany⟩ := (Option.any_eq_true _ _).mp hrun
  obtain ⟨st, hst, hdec⟩ := (Option.any_eq_true _ _).mp hany
  obtain ⟨hbase, hhigh, hfailed⟩ := of_decide_eq_true hdec
  have hreach : (bookkeeping ⟨1, 60, 15⟩).Reachable p := System.Reachable.run (.of_init rfl) hp
  obtain ⟨hsplit, -, -, -, hkept, hunacked⟩ := generation_bookkeeping hreach hst
  refine ⟨p, st, hp, hst, hbase, hhigh, hfailed, (hsplit 3 5 hbase hhigh).1, ?_, hunacked⟩
  intro g hg
  obtain h | ⟨t, ht, -⟩ := hkept 3 g hbase hg
  · exact .inl h
  · exact .inr ⟨t, ht⟩

end Reachable

end TorchMojoBackend.Distributed
