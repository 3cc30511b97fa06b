/-
  `FlightRecorder.SeqIds`: how operations and coalescing blocks advance the ids.

  A process group's operation describes itself in the tag it hands down with its
  library calls, which it makes directly or in a group of its own; inside a
  coalescing block the block's group holds them all.  The native core counts the
  entries it records: one for an operation's group, one for each call of a block's
  operation and one for each communicator at the block's end.  So the ids advance
  once for each operation exactly when every operation makes a call, those of a
  block one each, on one communicator.
-/
import TorchMojoBackend.Watchdog.GroupsInvariant

set_option autoImplicit false

namespace TorchMojoBackend.FlightRecorder

open TorchMojoBackend.Foundation TorchMojoBackend.Watchdog TorchMojoBackend.Watchdog.Groups

/-! ## Operations -/

/-- A call of the library. -/
structure LibCall where
  op : Op
  count : Int
  dtype : Int
  root : Int
  redop : Int

/-- A process group as its operations use it: the thread that issues them, its library,
watch and communicators, and the communicators whose commits the watchdog drops. -/
structure ProcessGroup where
  thread : Nat
  lib : Nat
  watch : Nat
  comms : List Nat
  drop : Nat → Bool

/-- The library calls of an operation: the one it is, or those it makes in `_group`. -/
inductive LibCalls where
  | direct (call : LibCall)
  | group (calls : List LibCall)

def LibCalls.toList : LibCalls → List LibCall
  | .direct call => [call]
  | .group calls => calls

/-- An operation, on a communicator of its process group. -/
structure Operation (g : ProcessGroup) where
  p2p : Bool
  comm : Nat
  known : comm ∈ g.comms
  calls : LibCalls

/-- An operation by itself, or a coalescing block. -/
inductive Item (g : ProcessGroup) where
  | single (o : Operation g)
  | block (ops : List (Operation g))

/-- How many records Python begins for it: one an operation, one for a block's end. -/
def Item.records {g : ProcessGroup} : Item g → Nat
  | .single _ => 1
  | .block ops => ops.length + 1

namespace ProcessGroup

variable (g : ProcessGroup)

/-- A library call with the tag of its operation. -/
def libCall (comm : Nat) (tag : Tag) (s : State) (c : LibCall) : State :=
  s.track g.thread g.lib g.watch comm c.op c.count c.dtype c.root c.redop tag (g.drop comm)

/-- `tmb_pg_group_end` of a group the library submits. -/
def groupEnd (s : State) (tag : Tag) : State :=
  (g.comms.foldl (fun s t => s.groupFrMark g.thread g.lib g.watch t tag) s).groupExit
    g.thread g.lib true g.drop

/-- An operation outside a block, with the Python record `n`. -/
def single (n : Nat) (o : Operation g) (s : State) : State :=
  let tag : Tag := ⟨n, false, false, false, o.p2p⟩
  match o.calls with
  | .direct call => g.libCall o.comm tag s call
  | .group calls =>
    g.groupEnd (calls.foldl (g.libCall o.comm tag) (s.groupEnter g.thread g.lib)) tag

/-- An operation of a block; `_group` opens no group of its own there. -/
def member (n : Nat) (first : Bool) (o : Operation g) (s : State) : State :=
  o.calls.toList.foldl (g.libCall o.comm ⟨n, true, first, false, o.p2p⟩) s

def members (n : Nat) (first : Bool) : List (Operation g) → State → State
  | [], s => s
  | o :: ops, s => members (n + 1) false ops (g.member n first o s)

/-- `_start_coalescing`, the operations and `_end_coalescing`. -/
def block (n : Nat) (ops : List (Operation g)) (s : State) : State :=
  g.groupEnd (g.members n true ops (s.groupEnter g.thread g.lib))
    ⟨n + ops.length, false, false, true, ops.any (·.p2p)⟩

def issue (n : Nat) : Item g → State → State
  | .single o => g.single n o
  | .block ops => g.block n ops

/-- The ids the process group has counted up to. -/
def ids (s : State) : Counters := (s.counters g.watch).getD ⟨0, 0, 0, false, false⟩

/-! ## How the ids should advance -/

/-- `op_id` advances once for each operation of a block. -/
def MembersAdvance (n : Nat) (first : Bool) : List (Operation g) → State → Prop
  | [], _ => True
  | o :: ops, s =>
    (g.ids (g.member n first o s)).opid = (g.ids s).opid + 1 ∧
      MembersAdvance (n + 1) false ops (g.member n first o s)

/-- An operation advances `op_id` and the count of its kind; a block the collective count
if it has a collective and the point-to-point count at most once, and its end no
`op_id`. -/
def ItemAdvances (n : Nat) : Item g → State → Prop
  | .single o, s =>
    (g.ids (g.single n o s)).opid = (g.ids s).opid + 1 ∧
    (g.ids (g.single n o s)).cseq = (g.ids s).cseq + (if o.p2p then 0 else 1) ∧
    (g.ids (g.single n o s)).pseq = (g.ids s).pseq + (if o.p2p then 1 else 0)
  | .block ops, s =>
    let start := s.groupEnter g.thread g.lib
    (g.ids start).opid = (g.ids s).opid ∧ g.MembersAdvance n true ops start ∧
    (g.ids (g.block n ops s)).opid = (g.ids (g.members n true ops start)).opid ∧
    (g.ids (g.block n ops s)).cseq =
      (g.ids s).cseq + (if ops.any fun o => !o.p2p then 1 else 0) ∧
    (g.ids s).pseq ≤ (g.ids (g.block n ops s)).pseq ∧
    (g.ids (g.block n ops s)).pseq ≤ (g.ids s).pseq + 1

/-- Every operation of a sequence advances the ids as it should. -/
def Advance (n : Nat) : List (Item g) → State → Prop
  | [], _ => True
  | i :: items, s => g.ItemAdvances n i s ∧ Advance (n + i.records) items (g.issue n i s)

end ProcessGroup

/-- The operation outside a block makes a call; those of a block make one each, all on
one communicator. -/
def Item.OneCall {g : ProcessGroup} : Item g → Prop
  | .single o => o.calls.toList ≠ []
  | .block ops =>
    (∀ o ∈ ops, o.calls.toList.length = 1) ∧ ∀ o ∈ ops, ∀ o' ∈ ops, o.comm = o'.comm

/-! ## The counters -/

/-- The counters after an entry of a native operation with a tag word. -/
def Counters.next (c : Counters) (tag : Tag) (op : Op) : Counters :=
  c.advance (c.effective tag) ((c.effective tag).p2pOr op.pointToPoint)

namespace Counters

@[simp] theorem bumpOnce_opid (c : Counters) (p2p : Bool) : (c.bumpOnce p2p).opid = c.opid := by
  unfold bumpOnce
  split <;> split <;> rfl

@[simp] theorem bumpSeq_opid (c : Counters) (p2p : Bool) : (c.bumpSeq p2p).opid = c.opid := by
  unfold bumpSeq
  split <;> rfl

@[simp] theorem bumpSeq_groupC (c : Counters) (p2p : Bool) :
    (c.bumpSeq p2p).groupC = c.groupC := by
  unfold bumpSeq
  split <;> rfl

@[simp] theorem bumpSeq_groupP (c : Counters) (p2p : Bool) :
    (c.bumpSeq p2p).groupP = c.groupP := by
  unfold bumpSeq
  split <;> rfl

/-- An ordinary entry with a Python record. -/
theorem next_single (c : Counters) {n : Nat} (hn : n ≠ 0) (p2p : Bool) (op : Op) :
    c.next ⟨n, false, false, false, p2p⟩ op = { c with opid := c.opid + 1 }.bumpSeq p2p := by
  simp [next, effective, Tag.p2pOr, advance, hn]

/-- A member's entry with a Python record. -/
theorem next_member (c : Counters) {n : Nat} (hn : n ≠ 0) (first p2p : Bool) (op : Op) :
    c.next ⟨n, true, first, false, p2p⟩ op =
      { (if first then { c with groupC := false, groupP := false } else c) with
        opid := c.opid + 1 }.bumpOnce p2p := by
  cases first <;> simp [next, effective, Tag.p2pOr, advance, hn]

/-- The first end entry of a block. -/
theorem next_end (c : Counters) {n : Nat} (p2p : Bool) (op : Op)
    (hopen : c.groupC = true ∨ c.groupP = true) :
    c.next ⟨n, false, false, true, p2p⟩ op = { c with groupC := false, groupP := false } := by
  have heff : c.effective ⟨n, false, false, true, p2p⟩ = ⟨n, false, false, true, p2p⟩ := by
    unfold effective
    rw [if_neg]
    rintro ⟨-, hc, hp⟩
    obtain h | h := hopen
    · rw [h] at hc
      cases hc
    · rw [h] at hp
      cases hp
  rw [next, heff]
  simp [advance]

/-- A further one is an ordinary entry. -/
theorem next_end_again (c : Counters) {n : Nat} (p2p : Bool) (op : Op) (hc : c.groupC = false)
    (hp : c.groupP = false) :
    (c.next ⟨n, false, false, true, p2p⟩ op).opid = c.opid + 1 ∧
      (c.next ⟨n, false, false, true, p2p⟩ op).groupC = false ∧
      (c.next ⟨n, false, false, true, p2p⟩ op).groupP = false := by
  have heff : c.effective ⟨n, false, false, true, p2p⟩ = .zero := by
    simp [effective, hc, hp]
  rw [next, heff]
  simp [advance, Tag.zero, hc, hp]

theorem foldl_end_again {n : Nat} (p2p : Bool) (ops : List Op) (c : Counters)
    (hc : c.groupC = false) (hp : c.groupP = false) :
    (ops.foldl (fun c op => c.next ⟨n, false, false, true, p2p⟩ op) c).opid =
      c.opid + ops.length ∧
    (ops.foldl (fun c op => c.next ⟨n, false, false, true, p2p⟩ op) c).groupC = false ∧
    (ops.foldl (fun c op => c.next ⟨n, false, false, true, p2p⟩ op) c).groupP = false := by
  induction ops generalizing c with
  | nil => exact ⟨rfl, hc, hp⟩
  | cons op ops ih =>
      obtain ⟨hid, hc', hp'⟩ := c.next_end_again (n := n) p2p op hc hp
      obtain ⟨hid', hflags⟩ := ih _ hc' hp'
      rw [List.foldl_cons, List.length_cons]
      exact ⟨by rw [hid', hid]; omega, hflags⟩

/-- The end entries of a block, one for each communicator with calls. -/
theorem foldl_end (c : Counters) {n : Nat} (p2p : Bool) (ops : List Op)
    (hopen : ops ≠ [] → c.groupC = true ∨ c.groupP = true) :
    (ops.foldl (fun c op => c.next ⟨n, false, false, true, p2p⟩ op) c).opid =
      c.opid + (ops.length - 1) ∧
    (ops.length = 1 →
      ops.foldl (fun c op => c.next ⟨n, false, false, true, p2p⟩ op) c =
        { c with groupC := false, groupP := false }) ∧
    (ops ≠ [] →
      (ops.foldl (fun c op => c.next ⟨n, false, false, true, p2p⟩ op) c).groupC = false ∧
      (ops.foldl (fun c op => c.next ⟨n, false, false, true, p2p⟩ op) c).groupP = false) := by
  cases ops with
  | nil => exact ⟨rfl, fun h => absurd h (by simp), fun h => absurd rfl h⟩
  | cons op ops =>
      rw [List.foldl_cons, next_end c p2p op (hopen (List.cons_ne_nil _ _))]
      obtain ⟨hid, hflags⟩ := foldl_end_again (n := n) p2p ops
        { c with groupC := false, groupP := false } rfl rfl
      refine ⟨hid, fun hone => ?_, fun _ => hflags⟩
      obtain rfl : ops = [] := by simpa using hone
      rfl

/-- The counts of a block after operations of the kinds `seen`, one entry each. -/
structure Counted (c₀ : Counters) (seen : List Bool) (c : Counters) : Prop where
  cseq : c.cseq = c₀.cseq + (if seen.any fun p2p => !p2p then 1 else 0)
  pseq : c.pseq = c₀.pseq + (if seen.any fun p2p => p2p then 1 else 0)
  groupC : c.groupC = seen.any fun p2p => !p2p
  groupP : c.groupP = seen.any fun p2p => p2p

theorem Counted.start {c : Counters} (hc : c.groupC = false) (hp : c.groupP = false) :
    Counted c [] c := ⟨rfl, rfl, hc, hp⟩

theorem Counted.member {c₀ c : Counters} {seen : List Bool} (h : Counted c₀ seen c) {n : Nat}
    (hn : n ≠ 0) {first : Bool} (hfirst : first = true → seen = []) (p2p : Bool) (op : Op) :
    Counted c₀ (seen ++ [p2p]) (c.next ⟨n, true, first, false, p2p⟩ op) := by
  have hc := h.groupC
  have hp := h.groupP
  have hcseq := h.cseq
  have hpseq := h.pseq
  -- the flags a first member resets are not set yet
  have hreset : (if first then { c with groupC := false, groupP := false } else c) = c := by
    cases first with
    | false => rfl
    | true =>
        obtain rfl := hfirst rfl
        rw [if_pos rfl]
        cases c
        simp_all
  rw [next_member c hn, hreset]
  cases p2p with
  | false =>
      cases hflag : c.groupC with
      | true =>
          rw [hflag] at hc
          constructor <;> simp [bumpOnce, hflag, hcseq, hpseq, hp, ← hc]
      | false =>
          rw [hflag] at hc
          constructor <;> simp [bumpOnce, hflag, hcseq, hpseq, hp, ← hc]
  | true =>
      cases hflag : c.groupP with
      | true =>
          rw [hflag] at hp
          constructor <;> simp [bumpOnce, hflag, hcseq, hpseq, hc, ← hp]
      | false =>
          rw [hflag] at hp
          constructor <;> simp [bumpOnce, hflag, hcseq, hpseq, hc, ← hp]

theorem bumpOnce_flags (c : Counters) (p2p : Bool) :
    (c.bumpOnce p2p).groupC = true ∨ (c.bumpOnce p2p).groupP = true := by
  cases p2p with
  | false =>
      refine .inl ?_
      rw [bumpOnce, if_neg Bool.false_ne_true]
      split
      · assumption
      · rfl
  | true =>
      refine .inr ?_
      rw [bumpOnce, if_pos rfl]
      split
      · assumption
      · rfl

/-- A member's entry counts, whatever was counted before. -/
theorem next_member_flags (c : Counters) {n : Nat} (hn : n ≠ 0) (first p2p : Bool) (op : Op) :
    (c.next ⟨n, true, first, false, p2p⟩ op).opid = c.opid + 1 ∧
      ((c.next ⟨n, true, first, false, p2p⟩ op).groupC = true ∨
        (c.next ⟨n, true, first, false, p2p⟩ op).groupP = true) := by
  rw [next_member c hn]
  exact ⟨bumpOnce_opid _ _, bumpOnce_flags _ _⟩

end Counters

/-! ## Calls in a group -/

/-- The process group's group is open on its thread, with calls tagged `tag` so far. -/
structure InGroup (g : ProcessGroup) (tag : Tag) (s : State) (c : Counters)
    (folds : List GroupFold) : Prop where
  levels : s.levels = [⟨g.thread, g.lib, 1, folds⟩]
  counters : s.counters g.watch = some c
  nodup : (folds.map GroupFold.tracker).Nodup
  folds : ∀ f ∈ folds, f.tracker ∈ g.comms ∧ f.watch = g.watch ∧ f.commit.nops ≠ 0 ∧
    f.entry.nops ≠ 0 ∧ f.rids = [] ∧ f.members = tag.member ∧ (tag.member = false → f.tag = tag)

/-- No group of the process is open. -/
structure Idle (g : ProcessGroup) (s : State) (c : Counters) : Prop where
  levels : s.levels = []
  counters : s.counters g.watch = some c

theorem Idle.groupEnter {g : ProcessGroup} {s : State} {c : Counters} (h : Idle g s c)
    (tag : Tag) : InGroup g tag (s.groupEnter g.thread g.lib) c [] := by
  have henter : s.groupEnter g.thread g.lib =
      { s with levels := [⟨g.thread, g.lib, 1, []⟩] } := by
    simp [State.groupEnter, State.level?, h.levels]
  rw [henter]
  exact ⟨rfl, h.counters, List.nodup_nil, fun f hf => absurd hf List.not_mem_nil⟩

theorem fold_nops_ne_zero (e : Entry) {e' : Entry} (h : e'.nops ≠ 0) : (e.fold e').nops ≠ 0 := by
  unfold Entry.fold
  split
  · exact h
  · dsimp only
    omega

theorem Counters.next_of_frRecord {s : State} {w : Nat} {c : Counters}
    (hc : s.counters w = some c) (t : Nat) (e : Entry) (tag : Tag) (deferred : Bool) :
    (s.frRecord w t e tag deferred).1.counters w = some (c.next tag e.op) ∧
      (s.frRecord w t e tag deferred).2 ≠ 0 := by
  unfold State.frRecord
  rw [hc]
  exact ⟨Function.update_self .., Nat.succ_ne_zero _⟩

theorem nextCpos_counters (s : State) (t : Nat) (op : Op) :
    (s.nextCpos t op).1.counters = s.counters := by
  unfold State.nextCpos
  split <;> rfl

/-- The call's fold is the one of its communicator, with one more call. -/
theorem foldOf_add_of_open {g : ProcessGroup} {tag : Tag} {s : State} {c : Counters}
    {folds : List GroupFold} (h : InGroup g tag s c folds) (t : Nat) (e : Entry) (n : Nat) :
    let f := ((⟨g.thread, g.lib, 1, folds⟩ : Level).foldOf g.watch t).add e n
    f.tracker = t ∧ f.watch = g.watch ∧ f.rids = [] ∧
      (f.entry.nops = 0 ∧ f.members = false ∨
        f.members = tag.member ∧ (tag.member = false → f.tag = tag)) := by
  unfold Level.foldOf
  cases hfind : folds.find? fun f => f.tracker = t with
  | none => exact ⟨rfl, rfl, rfl, .inl ⟨rfl, rfl⟩⟩
  | some f =>
      have ht : f.tracker = t := by simpa using List.find?_some hfind
      obtain ⟨-, hw, -, -, hr, hm⟩ := h.folds f (List.mem_of_find?_eq_some hfind)
      exact ⟨ht, hw, hr, .inr hm⟩

/-- A fold takes its place in the open group. -/
theorem InGroup.setFold {g : ProcessGroup} {tag : Tag} {s : State} {c : Counters}
    {folds : List GroupFold} (h : InGroup g tag s c folds) {f : GroupFold}
    (hf : f.tracker ∈ g.comms ∧ f.watch = g.watch ∧ f.commit.nops ≠ 0 ∧ f.entry.nops ≠ 0 ∧
      f.rids = [] ∧ f.members = tag.member ∧ (tag.member = false → f.tag = tag)) :
    ∃ folds',
      InGroup g tag (s.setLevel ((⟨g.thread, g.lib, 1, folds⟩ : Level).setFold f)) c folds' ∧
      ∀ t, t ∈ folds'.map GroupFold.tracker ↔ t ∈ folds.map GroupFold.tracker ∨ t = f.tracker := by
  have hlevels : ∀ lv' : Level, lv'.thread = g.thread → lv'.lib = g.lib →
      (s.setLevel lv').levels = [lv'] := fun lv' ht hl => by
    simp [State.setLevel, h.levels, ht, hl]
  cases hfind : folds.find? fun g => g.tracker = f.tracker with
  | none =>
      obtain ⟨hset, hnone⟩ := @Level.setFold_of_none ⟨g.thread, g.lib, 1, folds⟩ f hfind
      refine ⟨folds ++ [f], ⟨?_, h.counters, ?_, fun x hx => ?_⟩, fun t => by simp [eq_comm]⟩
      · rw [hset]
        exact hlevels _ rfl rfl
      · rw [List.map_append, List.nodup_append]
        refine ⟨h.nodup, List.nodup_singleton _, fun a ha b hb => ?_⟩
        obtain ⟨x, hx, rfl⟩ := List.mem_map.mp ha
        rw [List.mem_singleton.mp hb]
        exact hnone x hx
      · obtain hx | hx := List.mem_append.mp hx
        · exact h.folds x hx
        · rw [List.mem_singleton.mp hx]
          exact hf
  | some x =>
      obtain ⟨l₁, l₂, hl, hset, hx⟩ :=
        @Level.setFold_of_find? ⟨g.thread, g.lib, 1, folds⟩ h.nodup _ _ hfind
      dsimp only at hl hset
      have hmap : (l₁ ++ f :: l₂).map GroupFold.tracker = folds.map GroupFold.tracker := by
        rw [hl]
        simp [hx]
      refine ⟨l₁ ++ f :: l₂, ⟨?_, h.counters, hmap ▸ h.nodup, fun y hy => ?_⟩, fun t => ?_⟩
      · rw [hset]
        exact hlevels _ rfl rfl
      · obtain hy | hy := List.mem_append.mp hy
        · exact h.folds y (hl ▸ List.mem_append_left _ hy)
        · obtain rfl | hy := List.mem_cons.mp hy
          · exact hf
          · exact h.folds y (hl ▸ List.mem_append_right _ (List.mem_cons_of_mem _ hy))
      · rw [hmap]
        refine ⟨.inl, fun ht => ht.elim id fun ht => ?_⟩
        rw [ht, ← hx]
        exact List.mem_map_of_mem (hl ▸ List.mem_append_right _ List.mem_cons_self)

/-- A library call in the group: a member's is counted, another one waits. -/
theorem InGroup.libCall {g : ProcessGroup} {tag : Tag} {s : State} {c : Counters}
    {folds : List GroupFold} (h : InGroup g tag s c folds) {comm : Nat} (hcomm : comm ∈ g.comms)
    (call : LibCall) : ∃ folds', InGroup g tag (g.libCall comm tag s call)
        (if tag.member then c.next tag call.op else c) folds' ∧
      ∀ t, t ∈ folds'.map GroupFold.tracker ↔ t ∈ folds.map GroupFold.tracker ∨ t = comm := by
  unfold ProcessGroup.libCall State.track
  have hb := s.nextCpos_books comm call.op
  have hcounters := nextCpos_counters s comm call.op
  generalize s.nextCpos comm call.op = numbered at hb hcounters ⊢
  obtain ⟨s', cpos⟩ := numbered
  dsimp only at hb hcounters ⊢
  generalize he : (⟨call.op, 1, call.count, call.dtype, call.root, call.redop,
    callFp call.op call.count call.dtype call.root call.redop, cpos⟩ : Entry) = e
  have hnops : e.nops ≠ 0 := by
    rw [← he]
    exact Nat.one_ne_zero
  have hop : e.op = call.op := by rw [← he]
  have hlevel : ∀ calls : List Call, State.level? { s' with calls := calls } g.thread g.lib =
      some ⟨g.thread, g.lib, 1, folds⟩ := fun calls => by
    simp [State.level?, hb.levels, h.levels]
  generalize hs₁ : ({ s' with calls := s'.calls ++ [⟨g.thread, g.lib, g.watch, comm, e,
    (s'.level? g.thread g.lib).isSome⟩] } : State) = s₁
  have hin : InGroup g tag s₁ c folds := by
    rw [← hs₁]
    exact ⟨hb.levels.trans h.levels, by dsimp only; rw [hcounters]; exact h.counters, h.nodup,
      h.folds⟩
  have hlv : s₁.level? g.thread g.lib = some ⟨g.thread, g.lib, 1, folds⟩ := by
    rw [← hs₁]
    exact hlevel _
  rw [hlv]
  dsimp only
  -- the fold's calls so far belong to the same operation or are members too
  obtain ⟨ht, hw, hr, hm⟩ := foldOf_add_of_open hin comm e s'.calls.length
  have hadd : ∃ f : GroupFold, State.groupAdd s₁ ⟨g.thread, g.lib, 1, folds⟩ g.watch comm e tag
        s'.calls.length = s₁.setLevel ((⟨g.thread, g.lib, 1, folds⟩ : Level).setFold f) ∧
      f.tracker = comm ∧ f.watch = g.watch ∧ f.commit.nops ≠ 0 ∧ f.entry.nops ≠ 0 ∧
      f.rids = [] ∧ f.members = tag.member ∧ (tag.member = false → f.tag = tag) := by
    have hcommit : ((⟨g.thread, g.lib, 1, folds⟩ : Level).foldOf g.watch comm |>.add e
        s'.calls.length).commit.nops ≠ 0 := fold_nops_ne_zero _ hnops
    unfold State.groupAdd
    dsimp only
    generalize ((⟨g.thread, g.lib, 1, folds⟩ : Level).foldOf g.watch comm).add e
      s'.calls.length = f at ht hw hr hm hcommit ⊢
    rw [hin.counters]
    dsimp only
    cases hmember : tag.member with
    | true =>
        rw [if_pos rfl, if_neg]
        · exact ⟨_, rfl, ht, hw, hcommit, fold_nops_ne_zero _ hnops, hr, rfl, fun h => Bool.noConfusion h⟩
        · rintro ⟨hne, hf⟩
          obtain ⟨hz, -⟩ | ⟨hf', -⟩ := hm
          · exact hne hz
          · rw [hf', hmember] at hf
            cases hf
    | false =>
        rw [if_neg Bool.false_ne_true, if_neg]
        · refine ⟨_, rfl, ht, hw, hcommit, fold_nops_ne_zero _ hnops, hr, ?_, fun _ => rfl⟩
          obtain ⟨-, hf⟩ | ⟨hf, -⟩ := hm
          · exact hf
          · exact hf.trans hmember
        · rintro ⟨hne, hf⟩
          obtain ⟨hz, -⟩ | ⟨hf', htag⟩ := hm
          · exact hne hz
          · obtain hf | hf := hf
            · rw [hf', hmember] at hf
              cases hf
            · exact hf (htag hmember)
  obtain ⟨f, heq, hft, hfw, hrest⟩ := hadd
  rw [heq]
  obtain ⟨folds', hin', hmem⟩ := hin.setFold (f := f) ⟨hft ▸ hcomm, hfw, hrest⟩
  rw [hft] at hmem
  split
  · obtain ⟨hc, -⟩ := Counters.next_of_frRecord hin'.counters comm e tag false
    rw [hop] at hc
    have hbooks := State.frRecord_books
      (s₁.setLevel ((⟨g.thread, g.lib, 1, folds⟩ : Level).setFold f)) g.watch comm e tag false
    exact ⟨folds', ⟨hbooks.levels.trans hin'.levels, hc, hin'.nodup, hin'.folds⟩, hmem⟩
  · exact ⟨folds', hin', hmem⟩

/-- The calls of an operation in the group. -/
theorem InGroup.libCalls {g : ProcessGroup} {tag : Tag} {comm : Nat} (hcomm : comm ∈ g.comms)
    (calls : List LibCall) {s : State} {c : Counters} {folds : List GroupFold}
    (h : InGroup g tag s c folds) : ∃ folds', InGroup g tag (calls.foldl (g.libCall comm tag) s)
        (if tag.member then calls.foldl (fun c call => c.next tag call.op) c else c) folds' ∧
      ∀ t, t ∈ folds'.map GroupFold.tracker ↔
        t ∈ folds.map GroupFold.tracker ∨ calls ≠ [] ∧ t = comm := by
  induction calls generalizing s c folds with
  | nil =>
      refine ⟨folds, ?_, fun t => by simp⟩
      split <;> exact h
  | cons call calls ih =>
      obtain ⟨folds₁, h₁, hmem₁⟩ := h.libCall hcomm call
      obtain ⟨folds₂, h₂, hmem₂⟩ := ih h₁
      refine ⟨folds₂, ?_, fun t => ?_⟩
      · cases hm : tag.member with
        | false => simpa [hm] using h₂
        | true => simpa [hm] using h₂
      · rw [hmem₂, hmem₁]
        constructor
        · rintro ((h | h) | ⟨-, h⟩)
          · exact .inl h
          · exact .inr ⟨List.cons_ne_nil _ _, h⟩
          · exact .inr ⟨List.cons_ne_nil _ _, h⟩
        · rintro (h | ⟨-, h⟩)
          · exact .inl (.inl h)
          · exact .inl (.inr h)

/-! ## The end of a group -/

/-- A fold whose operation's entry has been made. -/
def Marked (f : GroupFold) : Prop :=
  f.entry.nops = 0 ∧ ∃ last, f.rids.getLast? = some last ∧ last ≠ 0

/-- The group's end is marking its communicators: some folds wait, the others have their
entries. -/
structure Marking (g : ProcessGroup) (s : State) (c : Counters) (folds : List GroupFold) :
    Prop where
  levels : s.levels = [⟨g.thread, g.lib, 1, folds⟩]
  counters : s.counters g.watch = some c
  nodup : (folds.map GroupFold.tracker).Nodup
  folds : ∀ f ∈ folds, f.tracker ∈ g.comms ∧ f.watch = g.watch ∧ f.commit.nops ≠ 0 ∧
    (f.entry.nops ≠ 0 ∧ f.rids = [] ∨ Marked f)

theorem InGroup.marking {g : ProcessGroup} {tag : Tag} {s : State} {c : Counters}
    {folds : List GroupFold} (h : InGroup g tag s c folds) : Marking g s c folds := by
  refine ⟨h.levels, h.counters, h.nodup, fun f hf => ?_⟩
  obtain ⟨hcomm, hw, hk, he, hr, -⟩ := h.folds f hf
  exact ⟨hcomm, hw, hk, .inl ⟨he, hr⟩⟩

/-- The folds that still wait. -/
def unmarked (folds : List GroupFold) : List GroupFold := folds.filter fun f => f.entry.nops ≠ 0

/-- Marking one communicator makes one entry if its fold waits. -/
theorem Marking.groupFrMark {g : ProcessGroup} {s : State} {c : Counters}
    {folds : List GroupFold} (h : Marking g s c folds) (t : Nat) (tag : Tag) :
    ∃ folds', ∃ ops : List Op, Marking g (s.groupFrMark g.thread g.lib g.watch t tag)
        (ops.foldl (fun c op => c.next tag op) c) folds' ∧
      ops.length + (unmarked folds').length = (unmarked folds).length ∧
      (∀ f ∈ unmarked folds', f ∈ unmarked folds ∧ f.tracker ≠ t) := by
  have hlv : s.level? g.thread g.lib = some ⟨g.thread, g.lib, 1, folds⟩ := by
    simp [State.level?, h.levels]
  unfold State.groupFrMark
  rw [h.counters, hlv]
  dsimp only
  cases hfind : folds.find? fun f => f.tracker = t with
  | none =>
      refine ⟨folds, [], h, by simp, fun f hf => ⟨hf, ?_⟩⟩
      have := List.find?_eq_none.mp hfind f (List.mem_filter.mp hf).1
      simpa using this
  | some f =>
      have hft : f.tracker = t := by simpa using List.find?_some hfind
      obtain ⟨-, l₁, l₂, hl, h₁, h₂⟩ := exists_split_of_find? GroupFold.tracker hfind h.nodup
      obtain ⟨hcomm, hw, hk, hstate⟩ := h.folds f (List.mem_of_find?_eq_some hfind)
      -- the waiting folds but for that of `t`
      have hrest : ∀ x, x ∈ unmarked (l₁ ++ l₂) → x ∈ unmarked folds ∧ x.tracker ≠ t := by
        intro x hx
        obtain ⟨hx, hwait⟩ := List.mem_filter.mp hx
        rw [hl]
        obtain hx | hx := List.mem_append.mp hx
        · exact ⟨List.mem_filter.mpr ⟨List.mem_append_left _ hx, hwait⟩, h₁ x hx⟩
        · refine ⟨List.mem_filter.mpr ⟨?_, hwait⟩, h₂ x hx⟩
          exact List.mem_append_right _ (List.mem_cons_of_mem _ hx)
      have hplace : ∀ (u : State) (f' : GroupFold), f'.tracker = t → u.levels = s.levels →
          (u.setLevel ((⟨g.thread, g.lib, 1, folds⟩ : Level).setFold f')).levels =
            [⟨g.thread, g.lib, 1, l₁ ++ f' :: l₂⟩] := by
        intro u f' hf' hu
        have hset : (⟨g.thread, g.lib, 1, folds⟩ : Level).setFold f' =
            ⟨g.thread, g.lib, 1, l₁ ++ f' :: l₂⟩ := by
          have hany : (folds.any fun g => g.tracker = f'.tracker) = true :=
            List.any_eq_true.mpr ⟨f, List.mem_of_find?_eq_some hfind,
              decide_eq_true (hft.trans hf'.symm)⟩
          simp only [Level.setFold, hany, if_true]
          rw [hl, hf', ← hft, map_replace_split GroupFold.tracker (hft ▸ h₁) (hft ▸ h₂)]
        rw [hset]
        simp [State.setLevel, hu, h.levels]
      dsimp only
      unfold State.frFlush
      by_cases hzero : f.entry.nops = 0
      · rw [if_pos hzero]
        refine ⟨folds, [], ⟨?_, h.counters, h.nodup, h.folds⟩, by simp, fun x hx => ?_⟩
        · rw [hplace s f hft rfl, ← hl]
        · obtain ⟨hx', hwait⟩ := List.mem_filter.mp hx
          refine ⟨hx, ?_⟩
          rw [hl] at hx'
          obtain hx' | hx' := List.mem_append.mp hx'
          · exact h₁ x hx'
          · obtain rfl | hx' := List.mem_cons.mp hx'
            · exact absurd hzero (of_decide_eq_true hwait)
            · exact h₂ x hx'
      · rw [if_neg hzero]
        obtain ⟨hcounters, hrid⟩ := Counters.next_of_frRecord h.counters f.tracker f.entry tag true
        have hb := s.frRecord_books g.watch f.tracker f.entry tag true
        generalize s.frRecord g.watch f.tracker f.entry tag true = r at hcounters hrid hb ⊢
        obtain ⟨s', rid⟩ := r
        dsimp only at hcounters hrid hb ⊢
        generalize hf' : ({ f with
          rids := f.rids ++ [rid], entry := .empty, tag := .zero, members := false } :
            GroupFold) = f'
        have ht' : f'.tracker = t := by rw [← hf']; exact hft
        have hmarked : Marked f' := by
          rw [← hf']
          exact ⟨rfl, rid, List.getLast?_concat, hrid⟩
        have hunmarked : unmarked (l₁ ++ f' :: l₂) = unmarked (l₁ ++ l₂) := by
          simp [unmarked, hmarked.1]
        refine ⟨l₁ ++ f' :: l₂, [f.entry.op], ⟨hplace s' f' ht' hb.levels, hcounters, ?_,
          fun x hx => ?_⟩, ?_, fun x hx => hrest x (hunmarked ▸ hx)⟩
        · have hnodup := h.nodup
          rw [hl] at hnodup
          simpa [ht', hft] using hnodup
        · obtain hx | hx := List.mem_append.mp hx
          · exact h.folds x (hl ▸ List.mem_append_left _ hx)
          · obtain rfl | hx := List.mem_cons.mp hx
            · rw [← hf']
              exact ⟨hcomm, hw, hk, .inr (hf' ▸ hmarked)⟩
            · exact h.folds x (hl ▸ List.mem_append_right _ (List.mem_cons_of_mem _ hx))
        · rw [hunmarked, hl]
          simp only [unmarked, List.filter_append, List.filter_cons, List.length_append]
          rw [if_pos (decide_eq_true hzero)]
          simp only [List.length_cons, List.length_nil]
          omega

/-- Marking all communicators makes one entry for each fold. -/
theorem Marking.foldl_groupFrMark {g : ProcessGroup} (tag : Tag) (ts : List Nat) {s : State}
    {c : Counters} {folds : List GroupFold} (h : Marking g s c folds) :
    ∃ folds', ∃ ops : List Op,
      Marking g (ts.foldl (fun s t => s.groupFrMark g.thread g.lib g.watch t tag) s)
        (ops.foldl (fun c op => c.next tag op) c) folds' ∧
      ops.length + (unmarked folds').length = (unmarked folds).length ∧
      ∀ f ∈ unmarked folds', f ∈ unmarked folds ∧ f.tracker ∉ ts := by
  induction ts generalizing s c folds with
  | nil => exact ⟨folds, [], h, by simp, fun f hf => ⟨hf, List.not_mem_nil⟩⟩
  | cons t ts ih =>
      obtain ⟨folds₁, ops₁, h₁, hlength₁, hmem₁⟩ := h.groupFrMark t tag
      obtain ⟨folds₂, ops₂, h₂, hlength₂, hmem₂⟩ := ih h₁
      refine ⟨folds₂, ops₁ ++ ops₂, ?_, ?_, fun f hf => ?_⟩
      · rw [List.foldl_append]
        exact h₂
      · rw [List.length_append]
        omega
      · obtain ⟨hf₁, hts⟩ := hmem₂ f hf
        obtain ⟨hf₀, ht⟩ := hmem₁ f hf₁
        exact ⟨hf₀, fun hmem => (List.mem_cons.mp hmem).elim ht hts⟩

theorem foldl_frLink_counters (link index : Nat) (rids : List Nat) (s : State) :
    (rids.foldl (fun s rid => s.frLink rid link index) s).counters = s.counters := by
  induction rids generalizing s with
  | nil => rfl
  | cons rid rids ih =>
      rw [List.foldl_cons, ih]
      unfold State.frLink State.frModify
      split <;> rfl

theorem frUntracked_counters (s : State) (rid1 : Nat) :
    (s.frUntracked rid1).counters = s.counters := by
  unfold State.frUntracked State.frModify
  split <;> rfl

/-- The commit of a submission whose entry is known records no other. -/
theorem watchCommit_counters (s : State) (w t : Nat) (e : Entry) (tag : Tag) {fr : Nat}
    (hfr : fr ≠ 0) (index : Nat) (drop : Bool) :
    (s.watchCommit w t e tag fr index drop).counters = s.counters := by
  unfold State.watchCommit
  rw [if_pos hfr]
  dsimp only
  rw [if_neg hfr]
  split
  · rw [frUntracked_counters]
  · rfl

/-- The submission of a fold whose operations have their entries makes no other. -/
theorem Marked.commitFold_counters {f : GroupFold} (hf : Marked f) {s : State} {c : Counters}
    (hc : s.counters f.watch = some c) (lv : Level) (drop : Nat → Bool) :
    (s.commitFold lv drop f).counters = s.counters := by
  obtain ⟨hflush, last, hlast, hne⟩ := hf
  have hc' : (s.submit f.tracker).counters f.watch = some c := hc
  unfold State.commitFold State.frSubmit State.frFlush
  rw [hc', if_pos hflush]
  dsimp only
  rw [hlast]
  dsimp only
  split
  · dsimp only
    rw [watchCommit_counters _ _ _ _ _ hne, foldl_frLink_counters]
    rfl
  · rw [foldl_frLink_counters]
    rfl

theorem foldl_commitFold_counters {w : Nat} (lv : Level) (drop : Nat → Bool)
    (folds : List GroupFold) (hfolds : ∀ f ∈ folds, f.watch = w ∧ Marked f) {s : State}
    {c : Counters} (hc : s.counters w = some c) :
    (folds.foldl (fun s f => s.commitFold lv drop f) s).counters w = some c := by
  induction folds generalizing s with
  | nil => exact hc
  | cons f folds ih =>
      obtain ⟨hw, hf⟩ := hfolds f List.mem_cons_self
      refine ih (fun x hx => hfolds x (List.mem_cons_of_mem _ hx)) ?_
      rw [hf.commitFold_counters (c := c) (by rw [hw, hc])]
      exact hc

/-- The end of the group: one entry for each communicator with calls. -/
theorem InGroup.groupEnd {g : ProcessGroup} {tag : Tag} {s : State} {c : Counters}
    {folds : List GroupFold} (h : InGroup g tag s c folds) (endTag : Tag) :
    ∃ ops : List Op, ops.length = folds.length ∧
      Idle g (g.groupEnd s endTag) (ops.foldl (fun c op => c.next endTag op) c) := by
  obtain ⟨folds', ops, hm, hlength, hleft⟩ := h.marking.foldl_groupFrMark endTag g.comms
  -- all communicators of the group are marked
  have hnone : unmarked folds' = [] := List.eq_nil_iff_forall_not_mem.mpr fun f hf => by
    obtain ⟨hf₀, hcomm⟩ := hleft f hf
    exact hcomm (h.folds f (List.mem_filter.mp hf₀).1).1
  have hmarked : ∀ f ∈ folds', f.watch = g.watch ∧ Marked f := fun f hf => by
    obtain ⟨-, hw, -, hstate⟩ := hm.folds f hf
    refine ⟨hw, hstate.resolve_left fun hwait => ?_⟩
    have : f ∈ unmarked folds' := List.mem_filter.mpr ⟨hf, decide_eq_true hwait.1⟩
    rw [hnone] at this
    exact List.not_mem_nil this
  have hall : unmarked folds = folds := List.filter_eq_self.mpr fun f hf =>
    decide_eq_true (h.folds f hf).2.2.2.1
  refine ⟨ops, ?_, ?_⟩
  · rw [hnone, hall] at hlength
    exact hlength
  · unfold ProcessGroup.groupEnd
    generalize g.comms.foldl (fun s t => s.groupFrMark g.thread g.lib g.watch t endTag) s = s'
      at hm ⊢
    generalize ops.foldl (fun c op => c.next endTag op) c = c' at hm ⊢
    have hlv : s'.level? g.thread g.lib = some ⟨g.thread, g.lib, 1, folds'⟩ := by
      simp [State.level?, hm.levels]
    unfold State.groupExit
    rw [hlv]
    dsimp only
    rw [if_neg (Nat.lt_irrefl 1), if_pos rfl]
    obtain ⟨hlevels, -⟩ := State.foldl_commitFold_spec ⟨g.thread, g.lib, 1, folds'⟩ g.drop folds'
      (fun f hf => (hm.folds f hf).2.2.1)
      { s' with levels := s'.levels.filter fun l => ¬ (l.thread = g.thread ∧ l.lib = g.lib) }
    exact ⟨hlevels.trans (by simp [hm.levels]), foldl_commitFold_counters _ _ _ hmarked hm.counters⟩

/-! ## An operation -/

/-- The counters when no block is open. -/
def Counters.Closed (c : Counters) : Prop := c.groupC = false ∧ c.groupP = false

theorem Idle.ids {g : ProcessGroup} {s : State} {c : Counters} (h : Idle g s c) : g.ids s = c := by
  unfold ProcessGroup.ids
  rw [h.counters]
  rfl

theorem InGroup.ids {g : ProcessGroup} {tag : Tag} {s : State} {c : Counters}
    {folds : List GroupFold} (h : InGroup g tag s c folds) : g.ids s = c := by
  unfold ProcessGroup.ids
  rw [h.counters]
  rfl

/-- A library call outside groups makes its entry at once. -/
theorem Idle.libCall {g : ProcessGroup} {s : State} {c : Counters} (h : Idle g s c) (comm : Nat)
    (tag : Tag) (call : LibCall) :
    Idle g (g.libCall comm tag s call) (c.next tag call.op) := by
  unfold ProcessGroup.libCall State.track
  have hb := s.nextCpos_books comm call.op
  have hcounters := nextCpos_counters s comm call.op
  generalize s.nextCpos comm call.op = numbered at hb hcounters ⊢
  obtain ⟨s', cpos⟩ := numbered
  dsimp only at hb hcounters ⊢
  generalize he : (⟨call.op, 1, call.count, call.dtype, call.root, call.redop,
    callFp call.op call.count call.dtype call.root call.redop, cpos⟩ : Entry) = e
  have hop : e.op = call.op := by rw [← he]
  have hnone : ∀ calls : List Call, State.level? { s' with calls := calls } g.thread g.lib = none :=
    fun calls => by simp [State.level?, hb.levels, h.levels]
  rw [hnone]
  dsimp only
  generalize hs₁ : (State.submit _ comm : State) = s₁
  have hlevels : s₁.levels = [] := by
    rw [← hs₁]
    exact hb.levels.trans h.levels
  have hc : s₁.counters g.watch = some c := by
    rw [← hs₁]
    exact (congrFun hcounters _).trans h.counters
  obtain ⟨hnext, hfr⟩ := Counters.next_of_frRecord hc comm e tag false
  have hrecord := s₁.frRecord_books g.watch comm e tag false
  have hbooks := s₁.watchCommit_books g.watch comm e tag 0 (s'.submitted comm) (g.drop comm)
  refine ⟨hbooks.levels.trans hlevels, ?_⟩
  unfold State.watchCommit
  rw [if_neg (not_not.mpr rfl)]
  generalize s₁.frRecord g.watch comm e tag false = r at hnext hfr
  obtain ⟨s₂, fr⟩ := r
  dsimp only at hnext hfr ⊢
  rw [hop] at hnext
  rw [if_neg hfr]
  split
  · rw [frUntracked_counters]
    exact hnext
  · exact hnext

/-- A list without repetitions whose members are all equal. -/
theorem length_le_one_iff {α : Type} {l : List α} (h : l.Nodup) :
    l.length ≤ 1 ↔ ∀ a ∈ l, ∀ b ∈ l, a = b := by
  cases l with
  | nil => simp
  | cons a l =>
      constructor
      · intro hl
        obtain rfl : l = [] := List.eq_nil_of_length_eq_zero (by simpa using hl)
        intro x hx y hy
        rw [List.mem_singleton.mp hx, List.mem_singleton.mp hy]
      · intro heq
        obtain ⟨ha, -⟩ := List.nodup_cons.mp h
        have hnil : l = [] := List.eq_nil_iff_forall_not_mem.mpr fun b hb =>
          ha (heq a List.mem_cons_self b (List.mem_cons_of_mem _ hb) ▸ hb)
        rw [hnil]
        exact Nat.le_refl 1

theorem folds_eq_nil {folds : List GroupFold} (h : ∀ t, t ∉ folds.map GroupFold.tracker) :
    folds = [] :=
  List.eq_nil_iff_forall_not_mem.mpr fun f hf => h f.tracker (List.mem_map_of_mem hf)

/-- An operation outside a block counts once if it makes a call. -/
theorem Idle.single {g : ProcessGroup} {s : State} {c : Counters} (h : Idle g s c) {n : Nat}
    (hn : n ≠ 0) (o : Operation g) :
    Idle g (g.single n o s)
      (if o.calls.toList = [] then c else { c with opid := c.opid + 1 }.bumpSeq o.p2p) := by
  unfold ProcessGroup.single
  dsimp only
  cases hcalls : o.calls with
  | direct call =>
      have hcall := h.libCall o.comm ⟨n, false, false, false, o.p2p⟩ call
      rw [Counters.next_single c hn] at hcall
      change Idle g _ (if [call] = [] then _ else _)
      rw [if_neg (List.cons_ne_nil _ _)]
      exact hcall
  | group calls =>
      obtain ⟨folds, hin, hmem⟩ :=
        (h.groupEnter ⟨n, false, false, false, o.p2p⟩).libCalls o.known calls
      rw [if_neg Bool.false_ne_true] at hin
      have hmem : ∀ t, t ∈ folds.map GroupFold.tracker ↔ calls ≠ [] ∧ t = o.comm := fun t => by
        simpa using hmem t
      obtain ⟨ops, hlength, hidle⟩ := hin.groupEnd ⟨n, false, false, false, o.p2p⟩
      have hle : folds.length ≤ 1 := by
        rw [← List.length_map (f := GroupFold.tracker), length_le_one_iff hin.nodup]
        intro a ha b hb
        rw [((hmem a).mp ha).2, ((hmem b).mp hb).2]
      change Idle g _ (if calls = [] then _ else _)
      by_cases hnil : calls = []
      · have hfolds : folds = [] := folds_eq_nil fun t ht => ((hmem t).mp ht).1 hnil
        rw [hfolds, List.length_nil] at hlength
        rw [List.eq_nil_of_length_eq_zero hlength] at hidle
        rw [if_pos hnil]
        exact hidle
      · have hfolds : folds ≠ [] := fun hnone => by
          have := (hmem o.comm).mpr ⟨hnil, rfl⟩
          rw [hnone] at this
          exact List.not_mem_nil this
        have hone : ops.length = 1 := by
          have := List.length_pos_of_ne_nil hfolds
          omega
        obtain ⟨op, rfl⟩ := List.length_eq_one_iff.mp hone
        rw [if_neg hnil, ← Counters.next_single c hn o.p2p op]
        exact hidle

/-! ## A block -/

/-- A member's calls so far, each counted by itself. -/
theorem InGroup.retag {g : ProcessGroup} {tag : Tag} {s : State} {c : Counters}
    {folds : List GroupFold} (h : InGroup g tag s c folds) (hm : tag.member = true) {tag' : Tag}
    (hm' : tag'.member = true) : InGroup g tag' s c folds := by
  refine ⟨h.levels, h.counters, h.nodup, fun f hf => ?_⟩
  obtain ⟨hcomm, hw, hk, he, hr, hmem, -⟩ := h.folds f hf
  refine ⟨hcomm, hw, hk, he, hr, by rw [hmem, hm, hm'], fun hfalse => ?_⟩
  rw [hm'] at hfalse
  cases hfalse

/-- What the entries of a member's calls do to the counters. -/
theorem Counters.foldl_member {n : Nat} (hn : n ≠ 0) (first p2p : Bool) (calls : List LibCall)
    (c : Counters) :
    let c' := calls.foldl (fun c call => c.next ⟨n, true, first, false, p2p⟩ call.op) c
    c'.opid = c.opid + calls.length ∧
      (calls ≠ [] → c'.groupC = true ∨ c'.groupP = true) := by
  induction calls generalizing c with
  | nil => exact ⟨rfl, fun h => absurd rfl h⟩
  | cons call calls ih =>
      obtain ⟨hid, hflags⟩ := next_member_flags c hn first p2p call.op
      obtain ⟨hid', hflags'⟩ := ih (c.next ⟨n, true, first, false, p2p⟩ call.op)
      dsimp only at hid' hflags' ⊢
      rw [List.foldl_cons, List.length_cons]
      refine ⟨by omega, fun _ => ?_⟩
      cases calls with
      | nil => exact hflags
      | cons call' calls => exact hflags' (List.cons_ne_nil _ _)

/-- The tag of the members of a block. -/
def memberTag : Tag := ⟨0, true, false, false, false⟩

/-- The operations of a block so far: calls were made when a communicator has a fold, and
then the block has counted something. -/
structure Members (g : ProcessGroup) (s : State) (c : Counters) (folds : List GroupFold) :
    Prop where
  inGroup : InGroup g memberTag s c folds
  counted : folds ≠ [] → c.groupC = true ∨ c.groupP = true
  closed : folds = [] → c.Closed

/-- An operation of a block. -/
theorem Members.member {g : ProcessGroup} {s : State} {c : Counters} {folds : List GroupFold}
    (h : Members g s c folds) {n : Nat} (hn : n ≠ 0) (first : Bool) (o : Operation g) :
    ∃ folds', Members g (g.member n first o s)
        (o.calls.toList.foldl
          (fun c call => c.next ⟨n, true, first, false, o.p2p⟩ call.op) c) folds' ∧
      ∀ t, t ∈ folds'.map GroupFold.tracker ↔
        t ∈ folds.map GroupFold.tracker ∨ o.calls.toList ≠ [] ∧ t = o.comm := by
  have hopen : InGroup g ⟨n, true, first, false, o.p2p⟩ s c folds := h.inGroup.retag rfl rfl
  obtain ⟨folds', hin, hmem⟩ := hopen.libCalls o.known o.calls.toList
  rw [if_pos rfl] at hin
  obtain ⟨-, hflags⟩ := Counters.foldl_member hn first o.p2p o.calls.toList c
  refine ⟨folds', ⟨hin.retag rfl rfl, fun hne => ?_, fun hnil => ?_⟩, hmem⟩
  · by_cases hcalls : o.calls.toList = []
    · rw [hcalls]
      refine h.counted fun hnil => hne (folds_eq_nil fun t ht => ?_)
      obtain ht | ⟨ht, -⟩ := (hmem t).mp ht
      · rw [hnil] at ht
        exact List.not_mem_nil ht
      · exact ht hcalls
    · exact hflags hcalls
  · rw [hnil] at hmem
    have hcalls : o.calls.toList = [] := by
      by_contra hne
      exact List.not_mem_nil ((hmem o.comm).mpr (.inr ⟨hne, rfl⟩))
    rw [hcalls]
    exact h.closed (folds_eq_nil fun t ht => List.not_mem_nil ((hmem t).mpr (.inl ht)))

/-- The operations of a block. -/
theorem Members.members {g : ProcessGroup} (ops : List (Operation g)) {s : State} {c : Counters}
    {folds : List GroupFold} (h : Members g s c folds) {n : Nat} (hn : n ≠ 0) (first : Bool) :
    ∃ c' folds', Members g (g.members n first ops s) c' folds' ∧
      (g.MembersAdvance n first ops s ↔ ∀ o ∈ ops, o.calls.toList.length = 1) ∧
      (∀ t, t ∈ folds'.map GroupFold.tracker ↔
        t ∈ folds.map GroupFold.tracker ∨ ∃ o ∈ ops, o.calls.toList ≠ [] ∧ t = o.comm) ∧
      ∀ c₀ seen, (∀ o ∈ ops, o.calls.toList.length = 1) → Counters.Counted c₀ seen c →
        (first = true → seen = []) → c'.opid = c.opid + ops.length ∧
          Counters.Counted c₀ (seen ++ ops.map (·.p2p)) c' := by
  induction ops generalizing s c folds n first with
  | nil =>
      refine ⟨c, folds, h, by simp [ProcessGroup.MembersAdvance], by simp, ?_⟩
      intro c₀ seen _ hcounted _
      exact ⟨rfl, by simpa using hcounted⟩
  | cons o ops ih =>
      obtain ⟨folds₁, h₁, hmem₁⟩ := h.member hn first o
      obtain ⟨hid₁, -⟩ := Counters.foldl_member hn first o.p2p o.calls.toList c
      obtain ⟨c', folds', h', hadvance, hmem', hcounted'⟩ := ih h₁ n.succ_ne_zero false
      refine ⟨c', folds', h', ?_, fun t => ?_, fun c₀ seen hone hcounted hfirst => ?_⟩
      · rw [ProcessGroup.MembersAdvance, hadvance, h₁.inGroup.ids, h.inGroup.ids,
          List.forall_mem_cons, hid₁, Nat.add_left_cancel_iff]
      · rw [hmem', hmem₁]
        simp only [List.mem_cons, exists_eq_or_imp, or_assoc]
      · obtain ⟨hone₁, hone⟩ := List.forall_mem_cons.mp hone
        obtain ⟨call, hcall⟩ := List.length_eq_one_iff.mp hone₁
        have hstep := hcounted.member hn hfirst o.p2p call.op
        rw [hcall] at hcounted' hid₁
        obtain ⟨hid, hseen⟩ := hcounted' c₀ _ hone hstep nofun
        rw [List.append_assoc] at hseen
        refine ⟨?_, hseen⟩
        rw [hid, hid₁, List.length_singleton, List.length_cons]
        omega

/-- What an item is, whatever calls it makes. -/
inductive Kind where
  | single (p2p : Bool)
  | block (p2ps : List Bool)

def Item.kind {g : ProcessGroup} : Item g → Kind
  | .single o => .single o.p2p
  | .block ops => .block (ops.map (·.p2p))

/-- The counters after an item of a kind. -/
def Counters.after (c : Counters) : Kind → Counters
  | .single p2p => { c with opid := c.opid + 1 }.bumpSeq p2p
  | .block p2ps =>
    { c with
      cseq := c.cseq + (if p2ps.any fun p2p => !p2p then 1 else 0)
      pseq := c.pseq + (if p2ps.any fun p2p => p2p then 1 else 0)
      opid := c.opid + p2ps.length }

/-- A block. -/
theorem Idle.block {g : ProcessGroup} {s : State} {c : Counters} (h : Idle g s c)
    (hclosed : c.Closed) {n : Nat} (hn : n ≠ 0) (ops : List (Operation g)) :
    ∃ c', Idle g (g.block n ops s) c' ∧ c'.Closed ∧
      (g.ItemAdvances n (.block ops) s ↔ (Item.block ops).OneCall) ∧
      ((Item.block ops).OneCall → c' = c.after (Item.block ops).kind) := by
  have hstart : Members g (s.groupEnter g.thread g.lib) c [] :=
    ⟨h.groupEnter memberTag, fun hne => absurd rfl hne, fun _ => hclosed⟩
  obtain ⟨c₁, folds, hmembers, hadvance, hmem, hcounted⟩ := hstart.members ops hn true
  obtain ⟨ends, hlength, hidle⟩ := hmembers.inGroup.groupEnd
    ⟨n + ops.length, false, false, true, ops.any (·.p2p)⟩
  have hne : ends ≠ [] ↔ folds ≠ [] := by
    rw [← List.length_pos_iff_ne_nil, ← List.length_pos_iff_ne_nil, hlength]
  obtain ⟨hid, hone, hflags⟩ := Counters.foldl_end c₁ (n := n + ops.length)
    (ops.any (·.p2p)) ends fun hends => hmembers.counted (hne.mp hends)
  generalize hc' : ends.foldl (fun c op =>
    c.next ⟨n + ops.length, false, false, true, ops.any (·.p2p)⟩ op) c₁ = c'
    at hidle hid hone hflags
  -- one end entry exactly when the calls are on one communicator
  have hends : (∀ o ∈ ops, o.calls.toList.length = 1) →
      (ends.length ≤ 1 ↔ ∀ o ∈ ops, ∀ o' ∈ ops, o.comm = o'.comm) := by
    intro hcalls
    have hfolds : ∀ t, t ∈ folds.map GroupFold.tracker ↔ ∃ o ∈ ops, t = o.comm := by
      intro t
      rw [hmem t]
      constructor
      · rintro (ht | ⟨o, ho, -, ht⟩)
        · exact absurd ht List.not_mem_nil
        · exact ⟨o, ho, ht⟩
      · rintro ⟨o, ho, ht⟩
        refine .inr ⟨o, ho, fun hnil => ?_, ht⟩
        have := hcalls o ho
        rw [hnil] at this
        cases this
    rw [hlength, ← List.length_map (f := GroupFold.tracker),
      length_le_one_iff hmembers.inGroup.nodup]
    constructor
    · exact fun hall o ho o' ho' => hall _ ((hfolds _).mpr ⟨o, ho, rfl⟩) _
        ((hfolds _).mpr ⟨o', ho', rfl⟩)
    · intro hall a ha b hb
      obtain ⟨o, ho, rfl⟩ := (hfolds a).mp ha
      obtain ⟨o', ho', rfl⟩ := (hfolds b).mp hb
      exact hall o ho o' ho'
  have hclosed' : c'.Closed := by
    by_cases hnil : ends = []
    · rw [hnil] at hc'
      rw [← hc']
      exact hmembers.closed (by_contra fun hfolds => hne.mpr hfolds hnil)
    · exact hflags hnil
  -- with one call each, the counters are those of the kinds
  have hafter : (Item.block ops).OneCall → c' = c.after (Item.block ops).kind := by
    rintro ⟨hcalls, hcomm⟩
    obtain ⟨hopid, hcounts⟩ := hcounted c [] hcalls (.start hclosed.1 hclosed.2) fun _ => rfl
    rw [List.nil_append] at hcounts
    have hle := (hends hcalls).mpr hcomm
    have hcseq : c'.cseq = c₁.cseq ∧ c'.pseq = c₁.pseq := by
      by_cases hnil : ends = []
      · rw [hnil] at hc'
        rw [← hc']
        exact ⟨rfl, rfl⟩
      · have hpos := List.length_pos_of_ne_nil hnil
        rw [hone (by omega)]
        exact ⟨rfl, rfl⟩
    have hopid' : c'.opid = c.opid + ops.length := by omega
    obtain ⟨hc, hp⟩ := hclosed
    obtain ⟨hcC, hcP⟩ := hclosed'
    cases c'
    simp only at hcseq hopid' hcC hcP
    simp only [Counters.after, Item.kind, List.length_map, Counters.mk.injEq]
    exact ⟨hcseq.1.trans hcounts.cseq, hcseq.2.trans hcounts.pseq, hopid', hcC.trans hc.symm,
      hcP.trans hp.symm⟩
  refine ⟨c', hidle, hclosed', ?_, hafter⟩
  change Idle g (g.block n ops s) c' at hidle
  rw [ProcessGroup.ItemAdvances, hadvance, hmembers.inGroup.ids, hidle.ids,
    hstart.inGroup.ids, h.ids]
  constructor
  · rintro ⟨-, hcalls, hsame, -⟩
    exact ⟨hcalls, (hends hcalls).mp (by omega)⟩
  · rintro hone'
    obtain ⟨hcalls, hcomm⟩ := hone'
    have hle := (hends hcalls).mpr hcomm
    refine ⟨rfl, hcalls, by omega, ?_, ?_, ?_⟩
    · rw [hafter ⟨hcalls, hcomm⟩]
      simp [Counters.after, Item.kind, List.any_map, Function.comp_def]
    · rw [hafter ⟨hcalls, hcomm⟩]
      exact Nat.le_add_right _ _
    · rw [hafter ⟨hcalls, hcomm⟩]
      simp only [Counters.after, Item.kind]
      split <;> omega

/-! ## A sequence of operations and blocks -/

/-- An operation or a block, on a process group with no block open. -/
theorem Idle.issue {g : ProcessGroup} {s : State} {c : Counters} (h : Idle g s c)
    (hclosed : c.Closed) {n : Nat} (hn : n ≠ 0) (i : Item g) :
    ∃ c', Idle g (g.issue n i s) c' ∧ c'.Closed ∧ (g.ItemAdvances n i s ↔ i.OneCall) ∧
      (i.OneCall → c' = c.after i.kind) := by
  cases i with
  | single o =>
      refine ⟨_, h.single hn o, ?_, ?_, fun hone => if_neg hone⟩
      · split
        · exact hclosed
        · exact ⟨by rw [Counters.bumpSeq_groupC]; exact hclosed.1,
            by rw [Counters.bumpSeq_groupP]; exact hclosed.2⟩
      · rw [ProcessGroup.ItemAdvances, (h.single hn o).ids, h.ids, Item.OneCall]
        by_cases hnil : o.calls.toList = []
        · rw [if_pos hnil]
          exact iff_of_false (fun hadvance => absurd hadvance.1 (by omega)) (not_not.mpr hnil)
        · rw [if_neg hnil]
          refine iff_of_true ⟨Counters.bumpSeq_opid _ _, ?_⟩ hnil
          cases o.p2p <;> exact ⟨rfl, rfl⟩
  | block ops => exact h.block hclosed hn ops

namespace ProcessGroup

variable (g : ProcessGroup)

/-- A process whose process group records, before its first operation. -/
def recording : State :=
  { State.start with
    counters := Function.update State.start.counters g.watch (some ⟨0, 0, 0, false, false⟩) }

theorem recording_idle : Idle g g.recording ⟨0, 0, 0, false, false⟩ :=
  ⟨rfl, Function.update_self ..⟩

/-- The state after a sequence. -/
def issueAll (n : Nat) : List (Item g) → State → State
  | [], s => s
  | i :: items, s => issueAll (n + i.records) items (g.issue n i s)

end ProcessGroup

theorem Idle.advance_iff {g : ProcessGroup} (items : List (Item g)) {s : State} {c : Counters}
    (h : Idle g s c) (hclosed : c.Closed) {n : Nat} (hn : n ≠ 0) :
    g.Advance n items s ↔ ∀ i ∈ items, i.OneCall := by
  induction items generalizing s c n with
  | nil => simp [ProcessGroup.Advance]
  | cons i items ih =>
      obtain ⟨c', h', hclosed', hadvance, -⟩ := h.issue hclosed hn i
      rw [ProcessGroup.Advance, List.forall_mem_cons, hadvance, ih h' hclosed' (by omega)]

theorem Idle.ids_issueAll {g : ProcessGroup} (items : List (Item g)) {s : State} {c : Counters}
    (h : Idle g s c) (hclosed : c.Closed) {n : Nat} (hn : n ≠ 0)
    (hone : ∀ i ∈ items, i.OneCall) :
    g.ids (g.issueAll n items s) = (items.map Item.kind).foldl Counters.after c := by
  induction items generalizing s c n with
  | nil => exact h.ids
  | cons i items ih =>
      obtain ⟨hi, hitems⟩ := List.forall_mem_cons.mp hone
      obtain ⟨c', h', hclosed', -, hafter⟩ := h.issue hclosed hn i
      rw [ProcessGroup.issueAll, ih h' hclosed' (by omega) hitems, hafter hi]
      rfl

/-- A rank on one communicator. -/
def rankGroup : ProcessGroup := ⟨1, 1, 1, [7], fun _ => false⟩

/-- An `all_to_all` and a send in a block, then a coalesced `all_reduce`: the splits of the
one decide how many sends it makes, the tensors of the other how many calls. -/
def splitItems (sends tensors : Nat) : List (Item rankGroup) :=
  [.block [⟨false, 7, List.mem_singleton.mpr rfl,
        .group (List.replicate sends ⟨.send, 4, 7, 1, 0⟩)⟩,
      ⟨true, 7, List.mem_singleton.mpr rfl, .direct ⟨.send, 4, 7, 1, 0⟩⟩],
    .single ⟨false, 7, List.mem_singleton.mpr rfl,
      .group (List.replicate tensors ⟨.allreduce, 4, 7, 0, 0⟩)⟩]

end TorchMojoBackend.FlightRecorder
