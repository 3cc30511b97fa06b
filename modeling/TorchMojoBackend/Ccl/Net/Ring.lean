/-
  `Ccl.Net.Ring`: the work ring between the thread that enqueues collectives and
  the progress engine.

  Source: tmb/ccl/transport/net.mojo (`_await_ring_slot`, `_fill_work`,
  `ib_next_seq`, `ib_reserve_seqs`, `_release_on_error`, `_retire`, the uses of
  `_work` in `ib_drive`), tmb/ccl/enqueue.mojo (the fills of
  `_do_allreduce_fused` and of the other collectives).

  Every store of `_fill_work` is one step of the host.  The engine may post,
  retire or fail whenever its cursors allow it: what the network does is left
  open.  Kept here and not in the source: the log of the descriptors and the
  cursors `filled`, `launched` and `retired`.
-/
import TorchMojoBackend.Foundation.Transition
import TorchMojoBackend.Ccl.Net.Work

set_option autoImplicit false

namespace TorchMojoBackend.Ccl.Net.Ring

open TorchMojoBackend.Foundation

/-! ## The two threads -/

/-- Where the host is in the fill of a collective.  `seq` is the exchange being
filled. -/
inductive HostPc where
  /-- Between two collectives. -/
  | idle
  /-- At the load of the status of the cell of `seq`. -/
  | awaiting (seq : Nat)
  /-- The cell was found running. -/
  | blocked (seq : Nat)
  /-- Before store `k` of `_fill_work`. -/
  | storing (seq k : Nat)
  /-- Every exchange of the collective is filled. -/
  | launching
  /-- The collective raised; the communicator refuses every later one. -/
  | raised
  deriving DecidableEq, Repr

/-- Where the engine is. -/
inductive EnginePc where
  | driving
  /-- `_retire`: `done` is bumped, the status is not stored. -/
  | retiring
  /-- `_release_on_error`: between two exchanges, and inside one. -/
  | releasing
  | failing
  deriving DecidableEq, Repr

/-- Exchanges counted in `done` whose status is not stored yet. -/
def EnginePc.pending : EnginePc → Nat
  | .driving | .releasing => 0
  | .retiring | .failing => 1

/-- Both threads, the ring and the cursors. -/
structure State where
  host : HostPc
  engine : EnginePc
  /-- `st.exchanges`. -/
  exchanges : Nat
  /-- `may_wait` of the collective being filled. -/
  mayWait : Bool
  /-- `st.works`. -/
  works : Nat → IbWork
  /-- `st.error`. -/
  error : Int
  /-- `st.request_seq`, `st.posted_seq`, `st.done_seq`. -/
  request : Nat
  posted : Nat
  done : Nat
  /-- History: the arguments of the fill of exchange `i + 1`. -/
  log : List Descriptor
  /-- History: the last exchange filled, handed to the stream, retired. -/
  filled : Nat
  launched : Nat
  retired : Nat

/-- `IbState.__init__`. -/
def State.boot : State where
  host := .idle
  engine := .driving
  exchanges := 0
  mayWait := true
  works _ := IbWork.boot
  error := 0
  request := 0
  posted := 0
  done := 0
  log := []
  filled := 0
  launched := 0
  retired := 0

/-- The work item in the cell of exchange `seq`. -/
def State.work (s : State) (seq : Nat) : IbWork := s.works (workSlot seq)

/-- Change the cell of exchange `seq`. -/
def State.modify (s : State) (seq : Nat) (f : IbWork → IbWork) : State :=
  { s with works := Function.update s.works (workSlot seq) (f (s.work seq)) }

/-- The descriptors of a collective whose first exchange is `first`. -/
def numbered (first : Nat) (ds : List Descriptor) : List Descriptor :=
  ds.mapIdx fun i d => { d with seq := first + i }

/-- The steps of the enqueuing thread. -/
inductive HostEvent where
  /-- `ib_reserve_seqs` (`ib_next_seq` for one exchange). -/
  | reserve (ds : List Descriptor) (mayWait : Bool)
  /-- The load of the status, and the loop around it. -/
  | load
  | retry
  /-- The error of `_await_ring_slot`, and of `_fill_work` without waiting. -/
  | raise (timedOut : Bool)
  /-- The next store of `_fill_work`. -/
  | store
  /-- The kernel that publishes the requests is on the stream, or failed. -/
  | launch
  | launchFailed
  deriving DecidableEq, Repr

/-- The steps of the engine. -/
inductive EngineEvent where
  /-- `_proxy_main` reads `MB_REQUEST`. -/
  | request (seq : Nat)
  /-- `ib_drive` posts the next exchange. -/
  | post (t0 : Int)
  /-- A failed post, completion or flush, or the deadline. -/
  | fail (code : Int)
  /-- `_advance` completes the next exchange. -/
  | complete
  /-- `_release_on_error` goes on. -/
  | release
  /-- The status store of `_retire` or `_release_on_error`. -/
  | setStatus
  deriving DecidableEq, Repr

inductive Event where
  | host (e : HostEvent)
  | engine (e : EngineEvent)
  deriving DecidableEq, Repr

/-- A step of the enqueuing thread. -/
def hostStep (s : State) : HostEvent → Option State
  | .reserve ds mayWait =>
      -- `plan[1] <= WORK_SLOTS` is the bound of every collective that fills ahead.
      if s.host = .idle ∧ s.error = 0 ∧ ds ≠ [] ∧ ds.length ≤ WORK_SLOTS then
        some { s with
          host := .awaiting (s.exchanges + 1)
          exchanges := s.exchanges + ds.length
          mayWait := mayWait
          log := s.log ++ numbered (s.exchanges + 1) ds }
      else none
  | .load =>
      match s.host with
      | .awaiting seq =>
          if (s.work seq).status ≠ 0 then some { s with host := .storing seq 0 }
          else some { s with host := .blocked seq }
      | _ => none
  | .retry =>
      match s.host with
      | .blocked seq => if s.mayWait then some { s with host := .awaiting seq } else none
      | _ => none
  | .raise timedOut =>
      match s.host with
      | .blocked _ =>
          if !s.mayWait then some { s with host := .raised }
          else if s.error ≠ 0 then some { s with host := .raised }
          else if timedOut then some { s with host := .raised, error := 3 }
          else none
      | _ => none
  | .store =>
      match s.host with
      | .storing seq k =>
          match s.log[seq - 1]? with
          | none => none
          | some d =>
              match (fillStores d)[k]? with
              | some f => some { s.modify seq f with host := .storing seq (k + 1) }
              | none =>
                  some { s.modify seq publish with
                    filled := seq
                    host := if seq < s.exchanges then .awaiting (seq + 1) else .launching }
      | _ => none
  | .launch =>
      if s.host = .launching then some { s with host := .idle, launched := s.exchanges }
      else none
  | .launchFailed =>
      if s.host = .launching then some { s with host := .raised } else none

/-- `_post_data` returned true and `ib_drive` stored the time. -/
def posting (t0 : Int) (w : IbWork) : IbWork :=
  { w with sent := w.sent || (w.doSend && 0 < w.sendBytes), t0 := t0 }

/-- The status store of `_retire` (1) and `_release_on_error` (2). -/
def finish (status : Nat) (w : IbWork) : IbWork := { w with status := status }

/-- A step of the engine. -/
def engineStep (s : State) : EngineEvent → Option State
  | .request seq =>
      if s.engine.pending = 0 ∧ s.request < seq ∧ seq ≤ s.launched then
        some { s with request := seq }
      else none
  | .post t0 =>
      if s.engine = .driving ∧ s.posted < s.request then
        some { s.modify (s.posted + 1) (posting t0) with posted := s.posted + 1 }
      else none
  | .fail code =>
      if s.engine = .driving ∧ code ≠ 0 then some { s with error := code } else none
  | .complete =>
      if s.engine = .driving ∧ s.done < s.posted then
        some { s with engine := .retiring, done := s.done + 1 }
      else none
  | .release =>
      if s.engine.pending = 0 ∧ s.error ≠ 0 then
        if s.done < s.request then
          some { s with engine := .failing, done := s.done + 1 }
        else some { s with engine := .releasing }
      else none
  | .setStatus =>
      match s.engine with
      | .retiring =>
          some { s.modify s.done (finish 1) with
            engine := .driving, retired := s.done }
      | .failing =>
          some { s.modify s.done (finish 2) with
            engine := .releasing, retired := s.done }
      | _ => none

/-- The enqueuing thread and the engine, interleaved. -/
def ring : System State Event where
  Init s := s = State.boot
  next s
    | .host e => hostStep s e
    | .engine e => engineStep s e

/-! ## Cells -/

@[simp] theorem State.modify_work_self (s : State) (seq : Nat) (f : IbWork → IbWork) :
    (s.modify seq f).work seq = f (s.work seq) := by
  simp [State.modify, State.work]

theorem State.modify_work_of_ne (s : State) {seq e : Nat} (f : IbWork → IbWork)
    (h : workSlot e ≠ workSlot seq) : (s.modify seq f).work e = s.work e := by
  simp [State.modify, State.work, h]

@[simp] theorem numbered_length (first : Nat) (ds : List Descriptor) :
    (numbered first ds).length = ds.length := by
  simp [numbered]

/-! ## The invariant -/

/-- What an exchange `e` between its fill and its retirement has in its cell: the
arguments it was filled with, and until it is posted nothing else. -/
structure Described (log : List Descriptor) (posted e : Nat) (w : IbWork) : Prop where
  log : log[e - 1]? = some w.toDescriptor
  fresh : posted < e → w = fillWork w.toDescriptor

/-- What holds at each location of the host. -/
def State.HostFits (s : State) : HostPc → Prop
  | .idle => s.filled = s.exchanges ∧ s.launched = s.exchanges
  | .awaiting seq =>
      seq = s.filled + 1 ∧ seq ≤ s.exchanges ∧ s.exchanges ≤ s.launched + WORK_SLOTS
  | .blocked seq =>
      seq = s.filled + 1 ∧ seq ≤ s.exchanges ∧ s.exchanges ≤ s.launched + WORK_SLOTS ∧
        WORK_SLOTS < seq
  | .storing seq k =>
      seq = s.filled + 1 ∧ seq ≤ s.exchanges ∧ s.exchanges ≤ s.launched + WORK_SLOTS ∧
        seq ≤ s.retired + WORK_SLOTS ∧
        ∃ d w, s.log[seq - 1]? = some d ∧ k ≤ (fillStores d).length ∧ s.work seq = stored d k w
  | .launching => s.filled = s.exchanges ∧ s.exchanges ≤ s.launched + WORK_SLOTS
  | .raised => True

/-- The invariant of the ring. -/
structure State.Valid (s : State) : Prop where
  log_length : s.log.length = s.exchanges
  log_seq : ∀ i d, s.log[i]? = some d → d.seq = i + 1
  done_eq : s.done = s.retired + s.engine.pending
  done_le_request : s.done ≤ s.request
  posted_le_request : s.posted ≤ s.request
  done_le_posted : s.engine = .driving ∨ s.engine = .retiring → s.done ≤ s.posted
  releasing_error : s.engine = .releasing ∨ s.engine = .failing → s.error ≠ 0
  request_le : s.request ≤ s.launched
  launched_le : s.launched ≤ s.filled
  filled_le : s.filled ≤ s.exchanges
  cells : RingHolds WORK_SLOTS IbWork.Running (Described s.log s.posted) s.works s.retired
    s.filled
  host_fits : s.HostFits s.host

theorem State.boot_valid : State.boot.Valid where
  log_length := rfl
  log_seq i d h := by simp [State.boot] at h
  done_eq := rfl
  done_le_request := Nat.le_refl 0
  posted_le_request := Nat.le_refl 0
  done_le_posted _ := Nat.le_refl 0
  releasing_error h := by rcases h with h | h <;> cases h
  request_le := Nat.le_refl 0
  launched_le := Nat.le_refl 0
  filled_le := Nat.le_refl 0
  cells := RingHolds.empty (by show (1 : Nat) ≠ 0; decide)
  host_fits := ⟨rfl, rfl⟩

/-! ## The steps of the host -/

section Steps

variable {s t : State}

theorem State.Valid.reserve (hs : s.Valid) {ds : List Descriptor} {mayWait : Bool}
    (hstep : hostStep s (.reserve ds mayWait) = some t) : t.Valid := by
  simp only [hostStep] at hstep
  split at hstep
  case isFalse => cases hstep
  case isTrue h =>
    obtain ⟨hidle, -, hne, hlen⟩ := h
    have hfits := hs.host_fits
    rw [hidle] at hfits
    obtain ⟨hfilled, hlaunched⟩ := hfits
    have hpos : 0 < ds.length := List.length_pos_iff.mpr hne
    have hlog := hs.log_length
    cases hstep
    refine { hs with
      log_length := by simp [hlog], log_seq := ?_, filled_le := ?_, cells := ?_,
      host_fits := ?_ }
    · intro i d hd
      dsimp only at hd
      obtain hi | hi := Nat.lt_or_ge i s.log.length
      · rw [List.getElem?_append_left hi] at hd
        exact hs.log_seq i d hd
      · rw [List.getElem?_append_right hi, numbered, List.getElem?_mapIdx] at hd
        obtain ⟨d', -, rfl⟩ := Option.map_eq_some_iff.mp hd
        show s.exchanges + 1 + (i - s.log.length) = i + 1
        omega
    · have := hs.filled_le
      show s.filled ≤ s.exchanges + ds.length
      omega
    · refine hs.cells.imp fun e w _ hhi hd => ?_
      exact { hd with log := (List.getElem?_append_left (by omega)).trans hd.log }
    · show s.exchanges + 1 = s.filled + 1 ∧ s.exchanges + 1 ≤ s.exchanges + ds.length ∧
        s.exchanges + ds.length ≤ s.launched + WORK_SLOTS
      omega

theorem State.Valid.load (hs : s.Valid) (hstep : hostStep s .load = some t) : t.Valid := by
  simp only [hostStep] at hstep
  split at hstep
  case h_2 => cases hstep
  case h_1 seq hpc =>
    have hfits := hs.host_fits
    rw [hpc] at hfits
    obtain ⟨hseq, hle, hwin⟩ := hfits
    have hlog := hs.log_length
    have hfree := hs.cells.next_free_iff (by decide)
    rw [← hseq] at hfree
    split at hstep
    case isTrue hstatus =>
      cases hstep
      have hlt : seq - 1 < s.log.length := by omega
      have hroom : s.filled < s.retired + WORK_SLOTS := hfree.mp hstatus
      refine { hs with host_fits := ⟨hseq, hle, hwin, ?_, ?_⟩ }
      · show seq ≤ s.retired + WORK_SLOTS
        omega
      · exact ⟨s.log[seq - 1], s.work seq, List.getElem?_eq_getElem hlt, Nat.zero_le _, rfl⟩
    case isFalse hstatus =>
      cases hstep
      refine { hs with host_fits := ⟨hseq, hle, hwin, ?_⟩ }
      refine Nat.lt_of_not_le fun hge => hstatus ?_
      exact hfree.mpr (by omega)

theorem State.Valid.retry (hs : s.Valid) (hstep : hostStep s .retry = some t) : t.Valid := by
  simp only [hostStep] at hstep
  split at hstep
  case h_2 => cases hstep
  case h_1 seq hpc =>
    have hfits := hs.host_fits
    rw [hpc] at hfits
    split at hstep <;> cases hstep
    exact { hs with host_fits := ⟨hfits.1, hfits.2.1, hfits.2.2.1⟩ }

private theorem three_ne : (3 : Int) ≠ 0 := by decide

theorem State.Valid.raise (hs : s.Valid) {timedOut : Bool}
    (hstep : hostStep s (.raise timedOut) = some t) : t.Valid := by
  simp only [hostStep] at hstep
  split at hstep
  case h_2 => cases hstep
  case h_1 seq hpc =>
    split at hstep
    · cases hstep
      exact { hs with host_fits := trivial }
    split at hstep
    · cases hstep
      exact { hs with host_fits := trivial }
    split at hstep <;> cases hstep
    exact { hs with host_fits := trivial, releasing_error := fun _ => three_ne }

theorem State.Valid.store (hs : s.Valid) (hstep : hostStep s .store = some t) : t.Valid := by
  simp only [hostStep] at hstep
  split at hstep
  case h_2 => cases hstep
  case h_1 seq k hpc =>
    have hfits := hs.host_fits
    rw [hpc] at hfits
    obtain ⟨hseq, hle, hahead, hwin, d, w, hd, hk, hw⟩ := hfits
    subst hseq
    rw [hd] at hstep
    cases hf : (fillStores d)[k]? with
    | some f =>
        simp only [hf] at hstep
        cases hstep
        have hmem : f ∈ fillStores d := List.mem_of_getElem? hf
        obtain ⟨hlt, -⟩ := List.getElem?_eq_some_iff.mp hf
        refine { hs with cells := ?_, host_fits := ?_ }
        · refine hs.cells.update_next hwin ?_
          unfold IbWork.Running
          rw [fillStores_status d hmem]
          exact hs.cells.free (s.filled + 1) (Nat.lt_succ_self _) hwin
        · refine ⟨rfl, hle, hahead, hwin, d, w, hd, hlt, ?_⟩
          show (s.modify (s.filled + 1) f).work (s.filled + 1) = _
          rw [State.modify_work_self, hw, stored_succ d w hf]
    | none =>
        simp only [hf] at hstep
        cases hstep
        have hpub : publish (s.work (s.filled + 1)) = fillWork d := by
          rw [hw]
          exact publish_stored d w hf
        refine { hs with launched_le := ?_, filled_le := hle, cells := ?_, host_fits := ?_ }
        · have := hs.launched_le
          show s.launched ≤ s.filled + 1
          omega
        · refine hs.cells.push hwin rfl ?_
          rw [hpub]
          exact ⟨hd, fun _ => rfl⟩
        · dsimp only
          split
          case isTrue hlt => exact ⟨rfl, hlt, hahead⟩
          case isFalse hge =>
            have hge : s.exchanges ≤ s.filled + 1 := Nat.le_of_not_lt hge
            have heq : s.filled + 1 = s.exchanges := by omega
            exact ⟨heq, hahead⟩

theorem State.Valid.launch (hs : s.Valid) (hstep : hostStep s .launch = some t) : t.Valid := by
  simp only [hostStep] at hstep
  split at hstep <;> cases hstep
  case isTrue hpc =>
    have hfits := hs.host_fits
    rw [hpc] at hfits
    have := hs.request_le
    have := hs.launched_le
    refine { hs with request_le := ?_, launched_le := ?_, host_fits := ⟨hfits.1, rfl⟩ }
    · dsimp only
      have := hs.filled_le
      omega
    · exact Nat.le_of_eq hfits.1.symm

theorem State.Valid.host_step (hs : s.Valid) {e : HostEvent} (hstep : hostStep s e = some t) :
    t.Valid := by
  cases e with
  | reserve ds mayWait => exact hs.reserve hstep
  | load => exact hs.load hstep
  | retry => exact hs.retry hstep
  | raise timedOut => exact hs.raise hstep
  | store => exact hs.store hstep
  | launch => exact hs.launch hstep
  | launchFailed =>
      simp only [Ring.hostStep] at hstep
      split at hstep <;> cases hstep
      exact { hs with host_fits := trivial }

/-! ## The steps of the engine -/

/-- A step that only touches the cells of exchanges in flight keeps what the host
knows, whatever it retires. -/
theorem State.HostFits.of_engine (hs : s.Valid) (hexchanges : t.exchanges = s.exchanges)
    (hlog : t.log = s.log) (hfilled : t.filled = s.filled) (hlaunched : t.launched = s.launched)
    (hretired : s.retired ≤ t.retired)
    (hwork : ∀ q, q = s.filled + 1 → q ≤ s.retired + WORK_SLOTS → t.work q = s.work q) :
    t.HostFits s.host := by
  have hfits := hs.host_fits
  cases hpc : s.host with
  | idle =>
      rw [hpc] at hfits
      exact ⟨by rw [hfilled, hexchanges]; exact hfits.1,
        by rw [hlaunched, hexchanges]; exact hfits.2⟩
  | awaiting seq =>
      rw [hpc] at hfits
      simp only [State.HostFits, hfilled, hexchanges, hlaunched] at hfits ⊢
      exact hfits
  | blocked seq =>
      rw [hpc] at hfits
      simp only [State.HostFits, hfilled, hexchanges, hlaunched] at hfits ⊢
      exact hfits
  | storing seq k =>
      rw [hpc] at hfits
      obtain ⟨hseq, hle, hahead, hwin, d, w, hd, hk, hw⟩ := hfits
      simp only [State.HostFits, hfilled, hexchanges, hlaunched, hlog]
      exact ⟨hseq, hle, hahead, by omega, d, w, hd, hk, by rw [hwork seq hseq hwin]; exact hw⟩
  | launching =>
      rw [hpc] at hfits
      simp only [State.HostFits, hfilled, hexchanges, hlaunched] at hfits ⊢
      exact hfits
  | raised => trivial

theorem State.Valid.request_step (hs : s.Valid) {seq : Nat}
    (hstep : engineStep s (.request seq) = some t) : t.Valid := by
  simp only [engineStep] at hstep
  split at hstep
  case isFalse => cases hstep
  case isTrue h =>
    obtain ⟨-, hlt, hle⟩ := h
    cases hstep
    exact { hs with
      done_le_request := Nat.le_trans hs.done_le_request (Nat.le_of_lt hlt)
      posted_le_request := Nat.le_trans hs.posted_le_request (Nat.le_of_lt hlt)
      request_le := hle }

theorem State.Valid.post (hs : s.Valid) {t0 : Int}
    (hstep : engineStep s (.post t0) = some t) : t.Valid := by
  simp only [engineStep] at hstep
  split at hstep
  case isFalse => cases hstep
  case isTrue h =>
    obtain ⟨hpc, hlt⟩ := h
    have hdone := hs.done_eq
    have hle := hs.done_le_posted (.inl hpc)
    have hrequest := hs.request_le
    have hlaunched := hs.launched_le
    have hwindow := hs.cells.window
    cases hstep
    refine { hs with
      posted_le_request := hlt
      done_le_posted := fun h => Nat.le_trans (hs.done_le_posted h) (Nat.le_succ _)
      cells := ?_, host_fits := ?_ }
    · have hcells : RingHolds WORK_SLOTS IbWork.Running (Described s.log (s.posted + 1)) s.works
          s.retired s.filled :=
        hs.cells.imp fun e w _ _ hd => { hd with fresh := fun hlt => hd.fresh (by omega) }
      have hin : s.posted + 1 ≤ s.filled := by omega
      refine hcells.update (by omega) hin ?_ ?_
      · exact hcells.held _ (by omega) hin
      · have hd := hcells.contents (s.posted + 1) (by omega) hin
        exact ⟨hd.log, fun hlt => absurd hlt (Nat.lt_irrefl _)⟩
    · refine State.HostFits.of_engine (s := s) hs rfl rfl rfl rfl (Nat.le_refl _) ?_
      intro q hq hwin
      refine State.modify_work_of_ne _ _ ?_
      exact RingHolds.slot_ne (show s.retired < q by omega) (by omega) hwin (by omega) (by omega)

/-- Storing a final status retires exchange `done`. -/
theorem State.Valid.setStatus (hs : s.Valid) {status : Nat} {pc : EnginePc}
    (hpending : s.engine.pending = 1) (hstatus : status ≠ 0) (hpc : pc.pending = 0)
    (hdriving : pc = .driving → s.done ≤ s.posted) (hretiring : pc ≠ .retiring)
    (herror : pc = .releasing ∨ pc = .failing → s.error ≠ 0) :
    State.Valid { s.modify s.done (finish status) with
      engine := pc, retired := s.done } := by
  have hdone := hs.done_eq
  have hle := hs.done_le_request
  have hrequest := hs.request_le
  have hlaunched := hs.launched_le
  have hwindow := hs.cells.window
  have hnext : s.done = s.retired + 1 := by omega
  refine { hs with
    done_eq := ?_, done_le_posted := ?_, releasing_error := herror, cells := ?_,
    host_fits := ?_ }
  · show s.done = s.done + pc.pending
    omega
  · rintro (h | h)
    · exact hdriving h
    · exact absurd h hretiring
  · show RingHolds WORK_SLOTS IbWork.Running (Described s.log s.posted)
      (Function.update s.works (workSlot s.done) (finish status (s.work s.done))) s.done s.filled
    rw [hnext]
    exact hs.cells.pop (by omega) hstatus
  · refine State.HostFits.of_engine (s := s) hs rfl rfl rfl rfl ?_ ?_
    · show s.retired ≤ s.done
      omega
    · intro q hq hwin
      refine State.modify_work_of_ne _ _ ?_
      exact RingHolds.slot_ne (show s.retired < q by omega) (by omega) hwin (by omega) (by omega)

theorem State.Valid.engine_step (hs : s.Valid) {e : EngineEvent}
    (hstep : engineStep s e = some t) : t.Valid := by
  have hdone := hs.done_eq
  cases e with
  | request seq => exact hs.request_step hstep
  | post t0 => exact hs.post hstep
  | fail code =>
      simp only [Ring.engineStep] at hstep
      split at hstep
      case isFalse => cases hstep
      case isTrue h =>
        cases hstep
        exact { hs with releasing_error := fun _ => h.2 }
  | complete =>
      simp only [Ring.engineStep] at hstep
      split at hstep
      case isFalse => cases hstep
      case isTrue h =>
        obtain ⟨hpc, hlt⟩ := h
        rw [hpc] at hdone
        cases hstep
        refine { hs with
          done_eq := ?_, done_le_request := Nat.le_trans hlt hs.posted_le_request,
          done_le_posted := fun _ => hlt
          releasing_error := fun h => by rcases h with h | h <;> cases h }
        show s.done + 1 = s.retired + 1
        exact congrArg (· + 1) hdone
  | release =>
      simp only [Ring.engineStep] at hstep
      split at hstep
      case isFalse => cases hstep
      case isTrue h =>
        rw [h.1] at hdone
        split at hstep
        case isTrue hlt =>
          cases hstep
          refine { hs with
            done_eq := ?_, done_le_request := hlt, done_le_posted := ?_,
            releasing_error := fun _ => h.2 }
          · show s.done + 1 = s.retired + 1
            exact congrArg (· + 1) hdone
          · rintro (h | h) <;> cases h
        case isFalse hge =>
          cases hstep
          refine { hs with
            done_eq := hdone, done_le_posted := ?_, releasing_error := fun _ => h.2 }
          rintro (h | h) <;> cases h
  | setStatus =>
      simp only [Ring.engineStep] at hstep
      split at hstep
      case h_1 hpc =>
        cases hstep
        refine hs.setStatus (by rw [hpc]; rfl) (by omega) rfl (fun _ => ?_) (by decide) ?_
        · exact hs.done_le_posted (.inr hpc)
        · exact fun h => by rcases h with h | h <;> cases h
      case h_2 hpc =>
        cases hstep
        refine hs.setStatus (by rw [hpc]; rfl) (by omega) rfl (fun h => by cases h) (by decide) ?_
        exact fun _ => hs.releasing_error (.inr hpc)
      case h_3 => cases hstep

end Steps

theorem valid_of_reachable {s : State} (hs : ring.Reachable s) : s.Valid := by
  refine hs.invariant ?_ ?_
  · rintro s rfl
    exact State.boot_valid
  · intro s e t _ hs hnext
    cases e with
    | host e => exact hs.host_step hnext
    | engine e => exact hs.engine_step hnext

/-! ## What a step may overwrite -/

/-- No step changes the arguments in the cell of an exchange that is filled and
not retired. -/
theorem State.Valid.descriptor_kept {s t : State} (hs : s.Valid) {e : Event}
    (hnext : ring.next s e = some t) {i : Nat} (hlo : s.retired < i) (hhi : i ≤ s.filled) :
    (t.work i).toDescriptor = (s.work i).toDescriptor := by
  cases e with
  | host e =>
      have hstep : hostStep s e = some t := hnext
      cases e with
      | store =>
          simp only [hostStep] at hstep
          split at hstep
          case h_2 => cases hstep
          case h_1 seq k hpc =>
            have hfits := hs.host_fits
            rw [hpc] at hfits
            obtain ⟨hseq, -, -, hwin, d, -, hd, -⟩ := hfits
            have hne : workSlot i ≠ workSlot seq :=
              RingHolds.slot_ne hlo (by omega) (by omega) hwin (by omega)
            rw [hd] at hstep
            dsimp only at hstep
            split at hstep <;> cases hstep <;>
              exact congrArg IbWork.toDescriptor (s.modify_work_of_ne _ hne)
      | reserve ds mayWait =>
          simp only [hostStep] at hstep
          split at hstep <;> cases hstep
          rfl
      | load =>
          simp only [hostStep] at hstep
          split at hstep <;> (try split at hstep) <;> cases hstep <;> rfl
      | retry =>
          simp only [hostStep] at hstep
          split at hstep <;> (try split at hstep) <;> cases hstep
          rfl
      | raise timedOut =>
          simp only [hostStep] at hstep
          split at hstep
          case h_2 => cases hstep
          case h_1 seq hpc =>
            split at hstep
            · cases hstep
              rfl
            split at hstep
            · cases hstep
              rfl
            split at hstep <;> cases hstep
            rfl
      | launch | launchFailed =>
          simp only [hostStep] at hstep
          split at hstep <;> cases hstep
          rfl
  | engine e =>
      have hstep : engineStep s e = some t := hnext
      have hmodify : ∀ (q : Nat) (f : IbWork → IbWork),
          (∀ w, (f w).toDescriptor = w.toDescriptor) →
          ((s.modify q f).work i).toDescriptor = (s.work i).toDescriptor := by
        intro q f hf
        by_cases hslot : workSlot i = workSlot q
        · simp [State.modify, State.work, hslot, hf]
        · rw [s.modify_work_of_ne f hslot]
      cases e with
      | post t0 =>
          simp only [engineStep] at hstep
          split at hstep <;> cases hstep
          exact hmodify _ _ fun _ => rfl
      | setStatus =>
          simp only [engineStep] at hstep
          split at hstep <;> cases hstep <;> exact hmodify _ _ fun _ => rfl
      | request seq =>
          simp only [engineStep] at hstep
          split at hstep <;> cases hstep
          rfl
      | fail code | complete =>
          simp only [engineStep] at hstep
          split at hstep <;> cases hstep
          rfl
      | release =>
          simp only [engineStep] at hstep
          split at hstep <;> (try split at hstep) <;> cases hstep <;> rfl

/-! ## The fill returns -/

/-- The host is inside the fill of a collective. -/
def HostPc.filling : HostPc → Prop
  | .awaiting _ | .blocked _ | .storing _ _ => True
  | _ => False

/-- Host steps left with `n` exchanges to fill, when no load finds a running one. -/
def HostPc.left (n : Nat) : HostPc → Nat
  | .blocked _ => 20 * n + 1
  | .awaiting _ => 20 * n
  | .storing _ k => 20 * n - 1 - k
  | _ => 0

/-- Host steps left until the collective is filled. -/
def State.left (s : State) : Nat := s.host.left (s.exchanges - s.filled)

/-- The fill is under way or over, and everything filled before the collective has
retired. -/
structure State.Clear (s : State) : Prop where
  valid : s.Valid
  mayWait : s.mayWait = true
  earlier : s.launched ≤ s.retired
  pc : s.host.filling ∨ s.host = .launching

/-- The next cell is free once all that came before the collective has retired. -/
theorem State.Clear.next_free {s : State} (hs : s.Clear) {seq : Nat}
    (hpc : s.host = .awaiting seq) : (s.work seq).status ≠ 0 := by
  have hfits := hs.valid.host_fits
  rw [hpc] at hfits
  obtain ⟨hseq, hle, hahead⟩ := hfits
  have := hs.earlier
  exact hs.valid.cells.free seq (by omega) (by omega)

theorem State.Clear.step {s : State} (hs : s.Clear) :
    s.host = .launching ∨ ∃ e t, (∃ h, e = Event.host h) ∧ ring.next s e = some t ∧
      t.Clear ∧ t.left < s.left := by
  obtain hpc | hpc := hs.pc
  case inr => exact .inl hpc
  have hfits := hs.valid.host_fits
  cases hhost : s.host with
  | idle | launching | raised =>
      rw [hhost] at hpc
      exact hpc.elim
  | blocked seq =>
      refine .inr ⟨.host .retry, { s with host := .awaiting seq }, ⟨_, rfl⟩, ?_, ?_, ?_⟩
      · show hostStep s .retry = _
        simp [hostStep, hhost, hs.mayWait]
      · have hstep : hostStep s .retry = some { s with host := .awaiting seq } := by
          simp [hostStep, hhost, hs.mayWait]
        exact ⟨hs.valid.host_step hstep, hs.mayWait, hs.earlier, .inl trivial⟩
      · simp [State.left, hhost, HostPc.left]
  | awaiting seq =>
      have hfree := hs.next_free hhost
      have hstep : hostStep s .load = some { s with host := .storing seq 0 } := by
        simp [hostStep, hhost, hfree]
      rw [hhost] at hfits
      obtain ⟨hseq, hle, -⟩ := hfits
      refine .inr ⟨.host .load, _, ⟨_, rfl⟩, hstep, ?_, ?_⟩
      · exact ⟨hs.valid.host_step hstep, hs.mayWait, hs.earlier, .inl trivial⟩
      · simp only [State.left, hhost, HostPc.left]
        omega
  | storing seq k =>
      rw [hhost] at hfits
      obtain ⟨hseq, hle, -, -, d, -, hd, hk, -⟩ := hfits
      rw [fillStores_length] at hk
      cases hf : (fillStores d)[k]? with
      | some f =>
          have hstep : hostStep s .store =
              some { s.modify seq f with host := .storing seq (k + 1) } := by
            simp [hostStep, hhost, hd, hf]
          refine .inr ⟨.host .store, _, ⟨_, rfl⟩, hstep, ?_, ?_⟩
          · exact ⟨hs.valid.host_step hstep, hs.mayWait, hs.earlier, .inl trivial⟩
          · show HostPc.left (s.exchanges - s.filled) (.storing seq (k + 1)) < s.left
            simp only [State.left, hhost, HostPc.left]
            omega
      | none =>
          have hstep : hostStep s .store = some { s.modify seq publish with
              filled := seq
              host := if seq < s.exchanges then .awaiting (seq + 1) else .launching } := by
            simp [hostStep, hhost, hd, hf]
          refine .inr ⟨.host .store, _, ⟨_, rfl⟩, hstep, ?_, ?_⟩
          · refine ⟨hs.valid.host_step hstep, hs.mayWait, hs.earlier, ?_⟩
            dsimp only
            split
            · exact .inl trivial
            · exact .inr rfl
          · show HostPc.left (s.exchanges - seq)
              (if seq < s.exchanges then .awaiting (seq + 1) else .launching) < s.left
            simp only [State.left, hhost, HostPc.left]
            split <;> omega

/-- Engine steps left until every exchange handed to the stream has retired. -/
def State.draining (s : State) : Nat :=
  (s.launched - s.request) + (s.launched - s.posted) + 2 * (s.launched - s.done) +
    s.engine.pending

/-- The engine can always go on with what was handed to the stream. -/
theorem State.Valid.drain_step {s : State} (hs : s.Valid) :
    s.launched ≤ s.retired ∨ ∃ e t, engineStep s e = some t ∧ t.host = s.host ∧
      t.mayWait = s.mayWait ∧ t.launched = s.launched ∧ t.draining < s.draining := by
  have hdone := hs.done_eq
  have hposted := hs.posted_le_request
  have hrequest := hs.request_le
  have hle := hs.done_le_request
  -- Whoever drives the engine, a request not yet seen is the first thing to move.
  by_cases hidle : s.engine.pending = 0 ∧ s.request < s.launched
  case pos =>
    obtain ⟨hpending, hlt⟩ := hidle
    have hstep : engineStep s (.request s.launched) =
        some { s with request := s.launched } := by
      simp [engineStep, hpending, hlt]
    refine .inr ⟨_, _, hstep, rfl, rfl, rfl, ?_⟩
    simp only [State.draining]
    omega
  cases hpc : s.engine with
  | retiring =>
      have hstep : engineStep s .setStatus = some { s.modify s.done (finish 1) with
          engine := .driving, retired := s.done } := by
        simp only [engineStep, hpc]
      refine .inr ⟨_, _, hstep, rfl, rfl, rfl, ?_⟩
      simp only [State.draining, State.modify, hpc, EnginePc.pending]
      omega
  | failing =>
      have hstep : engineStep s .setStatus = some { s.modify s.done (finish 2) with
          engine := .releasing, retired := s.done } := by
        simp only [engineStep, hpc]
      refine .inr ⟨_, _, hstep, rfl, rfl, rfl, ?_⟩
      simp only [State.draining, State.modify, hpc, EnginePc.pending]
      omega
  | driving =>
      have hdp := hs.done_le_posted (.inl hpc)
      have hseen : s.launched ≤ s.request :=
        Nat.le_of_not_lt fun hlt => hidle ⟨by rw [hpc]; rfl, hlt⟩
      simp only [hpc, EnginePc.pending] at hdone
      by_cases hp : s.posted < s.request
      · have hstep : engineStep s (.post 0) =
            some { s.modify (s.posted + 1) (posting 0) with posted := s.posted + 1 } := by
          simp [engineStep, hpc, hp]
        refine .inr ⟨_, _, hstep, rfl, rfl, rfl, ?_⟩
        simp only [State.draining, State.modify, hpc, EnginePc.pending]
        omega
      by_cases hd : s.done < s.posted
      · have hstep : engineStep s .complete =
            some { s with engine := .retiring, done := s.done + 1 } := by
          simp [engineStep, hpc, hd]
        refine .inr ⟨_, _, hstep, rfl, rfl, rfl, ?_⟩
        simp only [State.draining, hpc, EnginePc.pending]
        omega
      · exact .inl (by omega)
  | releasing =>
      have herror := hs.releasing_error (.inl hpc)
      have hseen : s.launched ≤ s.request :=
        Nat.le_of_not_lt fun hlt => hidle ⟨by rw [hpc]; rfl, hlt⟩
      simp only [hpc, EnginePc.pending] at hdone
      by_cases hd : s.done < s.request
      · have hstep : engineStep s .release =
            some { s with engine := .failing, done := s.done + 1 } := by
          simp [engineStep, hpc, herror, hd, EnginePc.pending]
        refine .inr ⟨_, _, hstep, rfl, rfl, rfl, ?_⟩
        simp only [State.draining, hpc, EnginePc.pending]
        omega
      · exact .inl (by omega)

/-- Everything filled before the collective can retire without the host. -/
theorem State.Valid.drain {s : State} (hs : s.Valid) (hpc : s.host.filling)
    (hwait : s.mayWait = true) :
    ∃ es t, (∀ e ∈ es, ∃ f, e = Event.engine f) ∧ ring.run s es = some t ∧ t.Clear ∧
      t.launched = s.launched := by
  obtain ⟨es, t, hes, hrun, ⟨hv, hh, hw, hl⟩, hclear⟩ := ring.exists_run_of_measure
    (P := fun t => t.Valid ∧ t.host = s.host ∧ t.mayWait = s.mayWait ∧ t.launched = s.launched)
    (Q := fun t => t.launched ≤ t.retired) (A := fun e => ∃ f, e = Event.engine f)
    State.draining
    (fun t ⟨hv, hh, hw, hl⟩ => hv.drain_step.imp_right fun ⟨e, u, hstep, hh', hw', hl', hlt⟩ =>
      ⟨.engine e, u, ⟨e, rfl⟩, hstep, ⟨hv.engine_step hstep, hh'.trans hh, hw'.trans hw,
        hl'.trans hl⟩, hlt⟩)
    (s := s) ⟨hs, rfl, rfl, rfl⟩
  exact ⟨es, t, hes, hrun, ⟨hv, hw.trans hwait, hclear, .inl (hh ▸ hpc)⟩, hl⟩

/-- Then the host's own steps finish the fill. -/
theorem State.Clear.fill {s : State} (hs : s.Clear) :
    ∃ es t, (∀ e ∈ es, ∃ h, e = Event.host h) ∧ ring.run s es = some t ∧ t.Clear ∧
      t.host = .launching :=
  ring.exists_run_of_measure State.left (fun _ ht => ht.step) hs

/-! ## The claims of the ring -/

/-- The exchange whose cell a step of the engine reads. -/
def State.reads (s : State) : EngineEvent → Option Nat
  | .request seq => some seq
  | .post _ => some (s.posted + 1)
  | .complete => some (s.done + 1)
  | .setStatus => some s.done
  | .fail _ | .release => none

theorem State.Valid.reads_window {s t : State} (hs : s.Valid) {e : EngineEvent} {i : Nat}
    (hstep : engineStep s e = some t) (hi : s.reads e = some i) :
    s.retired < i ∧ i ≤ s.filled := by
  have hdone := hs.done_eq
  have hle := hs.done_le_request
  have hposted := hs.posted_le_request
  have hrequest := hs.request_le
  have hlaunched := hs.launched_le
  cases e with
  | fail code | release => cases hi
  | request seq =>
      cases hi
      simp only [engineStep] at hstep
      split at hstep
      case isFalse => cases hstep
      case isTrue h => omega
  | post t0 =>
      cases hi
      simp only [engineStep] at hstep
      split at hstep
      case isFalse => cases hstep
      case isTrue h =>
        have := hs.done_le_posted (.inl h.1)
        omega
  | complete =>
      cases hi
      simp only [engineStep] at hstep
      split at hstep
      case isFalse => cases hstep
      case isTrue h => omega
  | setStatus =>
      cases hi
      simp only [engineStep] at hstep
      split at hstep
      case h_1 hpc | h_2 hpc =>
        simp only [hpc, EnginePc.pending] at hdone
        omega
      case h_3 => cases hstep

/-- **Work-ring integrity.**  In every state of every run: whatever cell a step of
the engine reads holds, as one whole, what the fill of that exchange was given; no
step changes the arguments in the cell of a filled exchange that has not retired;
a fill that finds its cell running waits for an exchange of an earlier collective,
already handed to the stream; and a fill under way can always be finished by engine
steps on those earlier exchanges and then steps of the host alone. -/
theorem work_ring_integrity {s : State} (hs : ring.Reachable s) :
    (∀ e t i, engineStep s e = some t → s.reads e = some i →
      s.log[i - 1]? = some (s.work i).toDescriptor ∧ (s.work i).seq = i ∧
        (s.posted < i → s.work i = fillWork (s.work i).toDescriptor)) ∧
    (∀ e t i, ring.next s e = some t → s.retired < i → i ≤ s.filled →
      (t.work i).toDescriptor = (s.work i).toDescriptor) ∧
    (∀ seq, s.host = .blocked seq →
      WORK_SLOTS < seq ∧ seq - WORK_SLOTS ≤ s.launched ∧ s.launched < seq) ∧
    (s.host.filling → s.mayWait = true →
      ∃ es t fs u, (∀ e ∈ es, ∃ f, e = Event.engine f) ∧ ring.run s es = some t ∧
        t.launched = s.launched ∧ (∀ e ∈ fs, ∃ h, e = Event.host h) ∧
        ring.run t fs = some u ∧ u.host = .launching ∧ u.filled = u.exchanges) := by
  have hv := valid_of_reachable hs
  refine ⟨?_, fun e t i hnext => hv.descriptor_kept hnext, ?_, ?_⟩
  · intro e t i hstep hi
    obtain ⟨hlo, hhi⟩ := hv.reads_window hstep hi
    have hd := hv.cells.contents i hlo hhi
    refine ⟨hd.log, ?_, hd.fresh⟩
    have hseq : (s.work i).seq = i - 1 + 1 := hv.log_seq _ _ hd.log
    omega
  · intro seq hpc
    have hfits := hv.host_fits
    rw [hpc] at hfits
    obtain ⟨hseq, hle, hahead, hwait⟩ := hfits
    have := hv.launched_le
    omega
  · intro hpc hwait
    obtain ⟨es, t, hes, hrun, hclear, hl⟩ := hv.drain hpc hwait
    obtain ⟨fs, u, hfs, hrun', hclear', hlaunching⟩ := hclear.fill
    refine ⟨es, t, fs, u, hes, hrun, hl, hfs, hrun', hlaunching, ?_⟩
    have hfits := hclear'.valid.host_fits
    rw [hlaunching] at hfits
    exact hfits.1

/-- Two exchanges of one collective handed to the engine while the host is in the
middle of filling a third. -/
def fillWhilePosting : List Event :=
  let d : Descriptor := ⟨1, 4096, 64, 0, 512, 64, true, 1, 512, 0, 0, 1, 0, 2, 16⟩
  (.host (.reserve [d, { d with opChunk := 1 }] true) :: .host .load ::
    List.replicate 18 (.host .store)).append
    ((.host .load :: List.replicate 18 (.host .store)).append
      (.host .launch :: .engine (.request 2) :: .host (.reserve [d] true) ::
        .host .load :: List.replicate 5 (.host .store)))

theorem work_ring_integrity_fillWhilePosting :
    ∃ s, ring.run State.boot fillWhilePosting = some s ∧ s.host = .storing 3 5 ∧
      s.posted = 0 ∧ s.log[0]? = some (s.work 1).toDescriptor ∧
      s.work 1 = fillWork (s.work 1).toDescriptor ∧
      ∃ es u, ring.run s es = some u ∧ u.filled = u.exchanges := by
  have hrun : (ring.run State.boot fillWhilePosting).any (fun s =>
      decide (s.host = .storing 3 5 ∧ s.posted = 0 ∧ s.mayWait = true ∧
        (engineStep s (.post 7)).isSome)) = true := by
    decide
  obtain ⟨s, hs, hpcs⟩ := (Option.any_eq_true _ _).mp hrun
  obtain ⟨hpc, hposted, hwait, hpost⟩ := of_decide_eq_true hpcs
  obtain ⟨t, ht⟩ := Option.isSome_iff_exists.mp hpost
  have hreach : ring.Reachable s := ⟨State.boot, fillWhilePosting, rfl, hs⟩
  obtain ⟨hread, -, -, hfill⟩ := work_ring_integrity hreach
  have hreads : s.reads (.post 7) = some 1 := by
    simp [State.reads, hposted]
  obtain ⟨hlog, -, hfresh⟩ := hread _ _ _ ht hreads
  obtain ⟨es, u, fs, v, -, hes, -, -, hfs, -, hv⟩ := hfill (hpc ▸ trivial) hwait
  refine ⟨s, hs, hpc, hposted, hlog, hfresh (by omega), es ++ fs, v, ?_, hv⟩
  exact ring.run_append_eq_some.mpr ⟨u, hes, hfs⟩

end TorchMojoBackend.Ccl.Net.Ring
