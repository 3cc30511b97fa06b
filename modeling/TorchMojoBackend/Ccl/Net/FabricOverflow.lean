/-
  `Ccl.Net.FabricOverflow`: a run that fills the ring of the libfabric transport.

  A notification is completed when the provider wants to, and no credit waits for it.  In
  every exchange of the run the payload write completes and the peer's credit arrives, and the
  notification stays pending.  After `BACKLOG_CAP + 1` exchanges the provider completes all of
  them, and the next payload write is tried again until the queue is read.
-/
import TorchMojoBackend.Ccl.Net.FabricDelivery

set_option autoImplicit false

namespace TorchMojoBackend.Ccl.Net.Fabric

open TorchMojoBackend.Foundation

/-- Two nodes. -/
def pair : Config := ⟨2, 0, 5, 64⟩

/-- A notification to the peer. -/
def Op.Notifies : Op → Prop
  | .notify _ _ _ => True
  | _ => False

/-- After `e` exchanges whose notifications are pending. -/
structure Delayed (e : Nat) (s : Sys) : Prop where
  calls : s.calls = []
  seq : s.postedSeq = e
  credit : e ≤ s.creditRecv 0
  pending : s.pending.length = e
  notifies : ∀ op ∈ s.pending, op.Notifies
  cq : s.cq = []
  posted : 0 ∈ s.posted
  contents : s.net.contents = []
  lastError : s.net.lastError = 0
  latches : s.latches = 0
  peers : s.net.peerOfNode = [-1, 0]

theorem Delayed.boot : Delayed 0 (Sys.boot pair) where
  calls := rfl
  seq := rfl
  credit := Nat.le_refl 0
  pending := rfl
  notifies := fun _ h => absurd h List.not_mem_nil
  cq := rfl
  posted := Finset.mem_range.mpr (by decide)
  contents := rfl
  lastError := rfl
  latches := rfl
  peers := rfl

theorem canPost_pair {creditRecv : Nat → Nat} {e : Nat} (h : e ≤ creditRecv 0) :
    canPost pair creditRecv (e + 1) = true := by
  refine List.all_eq_true.mpr fun i hi => decide_eq_true ?_
  obtain rfl : i = 0 := by
    have : i < 1 := List.mem_range.mp hi
    omega
  change e + 1 - 5 ≤ creditRecv 0
  omega

/-! ## Steps -/

section Steps

variable {c : Config} {s : Sys}

theorem reachable_complete (hs : (system c).Reachable s) {place : Nat} {posted : Op}
    (hplace : s.pending[place]? = some posted) : (system c).Reachable { s with
      pending := s.pending.eraseIdx place
      cq := s.cq ++ [posted.entry]
      landed := s.landed ++ [.op posted] } := by
  refine hs.step (e := .complete place) ?_
  change next c s (.complete place) = _
  unfold next
  dsimp only
  rw [hplace]

theorem reachable_arrive (hs : (system c).Reachable s) {buffer node imm : Nat}
    (hin : buffer ∈ s.posted ∧ node < c.nodes ∧ imm < 2 ^ 32) : (system c).Reachable { s with
      posted := s.posted.erase buffer
      cq := s.cq ++ [recvEntry buffer node imm]
      landed := s.landed ++ [.message buffer node imm] } := by
  refine hs.step (e := .arrive buffer node imm) ?_
  change next c s (.arrive buffer node imm) = _
  unfold next
  dsimp only
  rw [if_pos hin]

theorem reachable_accept (hs : (system c).Reachable s) {posted : Op} {calls : List Op}
    (hcalls : s.calls = posted :: calls) : (system c).Reachable { s with
      pending := s.pending ++ [posted]
      accepted := s.accepted ++ [posted]
      calls := calls
      spins := EAGAIN_SPINS } := by
  refine hs.step (e := .accept) ?_
  change next c s .accept = _
  unfold next
  dsimp only
  rw [hcalls]

theorem reachable_retry (hs : (system c).Reachable s) {r : CqRead} (hcalls : s.calls ≠ [])
    (hr : s.Readable r) (hspins : 1 < s.spins) :
    (system c).Reachable { s.read r with spins := s.spins - 1 } := by
  refine hs.step (e := .retry r) ?_
  change next c s (.retry r) = _
  unfold next
  dsimp only
  rw [if_pos ⟨hcalls, hr⟩]
  exact congrArg some (if_neg (Nat.not_le.mpr hspins))

theorem reachable_poll (hs : (system c).Reachable s) {r : CqRead} (hcalls : s.calls = [])
    (hr : s.Readable r) : (system c).Reachable (s.read r).afterPoll := by
  refine hs.step (e := .poll r) ?_
  change next c s (.poll r) = _
  unfold next
  dsimp only
  rw [if_pos ⟨hcalls, hr⟩]
  rfl

end Steps

/-- A poll that finds the ring empty returns what its read pushed. -/
theorem poll_read {s : Sys} {r : CqRead} (hempty : s.net.contents = [])
    (hlen : (readPushes s.net.peerOfNode r).length ≤ COMP_BATCH) (herror : s.net.lastError = 0) :
    (s.read r).afterPoll.net.contents = [] ∧ (s.read r).afterPoll.net.lastError = 0 ∧
      (s.read r).afterPoll.latches = s.latches ∧
      (s.read r).afterPoll.net.peerOfNode = s.net.peerOfNode ∧
      (s.read r).afterPoll.popped = s.popped ++ readPushes s.net.peerOfNode r ∧
      (s.read r).afterPoll.creditRecv =
        (readPushes s.net.peerOfNode r).foldl consumeCredit s.creditRecv := by
  have hcount : s.net.backlog.count = 0 := by
    rw [← s.net.length_contents, hempty]
    rfl
  have hfits : (readPushes s.net.peerOfNode r).length ≤ BACKLOG_CAP - s.net.backlog.count := by
    rw [hcount]
    exact Nat.le_trans hlen (by decide)
  have hcontents : (s.read r).net.contents = readPushes s.net.peerOfNode r := by
    change (s.net.drain r).contents = _
    rw [s.net.drain_eq, (s.net.pushes_eq _).1, hempty, List.take_of_length_le hfits]
    rfl
  have hlast : (s.read r).net.lastError = 0 := by rw [Sys.lastError_read, if_pos hfits, herror]
  have hpopped : ((s.read r).net.popUpTo COMP_BATCH).1 = readPushes s.net.peerOfNode r := by
    rw [FabricNet.popUpTo_popped, hcontents, List.take_of_length_le hlen]
  obtain ⟨hall, -, herr, hpeer⟩ := (s.read r).net.popUpTo_eq COMP_BATCH
  have hrest : ((s.read r).net.popUpTo COMP_BATCH).2.contents = [] := by
    rw [hcontents, hpopped] at hall
    exact List.append_right_eq_self.mp hall
  have hpoll : (s.read r).net.poll COMP_BATCH = (readPushes s.net.peerOfNode r, false,
      ((s.read r).net.popUpTo COMP_BATCH).2) := by
    unfold FabricNet.poll
    dsimp only
    rw [if_neg (fun h => h.1 (herr.trans hlast)), hpopped]
  unfold Sys.afterPoll
  rw [hpoll]
  exact ⟨hrest, herr.trans hlast, rfl, hpeer.trans (Sys.peerOfNode_read s r), rfl, rfl⟩

/-- What a poll reads in one exchange: the payload write, and the peer's credit in buffer 0. -/
def exchangeRead (e : Nat) : CqRead :=
  .entries [((Op.write 0 e).entry, 0), (recvEntry 0 1 (creditImm e), 0)]

theorem creditImm_lt (e : Nat) : creditImm e < 2 ^ 32 := by
  have := Nat.mod_lt e (Nat.two_pow_pos 31)
  unfold creditImm IMM_CREDIT_BIT immSeq
  omega

theorem readPushes_exchange (e : Nat) : readPushes [-1, 0] (exchangeRead e) =
    [⟨.send, 0, 0, e % 2 ^ 40, 0⟩, ⟨.recv, 0, creditImm e, 0, 0⟩] := by
  have hwrite := @entryPushes_entry [-1, 0] (.op (.write 0 e)) (Nat.two_pow_pos 16)
  have hcredit := @entryPushes_entry [-1, 0] (.message 0 1 (creditImm e)) (creditImm_lt e)
  change entryPushes _ (Landing.op (.write 0 e)).entry 0 ++
    (entryPushes _ (Landing.message 0 1 (creditImm e)).entry 0 ++ []) = _
  rw [hwrite, hcredit]
  rfl

/-- After the poll of an exchange. -/
theorem Delayed.poll {e : Nat} (he : e < 2 ^ 31) {s : Sys} (hcalls : s.calls = [])
    (hseq : s.postedSeq = e) (hpending : s.pending.length = e)
    (hnotifies : ∀ op ∈ s.pending, op.Notifies)
    (hcq : s.cq = [(Op.write 0 e).entry, recvEntry 0 1 (creditImm e)])
    (hcontents : s.net.contents = []) (herror : s.net.lastError = 0) (hlatches : s.latches = 0)
    (hpeers : s.net.peerOfNode = [-1, 0]) : Delayed e (s.read (exchangeRead e)).afterPoll := by
  have hpushes : readPushes s.net.peerOfNode (exchangeRead e) =
      [⟨.send, 0, 0, e % 2 ^ 40, 0⟩, ⟨.recv, 0, creditImm e, 0, 0⟩] := by
    rw [hpeers, readPushes_exchange]
  obtain ⟨hempty, hlast, hmany, hnodes, -, hcredit⟩ := poll_read hcontents
    (by rw [hpushes]; exact (by decide : 2 ≤ 16)) herror
  refine ⟨hcalls, hseq, ?_, hpending, hnotifies, ?_, ?_, hempty, hlast, hmany.trans hlatches,
    hnodes.trans hpeers⟩
  · rw [hcredit, hpushes]
    change e ≤ consumeCredit (consumeCredit s.creditRecv ⟨.send, 0, 0, e % 2 ^ 40, 0⟩)
      ⟨.recv, 0, creditImm e, 0, 0⟩ 0
    have hsend : consumeCredit s.creditRecv ⟨.send, 0, 0, e % 2 ^ 40, 0⟩ = s.creditRecv :=
      if_neg fun h => nomatch h.2.1
    rw [hsend]
    have hself : consumeCredit s.creditRecv ⟨.recv, 0, creditImm e, 0, 0⟩ =
        if s.creditRecv 0 < e then Function.update s.creditRecv 0 e else s.creditRecv := by
      unfold consumeCredit
      dsimp only
      rw [immSeq_creditImm he, immIsCredit_creditImm he]
      refine if_congr ?_ rfl rfl
      exact ⟨fun h => h.2.2.2.2, fun h => ⟨rfl, rfl, rfl, Int.le_refl 0, h⟩⟩
    rw [hself]
    split
    · rw [Function.update_self]
    · omega
  · change s.cq.drop 2 = []
    rw [hcq]
    rfl
  · refine mem_repost.mpr (.inr ⟨(recvEntry 0 1 (creditImm e), 0), List.mem_cons_of_mem _
      List.mem_cons_self, ?_, rfl, ?_⟩)
    · exact decide_eq_true (by decide : (FI_MSG ||| FI_RECV ||| FI_REMOTE_CQ_DATA) &&& FI_RECV ≠ 0)
    · exact (@ctx_packCtx (code .recv) 0 0 (by decide) (by decide)).2.2

/-- One more exchange, whose notification stays pending. -/
theorem Delayed.exchange {e : Nat} (he : e + 1 < 2 ^ 31) {s : Sys} (hs : (system pair).Reachable s)
    (h : Delayed e s) : ∃ t, (system pair).Reachable t ∧ Delayed (e + 1) t := by
  have hpost : (system pair).Reachable { s with
      calls := [.write 0 (e + 1), .notify 0 (immSeq (e + 1)) (e + 1)]
      spins := EAGAIN_SPINS
      postedSeq := e + 1 } := by
    refine hs.step (e := .postData) ?_
    change next pair s .postData = _
    unfold next
    dsimp only
    rw [h.seq, if_pos ⟨h.calls, canPost_pair h.credit⟩]
    rfl
  have hplace : (s.pending ++ [Op.write 0 (e + 1)])[s.pending.length]? = some (.write 0 (e + 1)) := by
    rw [List.getElem?_append_right (Nat.le_refl _), Nat.sub_self]
    rfl
  have hin : 0 ∈ s.posted ∧ 1 < pair.nodes ∧ creditImm (e + 1) < 2 ^ 32 :=
    ⟨h.posted, by decide, creditImm_lt (e + 1)⟩
  have hnotified := reachable_accept (reachable_complete (reachable_accept hpost rfl) hplace) rfl
  have harrived := reachable_arrive hnotified hin
  have hpending : (s.pending ++ [Op.write 0 (e + 1)]).eraseIdx s.pending.length = s.pending := by
    rw [List.eraseIdx_append_of_length_le (Nat.le_refl _), Nat.sub_self]
    exact List.append_nil _
  dsimp only at harrived
  rw [hpending, h.cq, List.nil_append, List.singleton_append] at harrived
  have hread : ∀ x ∈ (exchangeRead (e + 1)).batch, x.2 ≤ 0 := by
    intro x hx
    obtain rfl | hx := List.mem_cons.mp hx
    · exact Int.le_refl 0
    · obtain rfl := List.mem_singleton.mp hx
      exact Int.le_refl 0
  have hpolled := reachable_poll harrived (r := exchangeRead (e + 1)) rfl
    ⟨Nat.two_pos, (by decide : 2 ≤ 16), List.prefix_refl _, hread⟩
  refine ⟨_, hpolled, Delayed.poll he rfl rfl ?_ ?_ rfl h.contents h.lastError h.latches h.peers⟩
  · change (s.pending ++ [_]).length = e + 1
    rw [List.length_append, h.pending]
    rfl
  · intro op hop
    obtain hop | hop := List.mem_append.mp hop
    · exact h.notifies op hop
    · obtain rfl := List.mem_singleton.mp hop
      trivial

theorem exists_delayed (e : Nat) (he : e < 2 ^ 31) :
    ∃ s, (system pair).Reachable s ∧ Delayed e s := by
  induction e with
  | zero => exact ⟨Sys.boot pair, .of_init rfl, .boot⟩
  | succ e ih =>
      obtain ⟨s, hs, h⟩ := ih (by omega)
      exact h.exchange he hs

/-- The provider completes all that is pending, in order. -/
theorem reachable_complete_all {c : Config} {s : Sys} (hs : (system c).Reachable s) :
    (system c).Reachable { s with
      pending := []
      cq := s.cq ++ s.pending.map Op.entry
      landed := s.landed ++ s.pending.map .op } := by
  obtain ⟨net, pending, posted, cq, calls, spins, postedSeq, creditSent, creditRecv, accepted,
    landed, reads, popped, latches⟩ := s
  dsimp only
  induction pending generalizing cq landed with
  | nil =>
      rw [List.map_nil, List.map_nil, List.append_nil, List.append_nil]
      exact hs
  | cons op pending ih =>
      have hone := reachable_complete hs (List.getElem?_cons_zero : (op :: pending)[0]? = some op)
      have hall := ih _ _ hone
      rw [List.append_assoc, List.append_assoc] at hall
      exact hall

/-! ## The retries -/

/-- Entries of notifications. -/
def OfNotifications (es : List CqEntry) : Prop :=
  ∀ e ∈ es, ∃ op : Op, op.Notifies ∧ e = op.entry

theorem readPushes_notifications (peerOfNode : List Int) {es : List CqEntry}
    (h : OfNotifications es) :
    readPushes peerOfNode (.entries (es.map fun e => (e, 0))) =
      List.replicate es.length ⟨.other, -1, 0, 0, 0⟩ := by
  unfold readPushes
  dsimp only
  induction es with
  | nil => rfl
  | cons e es ih =>
      obtain ⟨op, hop, rfl⟩ := h e List.mem_cons_self
      have hone : entryPushes peerOfNode op.entry 0 = [⟨.other, -1, 0, 0, 0⟩] := by
        cases op with
        | notify peer imm seq =>
            exact @entryPushes_entry peerOfNode (.op (.notify peer imm seq)) trivial
        | write peer seq => exact hop.elim
        | flush seq => exact hop.elim
      rw [List.map_cons, List.flatMap_cons, ih fun e he => h e (List.mem_cons_of_mem _ he), hone]
      rfl

/-- After `k` retries of a payload write, each of which read 16 entries. -/
structure Blocked (k : Nat) (s : Sys) : Prop where
  calls : s.calls ≠ []
  spins : s.spins + k = EAGAIN_SPINS
  cq : s.cq.length = BACKLOG_CAP + 1 - 16 * k
  notifications : OfNotifications s.cq
  count : s.net.contents.length = 16 * k
  lastError : s.net.lastError = 0
  latches : s.latches = 0

theorem readable_take {s : Sys} {k : Nat} (hk : k ≤ 16) (h : 0 < min k s.cq.length) :
    s.Readable (.entries ((s.cq.take k).map fun e => (e, 0))) := by
  refine ⟨?_, ?_, ?_, fun e he => ?_⟩
  · rwa [List.length_map, List.length_take]
  · rw [List.length_map, List.length_take]
    omega
  · rw [List.map_map]
    exact (List.map_id _).symm ▸ List.take_prefix k s.cq
  · obtain ⟨_, -, rfl⟩ := List.mem_map.mp he
    exact Int.le_refl 0

theorem Blocked.retry {k : Nat} (hk : k < 64) {s : Sys} (hs : (system pair).Reachable s)
    (h : Blocked k s) : ∃ t, (system pair).Reachable t ∧ Blocked (k + 1) t := by
  have hcap : BACKLOG_CAP = 1024 := rfl
  have hmany : EAGAIN_SPINS = 1000000 := rfl
  have hcq := h.cq
  have hspins := h.spins
  have hcount := h.count
  have htake : (s.cq.take 16).length = 16 := by
    rw [List.length_take]
    omega
  have hpushes := @readPushes_notifications s.net.peerOfNode (s.cq.take 16)
    fun e he => h.notifications e (List.mem_of_mem_take he)
  have hroom : s.net.backlog.count = 16 * k := s.net.length_contents ▸ hcount
  have hlen : (readPushes s.net.peerOfNode
      (.entries ((s.cq.take 16).map fun e => (e, 0)))).length = 16 := by
    rw [hpushes, List.length_replicate, htake]
  refine ⟨_, reachable_retry hs h.calls (readable_take (Nat.le_refl 16) (by omega)) (by omega),
    h.calls, ?_, ?_, ?_, ?_, ?_, h.latches⟩
  · change s.spins - 1 + (k + 1) = EAGAIN_SPINS
    omega
  · change (s.cq.drop ((s.cq.take 16).map fun e => (e, (0 : Int))).length).length = _
    rw [List.length_map, htake, List.length_drop]
    omega
  · intro e he
    exact h.notifications e (List.mem_of_mem_drop he)
  · change (s.net.drain _).contents.length = _
    rw [s.net.drain_eq, (s.net.pushes_eq _).1, List.length_append, List.length_take, hlen, hcount,
      hroom]
    omega
  · change (s.read _).net.lastError = 0
    rw [Sys.lastError_read, hlen, if_pos (by omega), h.lastError]

/-- The first retry of the write that follows the delayed notifications. -/
theorem exists_blocked : ∃ s, (system pair).Reachable s ∧ Blocked 0 s := by
  obtain ⟨s, hs, h⟩ := exists_delayed (BACKLOG_CAP + 1) (by decide)
  have hcompleted := reachable_complete_all hs
  have hposted : (system pair).Reachable { s with
      pending := []
      cq := s.cq ++ s.pending.map Op.entry
      landed := s.landed ++ s.pending.map .op
      calls := [.write 0 (BACKLOG_CAP + 2), .notify 0 (immSeq (BACKLOG_CAP + 2)) (BACKLOG_CAP + 2)]
      spins := EAGAIN_SPINS
      postedSeq := BACKLOG_CAP + 2 } := by
    refine hcompleted.step (e := .postData) ?_
    change next pair _ .postData = _
    unfold next
    dsimp only
    rw [h.seq, if_pos ⟨h.calls, canPost_pair h.credit⟩]
    rfl
  refine ⟨_, hposted, List.cons_ne_nil _ _, rfl, ?_, fun e he => ?_, ?_, h.lastError, h.latches⟩
  · change (s.cq ++ s.pending.map Op.entry).length = _
    rw [h.cq, List.nil_append, List.length_map, h.pending]
    rfl
  · dsimp only at he
    rw [h.cq, List.nil_append] at he
    obtain ⟨op, hop, rfl⟩ := List.mem_map.mp he
    exact ⟨op, h.notifies op hop, rfl⟩
  · exact congrArg List.length h.contents

theorem exists_blocked_full (k : Nat) (hk : k ≤ 64) :
    ∃ s, (system pair).Reachable s ∧ Blocked k s := by
  induction k with
  | zero => exact exists_blocked
  | succ k ih =>
      obtain ⟨s, hs, h⟩ := ih (by omega)
      exact h.retry (by omega) hs

/-- The ring overflows: a completion that was read is neither in it nor among those that were
returned. -/
theorem fabric_overflows : ∃ s, (system pair).Reachable s ∧ s.net.lastError = -1 ∧
    s.popped ++ s.net.contents ≠ s.pushed := by
  obtain ⟨s, hs, h⟩ := exists_blocked_full 64 (Nat.le_refl 64)
  have hlen : s.cq.length = 1 := h.cq
  have hfull : s.net.backlog.count = BACKLOG_CAP := s.net.length_contents ▸ h.count
  have htake : s.cq.take 1 = s.cq := List.take_of_length_le (by omega)
  have hpushes : readPushes s.net.peerOfNode (.entries ((s.cq.take 1).map fun e => (e, 0))) =
      [⟨.other, -1, 0, 0, 0⟩] := by
    rw [htake, readPushes_notifications _ h.notifications, hlen]
    rfl
  have hall : s.kept = s.pushed := by
    have hvalid : pair.Valid := ⟨by decide, by decide, by decide⟩
    obtain hall | hlast | hmany := (Sys.Inv.of_reachable hvalid hs).all
    · exact hall
    · exact absurd h.lastError hlast
    · have := h.latches
      omega
  refine ⟨_, reachable_retry hs h.calls (readable_take (k := 1) (by decide) ?_) ?_, ?_, ?_⟩
  · omega
  · have hspins := h.spins
    change s.spins + 64 = 1000000 at hspins
    omega
  · change (s.read _).net.lastError = -1
    rw [Sys.lastError_read, hpushes, hfull, Nat.sub_self]
    rfl
  · change (s.read _).kept ≠ (s.read _).pushed
    intro heq
    have hkept := Sys.kept_read s (.entries ((s.cq.take 1).map fun e => (e, 0)))
    have hpushed := Sys.pushed_read s (.entries ((s.cq.take 1).map fun e => (e, 0)))
    rw [hpushes, hfull, Nat.sub_self, List.take_zero, List.append_nil] at hkept
    rw [hpushes] at hpushed
    have hsame := (hkept.symm.trans heq).trans hpushed
    rw [hall] at hsame
    exact absurd (congrArg List.length hsame) (by simp)

/-- One exchange, whose notification is completed at once. -/
def notified : List Event :=
  [.postData, .accept, .complete 0, .accept, .complete 0,
    .poll (.entries [((Op.write 0 1).entry, 0), ((Op.notify 0 1 1).entry, 0)])]

end TorchMojoBackend.Ccl.Net.Fabric
