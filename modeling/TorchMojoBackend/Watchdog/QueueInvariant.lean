/-
  `Watchdog.QueueInvariant`: what holds of the queue in every reachable state.

  The invariant has three parts: what the memory satisfies (`Valid`), what a
  retirement knows as long as its snapshot of the tail is current
  (`Retire.Fits`), and what the issuing thread knows (`Pc.Fits`).  A retirement
  relies on the other threads only through `Grows`, the issuing thread only
  through `Quiet`.
-/
import Mathlib.Data.List.Nodup
import Mathlib.Data.List.Range
import TorchMojoBackend.Watchdog.Queue

set_option autoImplicit false

namespace TorchMojoBackend.Watchdog.Queue

open TorchMojoBackend.Foundation

variable {Thread : Type} [DecidableEq Thread]

/-! ## The memory -/

/-- The queue's representation invariant. -/
structure Valid (m : Tracker) : Prop where
  tail_le_completed : m.tail ≤ m.completed
  tail_le_head : m.tail ≤ m.head
  log_length : m.log.length = m.head
  segLo_le_tail : m.segLo * SEG ≤ m.tail
  /-- The index segments in use fit the table. -/
  span : m.head / SEG < m.segLo + NSEG
  mapped : ∀ j, m.segLo ≤ j → j * SEG < m.head → m.segs (j % NSEG) ≠ 0
  unmapped : ∀ k, k < NSEG → m.segs k ≠ 0 →
    ∃ j, m.segLo ≤ j ∧ j ≤ m.head / SEG ∧ j % NSEG = k
  nextSeg_pos : 0 < m.nextSeg
  segs_lt : ∀ k, k < NSEG → m.segs k < m.nextSeg
  segs_inj : ∀ k l, k < NSEG → l < NSEG → m.segs k = m.segs l → m.segs k ≠ 0 → k = l
  segs_not_pool : ∀ k, k < NSEG → m.segs k ∉ m.pool
  pool_nodup : m.pool.Nodup
  pool_ne_zero : ∀ seg ∈ m.pool, seg ≠ 0
  pool_lt : ∀ seg ∈ m.pool, seg < m.nextSeg
  nextEvent_pos : 0 < m.nextEvent
  event_lt : ∀ s o, m.slots s o .event < m.nextEvent
  event_inj : ∀ s o s' o', m.slots s o .event = m.slots s' o' .event →
    m.slots s o .event ≠ 0 → s = s' ∧ o = o'
  /-- Each index in flight reads back what was committed for it, and its event was
  recorded for it last. -/
  slot_eq : ∀ i, m.tail ≤ i → i < m.head → m.log[i]? = some (m.slot i)
  event_ne_zero : ∀ i, m.tail ≤ i → i < m.head → m.slot i .event ≠ 0
  recordedAt : ∀ i, m.tail ≤ i → i < m.head → m.recordedAt (m.slot i .event) = some i
  recorded_of_unlocked : m.locked = false → m.recorded = m.head
  /-- The retired intervals cover exactly the indices below the tail, once. -/
  retired : ∀ i, m.retirements.countP (fun r => decide (r.1 ≤ i ∧ i < r.2)) =
    if i < m.tail then 1 else 0

theorem valid_boot : Valid Tracker.boot := by
  constructor <;> simp [Tracker.boot, NSEG, SEG]

/-- Index segments less than a table apart have different table entries. -/
theorem mod_ne_of_lt {j k : Nat} (hlt : j < k) (hspan : k < j + NSEG) :
    j % NSEG ≠ k % NSEG := by
  unfold NSEG at *
  omega

namespace Valid

variable {m : Tracker}

theorem segLo_le_div (h : Valid m) {i : Nat} (hi : m.tail ≤ i) : m.segLo ≤ i / SEG := by
  have hlo := h.segLo_le_tail
  unfold SEG at *
  omega

theorem segLo_le_head (h : Valid m) : m.segLo ≤ m.head / SEG := h.segLo_le_div h.tail_le_head

/-- The segment of an index in flight is mapped. -/
theorem segOf_ne_zero (h : Valid m) {i : Nat} (hi : m.tail ≤ i) (hlt : i < m.head) :
    m.segOf i ≠ 0 := by
  refine h.mapped (i / SEG) (h.segLo_le_div hi) ?_
  have := Nat.div_mul_le_self i SEG
  omega

/-- Table entries of two index segments in use coincide only for one segment. -/
theorem div_eq_of_mod_eq (h : Valid m) {j k : Nat} (hj : m.segLo ≤ j) (hj' : j ≤ m.head / SEG)
    (hk : m.segLo ≤ k) (hk' : k ≤ m.head / SEG) (hmod : j % NSEG = k % NSEG) : j = k := by
  have hspan := h.span
  rcases Nat.lt_trichotomy j k with hlt | heq | hgt
  · exact absurd hmod (mod_ne_of_lt hlt (by omega))
  · exact heq
  · exact absurd hmod.symm (mod_ne_of_lt hgt (by omega))

/-- An index in flight and the head do not share a slot. -/
theorem slot_apart (h : Valid m) {i : Nat} (hi : m.tail ≤ i) (hlt : i < m.head)
    (hseg : m.segOf i = m.segOf m.head) (hoff : i % SEG = m.head % SEG) : False := by
  have hmod : i / SEG % NSEG = m.head / SEG % NSEG :=
    h.segs_inj _ _ (Nat.mod_lt _ (by decide)) (Nat.mod_lt _ (by decide)) hseg
      (h.segOf_ne_zero hi hlt)
  have hle : i / SEG ≤ m.head / SEG := Nat.div_le_div_right hlt.le
  have hdiv : i / SEG = m.head / SEG :=
    h.div_eq_of_mod_eq (h.segLo_le_div hi) hle h.segLo_le_head (Nat.le_refl _) hmod
  have h1 := Nat.div_add_mod i SEG
  have h2 := Nat.div_add_mod m.head SEG
  rw [hdiv, hoff] at h1
  omega

end Valid

/-! ## What the threads rely on -/

/-- What every step keeps: the cursors grow, and an index still in flight keeps
its segment, its slot and the last record of its event. -/
structure Grows (m m' : Tracker) : Prop where
  tail : m.tail ≤ m'.tail
  head : m.head ≤ m'.head
  completed : m.completed ≤ m'.completed
  segOf : ∀ i, m'.tail ≤ i → i < m.head → m'.segOf i = m.segOf i
  slot : ∀ i, m'.tail ≤ i → i < m.head → m'.slot i = m.slot i
  recordedAt : ∀ i, m'.tail ≤ i → i < m.head →
    m'.recordedAt (m.slot i .event) = m.recordedAt (m.slot i .event)

/-- What a step outside the issuing thread keeps: all the issuer owns. -/
structure Quiet (m m' : Tracker) : Prop where
  tail : m.tail ≤ m'.tail
  head : m'.head = m.head
  segs : m'.segs = m.segs
  segLo : m'.segLo = m.segLo
  slots : m'.slots = m.slots
  recordedAt : m'.recordedAt = m.recordedAt
  recorded : m'.recorded = m.recorded

theorem Quiet.segOf {m m' : Tracker} (h : Quiet m m') (i : Nat) :
    m'.segOf i = m.segOf i := by
  unfold Tracker.segOf
  rw [h.segs]

theorem Quiet.slot {m m' : Tracker} (h : Quiet m m') (i : Nat) : m'.slot i = m.slot i := by
  unfold Tracker.slot
  rw [h.segOf, h.slots]

theorem Quiet.grows {m m' : Tracker} (h : Quiet m m') (hc : m.completed ≤ m'.completed) :
    Grows m m' where
  tail := h.tail
  head := Nat.le_of_eq h.head.symm
  completed := hc
  segOf i _ _ := h.segOf i
  slot i _ _ := h.slot i
  recordedAt i _ _ := by rw [h.recordedAt]

/-! ## What a retirement knows -/

/-- The tail has not moved since the attempt took its snapshot. -/
def Attempt.Current (a : Attempt) (m : Tracker) : Prop := m.tail = a.tail

/-- An attempt's snapshot is one of a past queue, and its queries were of the
events of indices in flight as long as the tail has not moved. -/
structure Attempt.Fits (a : Attempt) (m : Tracker) : Prop where
  tail_le : a.tail ≤ m.tail
  head_le : a.head ≤ m.head
  nonempty : a.tail < a.head
  asked : a.Current m → ∀ q ∈ a.asked, a.tail ≤ q.1 ∧ q.1 < a.head ∧
    m.slot q.1 .event = q.2.1 ∧ m.recordedAt q.2.1 = some q.1

/-- `stop` is a boundary the attempt may retire to: within the snapshot, below
what the device has passed, and right above an entry reported complete. -/
structure Attempt.Reaches (a : Attempt) (m : Tracker) (stop : Nat) : Prop where
  ge : a.tail ≤ stop
  le : stop ≤ a.head
  completed : a.Current m → stop ≤ m.completed
  reported : a.tail < stop → ∃ event, (stop - 1, event, 0) ∈ a.asked

/-- The probe is inside the part of the snapshot still in doubt. -/
structure Probe.Fits (a : Attempt) (p : Probe) (m : Tracker) : Prop where
  found : a.Reaches m (p.found a.tail)
  found_le : p.found a.tail ≤ p.index a.head
  index_lt : p.index a.head < a.head
  hi_lt : ∀ lo hi, p = .mid lo hi → hi < a.head

/-- What a retirement knows at each location. -/
def Retire.Fits (m : Tracker) : Retire → Prop
  | .drainFault | .drainAsync | .loadTail _ | .storeDone _ => True
  | .loadHead _ tail => tail ≤ m.tail
  | .askSeg a p => a.Fits m ∧ p.Fits a m
  | .askEvent a p seg =>
      a.Fits m ∧ p.Fits a m ∧ (a.Current m → seg = m.segOf (p.index a.head))
  | .askQuery a p event =>
      a.Fits m ∧ p.Fits a m ∧ (a.Current m → event = m.slot (p.index a.head) .event)
  | .decided a stop _ => a.Fits m ∧ a.Reaches m stop
  | .seqSeg a stop => a.Fits m ∧ a.Reaches m stop ∧ a.tail < stop
  | .seqLoad a stop seg =>
      a.Fits m ∧ a.Reaches m stop ∧ a.tail < stop ∧
        (a.Current m → seg = m.segOf (stop - 1))
  | .cas a stop seq =>
      a.Fits m ∧ a.Reaches m stop ∧ a.tail < stop ∧
        (a.Current m → seq = m.slot (stop - 1) .seq)

section Stable

variable {m m' : Tracker} {a : Attempt}

/-- A snapshot still current was current before. -/
theorem Attempt.Current.of_grows (hg : Grows m m') (hle : a.tail ≤ m.tail)
    (hc : a.Current m') : a.Current m := by
  unfold Attempt.Current at *
  have := hg.tail
  omega

theorem Attempt.Fits.of_grows (ha : a.Fits m) (hg : Grows m m') : a.Fits m' := by
  refine ⟨ha.tail_le.trans hg.tail, ha.head_le.trans hg.head, ha.nonempty, ?_⟩
  intro hc q hq
  have hc' : m'.tail = a.tail := hc
  obtain ⟨hge, hlt, hevent, hrec⟩ := ha.asked (hc.of_grows hg ha.tail_le) q hq
  have hin : m'.tail ≤ q.1 := by omega
  have hhead : q.1 < m.head := hlt.trans_le ha.head_le
  refine ⟨hge, hlt, ?_, ?_⟩
  · rw [hg.slot q.1 hin hhead]
    exact hevent
  · rw [← hevent, hg.recordedAt q.1 hin hhead, hevent]
    exact hrec

theorem Attempt.Reaches.of_grows {stop : Nat} (hr : a.Reaches m stop) (ha : a.Fits m)
    (hg : Grows m m') : a.Reaches m' stop :=
  ⟨hr.ge, hr.le,
    fun hc => (hr.completed (hc.of_grows hg ha.tail_le)).trans hg.completed, hr.reported⟩

theorem Probe.Fits.of_grows {p : Probe} (hp : p.Fits a m) (ha : a.Fits m)
    (hg : Grows m m') : p.Fits a m' :=
  ⟨hp.found.of_grows ha hg, hp.found_le, hp.index_lt, hp.hi_lt⟩

/-- What a retirement knows survives the steps of the other threads. -/
theorem Retire.Fits.of_grows {r : Retire} (hr : r.Fits m) (hg : Grows m m') :
    r.Fits m' := by
  cases r with
  | drainFault | drainAsync | loadTail | storeDone => trivial
  | loadHead kind tail => exact Nat.le_trans hr hg.tail
  | askSeg a p => exact ⟨hr.1.of_grows hg, hr.2.of_grows hr.1 hg⟩
  | askEvent a p seg =>
      obtain ⟨ha, hp, hseg⟩ := hr
      refine ⟨ha.of_grows hg, hp.of_grows ha hg, ?_⟩
      intro hc
      have hc' : m'.tail = a.tail := hc
      rw [hg.segOf _ (by rw [hc']; exact hp.found.ge.trans hp.found_le)
        (hp.index_lt.trans_le ha.head_le)]
      exact hseg (hc.of_grows hg ha.tail_le)
  | askQuery a p event =>
      obtain ⟨ha, hp, hevent⟩ := hr
      refine ⟨ha.of_grows hg, hp.of_grows ha hg, ?_⟩
      intro hc
      have hc' : m'.tail = a.tail := hc
      rw [hg.slot _ (by rw [hc']; exact hp.found.ge.trans hp.found_le)
        (hp.index_lt.trans_le ha.head_le)]
      exact hevent (hc.of_grows hg ha.tail_le)
  | decided a stop rc => exact ⟨hr.1.of_grows hg, hr.2.of_grows hr.1 hg⟩
  | seqSeg a stop => exact ⟨hr.1.of_grows hg, hr.2.1.of_grows hr.1 hg, hr.2.2⟩
  | seqLoad a stop seg =>
      obtain ⟨ha, hreach, hlt, hseg⟩ := hr
      refine ⟨ha.of_grows hg, hreach.of_grows ha hg, hlt, ?_⟩
      intro hc
      have hc' : m'.tail = a.tail := hc
      have hle := hreach.le
      have hhead := ha.head_le
      rw [hg.segOf _ (by omega) (by omega)]
      exact hseg (hc.of_grows hg ha.tail_le)
  | cas a stop seq =>
      obtain ⟨ha, hreach, hlt, hseq⟩ := hr
      refine ⟨ha.of_grows hg, hreach.of_grows ha hg, hlt, ?_⟩
      intro hc
      have hc' : m'.tail = a.tail := hc
      have hle := hreach.le
      have hhead := ha.head_le
      rw [hg.slot _ (by omega) (by omega)]
      exact hseq (hc.of_grows hg ha.tail_le)

end Stable

/-! ## The steps of a retirement -/

section Retirement

variable {m : Tracker} {a : Attempt}

theorem Attempt.search_fits (ha : a.Fits m) {lo hi : Nat} (hlo : a.Reaches m lo)
    (hhi : hi < a.head) : (a.search lo hi).Fits m := by
  unfold Attempt.search
  by_cases hlt : lo < hi
  · rw [if_pos hlt]
    refine ⟨ha, hlo, ?_, ?_, ?_⟩
    · simp only [Probe.found, Probe.index]
      omega
    · simp only [Probe.index]
      omega
    · rintro lo' hi' ⟨rfl, rfl⟩
      exact hhi
  · rw [if_neg hlt]
    exact ⟨ha, hlo⟩

/-- The entries below the newest one reported complete are complete: the device
passes the records of one stream in order. -/
theorem Attempt.answer_fits (hm : Valid m) {p : Probe} {event rc : Int} (ha : a.Fits m)
    (hp : p.Fits a m) (hevent : a.Current m → event = m.slot (p.index a.head) .event)
    (hrc : rc = 0 → m.complete event) :
    (({ a with asked := (p.index a.head, event, rc) :: a.asked } : Attempt).answer p
      rc).Fits m := by
  have hge : a.tail ≤ p.index a.head := hp.found.ge.trans hp.found_le
  have hhead : p.index a.head < m.head := hp.index_lt.trans_le ha.head_le
  -- the event asked for was recorded last for the index asked about
  have hrec : a.Current m → m.recordedAt event = some (p.index a.head) := by
    intro hc
    have hc' : m.tail = a.tail := hc
    rw [hevent hc]
    exact hm.recordedAt _ (by omega) hhead
  have hfits : Attempt.Fits { a with asked := (p.index a.head, event, rc) :: a.asked } m := by
    refine ⟨ha.tail_le, ha.head_le, ha.nonempty, ?_⟩
    intro hc q hq
    rcases List.mem_cons.mp hq with rfl | hq
    · exact ⟨hge, hp.index_lt, (hevent hc).symm, hrec hc⟩
    · exact ha.asked hc q hq
  have hkeep : ∀ stop, a.Reaches m stop → Attempt.Reaches
      { a with asked := (p.index a.head, event, rc) :: a.asked } m stop := by
    intro stop hr
    refine ⟨hr.ge, hr.le, hr.completed, ?_⟩
    intro hlt
    obtain ⟨ev, hev⟩ := hr.reported hlt
    exact ⟨ev, List.mem_cons_of_mem _ hev⟩
  unfold Attempt.answer
  by_cases hzero : rc = 0
  · have hdone : a.Current m → p.index a.head + 1 ≤ m.completed :=
      fun hc => hrc hzero _ (hrec hc)
    have hreach : Attempt.Reaches
        { a with asked := (p.index a.head, event, rc) :: a.asked } m (p.index a.head + 1) :=
      ⟨by simp only; omega, hp.index_lt, hdone, fun _ => ⟨event, by simp [hzero]⟩⟩
    rw [if_pos hzero]
    cases p with
    | newest =>
        have hpos : a.head - 1 + 1 = a.head := by
          have := ha.nonempty
          omega
        have hreach' := hreach
        simp only [Probe.index, hpos] at hreach'
        exact ⟨hfits, hreach'⟩
    | mid lo hi =>
        exact Attempt.search_fits hfits hreach (hp.hi_lt lo hi rfl)
  · rw [if_neg hzero]
    by_cases hnot : rc = notReady
    · rw [if_pos hnot]
      cases p with
      | newest =>
          have hne := ha.nonempty
          exact Attempt.search_fits hfits (hkeep _ hp.found) (by simp only; omega)
      | mid lo hi =>
          exact Attempt.search_fits hfits (hkeep _ hp.found) hp.index_lt
    · rw [if_neg hnot]
      exact ⟨hfits, hkeep _ hp.found⟩

/-- What one step of a retirement does to the queue and leaves known. -/
structure RetireSpec (m : Tracker) (o : Option Retire) (m' : Tracker) : Prop where
  valid : Valid m'
  quiet : Quiet m m'
  completed : m.completed ≤ m'.completed
  locked : m'.locked = m.locked
  fits : ∀ r', o = some r' → r'.Fits m'

theorem Quiet.refl (m : Tracker) : Quiet m m :=
  ⟨Nat.le_refl _, rfl, rfl, rfl, rfl, rfl, rfl⟩

/-- A step that only reads the queue. -/
theorem RetireSpec.of_read (hm : Valid m) {o : Option Retire}
    (h : ∀ r', o = some r' → r'.Fits m) : RetireSpec m o m :=
  ⟨hm, .refl m, Nat.le_refl _, rfl, h⟩

/-- Moving the tail to a boundary the device has passed. -/
theorem Valid.retire (hm : Valid m) {stop : Nat} (ha : a.Fits m) (hr : a.Reaches m stop)
    (hc : a.Current m) :
    Valid { m with tail := stop, retirements := m.retirements ++ [(a.tail, stop)] } := by
  have hc' : m.tail = a.tail := hc
  have hstop := hr.completed hc
  have hge := hr.ge
  have hle := hr.le
  have hhead := ha.head_le
  refine { hm with
    tail_le_completed := hstop
    tail_le_head := by simp only; omega
    segLo_le_tail := hm.segLo_le_tail.trans (by simp only; omega)
    slot_eq := fun i hi hlt => hm.slot_eq i (by simp only at hi; omega) hlt
    event_ne_zero := fun i hi hlt => hm.event_ne_zero i (by simp only at hi; omega) hlt
    recordedAt := fun i hi hlt => hm.recordedAt i (by simp only at hi; omega) hlt
    retired := ?_ }
  intro i
  simp only [List.countP_append, hm.retired i, List.countP_singleton, decide_eq_true_eq]
  split <;> split <;> split <;> omega

theorem retireStep_spec (hm : Valid m) {r : Retire} (hr : r.Fits m) :
    RetireSpec m (retireStep r m).1 (retireStep r m).2 := by
  cases r with
  | drainFault =>
      refine .of_read hm ?_
      intro r' h
      simp only [retireStep] at h
      split at h <;> cases h
      trivial
  | drainAsync =>
      refine .of_read hm ?_
      intro r' h
      simp only [retireStep] at h
      split at h <;> cases h
      trivial
  | loadTail kind =>
      refine .of_read hm ?_
      rintro r' ⟨rfl⟩
      exact Nat.le_refl _
  | loadHead kind tail =>
      refine .of_read hm ?_
      intro r' h
      have htail : tail ≤ m.tail := hr
      have hle := hm.tail_le_head
      simp only [retireStep] at h
      split at h <;> cases h
      have hlt : tail < m.head := by omega
      refine ⟨⟨htail, Nat.le_refl _, hlt, by simp⟩, ⟨?_, ?_, ?_, ?_⟩⟩
      · refine ⟨Nat.le_refl _, hlt.le, ?_, ?_⟩
        · intro hc
          have hc' : m.tail = tail := hc
          rw [Probe.found, ← hc']
          exact hm.tail_le_completed
        · intro h
          exact absurd h (Nat.lt_irrefl _)
      · simp only [Probe.found, Probe.index]
        omega
      · simp only [Probe.index]
        omega
      · rintro lo hi ⟨⟩
  | askSeg a p =>
      refine .of_read hm ?_
      rintro r' ⟨rfl⟩
      exact ⟨hr.1, hr.2, fun _ => rfl⟩
  | askEvent a p seg =>
      refine .of_read hm ?_
      intro r' h
      obtain ⟨ha, hp, hseg⟩ := hr
      simp only [retireStep] at h
      split at h <;> cases h
      · exact ⟨ha, hp.found⟩
      · refine ⟨ha, hp, ?_⟩
        intro hc
        rw [hseg hc]
        rfl
  | askQuery a p event =>
      refine .of_read hm ?_
      rintro r' ⟨rfl⟩
      exact hr
  | decided a stop rc =>
      refine .of_read hm ?_
      intro r' h
      simp only [retireStep] at h
      split at h <;> cases h
      rename_i hnot
      exact ⟨hr.1, hr.2, Nat.lt_of_not_le fun hle => hnot (.inr (.inr hle))⟩
  | seqSeg a stop =>
      refine .of_read hm ?_
      rintro r' ⟨rfl⟩
      exact ⟨hr.1, hr.2.1, hr.2.2, fun _ => rfl⟩
  | seqLoad a stop seg =>
      refine .of_read hm ?_
      rintro r' ⟨rfl⟩
      obtain ⟨ha, hreach, hlt, hseg⟩ := hr
      refine ⟨ha, hreach, hlt, ?_⟩
      intro hc
      rw [hseg hc]
      rfl
  | cas a stop seq =>
      obtain ⟨ha, hreach, hlt, hseq⟩ := hr
      by_cases hc : m.tail = a.tail
      · simp only [retireStep, if_pos hc]
        refine ⟨hm.retire ha hreach hc, ⟨?_, rfl, rfl, rfl, rfl, rfl, rfl⟩, Nat.le_refl _,
          rfl, ?_⟩
        · simp only
          omega
        · rintro r' ⟨rfl⟩
          trivial
      · simp only [retireStep, if_neg hc]
        exact .of_read hm (by intro r' h; cases h)
  | storeDone seq =>
      exact ⟨{ hm with }, ⟨Nat.le_refl _, rfl, rfl, rfl, rfl, rfl, rfl⟩, Nat.le_refl _, rfl,
        by intro r' h; cases h⟩

end Retirement

/-! ## What the issuing thread knows -/

/-- The head's segment can be mapped, with one entry of the table left over. -/
def Room (m : Tracker) : Prop := m.head / SEG + 1 < m.segLo + NSEG

/-- The commit is for the head, and its event is not recorded yet. -/
structure Commit.Fits (c : Commit) (m : Tracker) : Prop where
  head : c.head = m.head
  recorded : m.recorded = m.head

/-- What is known at the call of `_unmap_retired` and during the retirement before
it. -/
def Unmap.Fits (m : Tracker) (c : Commit) : Unmap → Prop
  | .recheck => c.Fits m
  | .take => c.Fits m ∧ Room m ∧ m.segOf m.head = 0

/-- The head's slot is mapped to the segment. -/
structure Opened (m : Tracker) (seg : Nat) : Prop where
  room : Room m
  segOf : m.segOf m.head = seg
  ne_zero : seg ≠ 0

/-- The event of the head's slot is recorded, and no head is published for it. -/
structure Stamped (c : Commit) (m : Tracker) (seg : Nat) (event : Int) : Prop where
  head_eq : c.head = m.head
  opened : Opened m seg
  slot_event : m.slot m.head .event = event
  event_ne_zero : event ≠ 0
  recordedAt_eq : m.recordedAt event = some m.head
  recorded_eq : m.recorded = m.head + 1

/-- The slot after the remaining stores. -/
def applyStores (stores : List (Word × Int)) (slot : Slot) : Slot :=
  stores.foldl (fun s x => Function.update s x.1 x.2) slot

/-- What a retirement inside a commit returns to. -/
def Back.Fits (m : Tracker) : Back → Prop
  | .idle => True
  | .unmap c u => u.Fits m c

/-- What the thread knows at each location. -/
def Pc.Fits (m : Tracker) : Pc → Prop
  | .idle => True
  | .retire r back => r.Fits m ∧ back.Fits m
  | .commitFault _ _ | .commitClaimed _ _ | .commitSeq _ _ | .commitHead _ _ _
  | .storeFault _ | .leave => m.recorded = m.head
  | .commitFull c | .recheckFull c => c.Fits m
  | .unmapTail c u => u.Fits m c
  | .unmapLoop c u tail => u.Fits m c ∧ tail ≤ m.tail
  | .mapLook c => c.Fits m ∧ Room m
  | .mapTail c | .mapTake c => Unmap.take.Fits m c
  | .slotSeg c => c.Fits m ∧ Opened m (m.segOf m.head)
  | .slotEvent c seg => c.Fits m ∧ Opened m seg
  | .createEvent c seg => c.Fits m ∧ Opened m seg ∧ m.slot m.head .event = 0
  | .record c seg event =>
      c.Fits m ∧ Opened m seg ∧ m.slot m.head .event = event ∧ event ≠ 0
  | .loadVer c seg event => Stamped c m seg event
  | .storing c t stores =>
      Stamped c m t.seg t.event ∧ (∀ x ∈ stores, x.1 ≠ .event) ∧
        applyStores stores (m.slot m.head) = c.record t
  | .publish c t => Stamped c m t.seg t.event ∧ m.slot m.head = c.record t

/-- The thread holds the backend mutex for a commit. -/
def Pc.issuing : Pc → Bool
  | .idle | .retire _ .idle => false
  | _ => true

theorem Quiet.room {m m' : Tracker} (h : Quiet m m') (hr : Room m) : Room m' := by
  unfold Room at *
  rw [h.head, h.segLo]
  exact hr

theorem Commit.Fits.of_quiet {c : Commit} {m m' : Tracker} (hc : c.Fits m)
    (h : Quiet m m') : c.Fits m' :=
  ⟨hc.head.trans h.head.symm, by rw [h.recorded, h.head]; exact hc.recorded⟩

theorem Unmap.Fits.of_quiet {u : Unmap} {c : Commit} {m m' : Tracker} (hu : u.Fits m c)
    (h : Quiet m m') : u.Fits m' c := by
  cases u with
  | recheck => exact Commit.Fits.of_quiet hu h
  | take =>
      obtain ⟨hc, hr, hz⟩ := hu
      refine ⟨hc.of_quiet h, h.room hr, ?_⟩
      rw [h.segOf, h.head]
      exact hz

theorem Opened.of_quiet {seg : Nat} {m m' : Tracker} (ho : Opened m seg)
    (h : Quiet m m') : Opened m' seg :=
  ⟨h.room ho.room, by rw [h.segOf, h.head]; exact ho.segOf, ho.ne_zero⟩

theorem Stamped.of_quiet {c : Commit} {seg : Nat} {event : Int} {m m' : Tracker}
    (hs : Stamped c m seg event) (h : Quiet m m') : Stamped c m' seg event where
  head_eq := hs.head_eq.trans h.head.symm
  opened := hs.opened.of_quiet h
  slot_event := by rw [h.slot, h.head]; exact hs.slot_event
  event_ne_zero := hs.event_ne_zero
  recordedAt_eq := by rw [h.recordedAt, h.head]; exact hs.recordedAt_eq
  recorded_eq := by rw [h.recorded, h.head]; exact hs.recorded_eq

/-- What the issuing thread knows survives the steps of the other threads. -/
theorem Pc.Fits.of_quiet {p : Pc} {m m' : Tracker} (hp : p.Fits m) (h : Quiet m m')
    (hg : Grows m m') : p.Fits m' := by
  cases p with
  | idle => trivial
  | retire r back =>
      refine ⟨hp.1.of_grows hg, ?_⟩
      cases back with
      | idle => trivial
      | unmap c u => exact Unmap.Fits.of_quiet hp.2 h
  | commitFault | commitClaimed | commitSeq | commitHead | storeFault | leave =>
      have hrec : m.recorded = m.head := hp
      exact (h.recorded.trans hrec).trans h.head.symm
  | commitFull c | recheckFull c => exact Commit.Fits.of_quiet hp h
  | unmapTail c u => exact Unmap.Fits.of_quiet hp h
  | unmapLoop c u tail => exact ⟨hp.1.of_quiet h, hp.2.trans h.tail⟩
  | mapLook c => exact ⟨hp.1.of_quiet h, h.room hp.2⟩
  | mapTail c | mapTake c => exact Unmap.Fits.of_quiet (u := .take) hp h
  | slotSeg c =>
      refine ⟨hp.1.of_quiet h, ?_⟩
      rw [h.segOf, h.head]
      exact hp.2.of_quiet h
  | slotEvent c seg => exact ⟨hp.1.of_quiet h, hp.2.of_quiet h⟩
  | createEvent c seg =>
      refine ⟨hp.1.of_quiet h, hp.2.1.of_quiet h, ?_⟩
      rw [h.slot, h.head]
      exact hp.2.2
  | record c seg event =>
      refine ⟨hp.1.of_quiet h, hp.2.1.of_quiet h, ?_, hp.2.2.2⟩
      rw [h.slot, h.head]
      exact hp.2.2.1
  | loadVer c seg event => exact Stamped.of_quiet hp h
  | storing c t stores =>
      refine ⟨hp.1.of_quiet h, hp.2.1, ?_⟩
      rw [h.slot, h.head]
      exact hp.2.2
  | publish c t =>
      refine ⟨hp.1.of_quiet h, ?_⟩
      rw [h.slot, h.head]
      exact hp.2

/-! ## The steps of a commit -/

section Commit

variable {m : Tracker} {c : Commit}

/-- The segment below the tail is out of the way of every index in flight. -/
theorem segOf_unmap (hm : Valid m) (hlo : (m.segLo + 1) * SEG ≤ m.tail) {i : Nat}
    (hi : m.tail ≤ i) (hle : i ≤ m.head) :
    i / SEG % NSEG ≠ m.segLo % NSEG := by
  have hspan := hm.span
  have hdiv : i / SEG ≤ m.head / SEG := Nat.div_le_div_right hle
  have hlt : m.segLo < i / SEG := by
    unfold SEG at *
    omega
  exact (mod_ne_of_lt hlt (by omega)).symm

/-- Changing the table and the pool, not the slots in flight, keeps what the queue
reads back. -/
theorem Valid.of_table (hm : Valid m) (m' : Tracker) (htail : m'.tail = m.tail)
    (hhead : m'.head = m.head) (hlog : m'.log = m.log)
    (hrec : m'.recordedAt = m.recordedAt)
    (hslot : ∀ i, m.tail ≤ i → i < m.head → m'.slot i = m.slot i) :
    (∀ i, m'.tail ≤ i → i < m'.head → m'.log[i]? = some (m'.slot i)) ∧
    (∀ i, m'.tail ≤ i → i < m'.head → m'.slot i .event ≠ 0) ∧
    (∀ i, m'.tail ≤ i → i < m'.head → m'.recordedAt (m'.slot i .event) = some i) := by
  rw [htail, hhead, hlog, hrec]
  refine ⟨?_, ?_, ?_⟩ <;> intro i hi hlt <;> rw [hslot i hi hlt]
  · exact hm.slot_eq i hi hlt
  · exact hm.event_ne_zero i hi hlt
  · exact hm.recordedAt i hi hlt

/-- One turn of `_unmap_retired`. -/
def Tracker.unmapLow (m : Tracker) : Tracker :=
  { m with
    segs := Function.update m.segs (m.segLo % NSEG) 0
    pool := if m.segs (m.segLo % NSEG) = 0 then m.pool
      else m.segs (m.segLo % NSEG) :: m.pool
    segLo := m.segLo + 1 }

theorem slot_unmapLow (hm : Valid m) (hlo : (m.segLo + 1) * SEG ≤ m.tail) {i : Nat}
    (hi : m.tail ≤ i) (hle : i ≤ m.head) :
    m.unmapLow.segOf i = m.segOf i ∧ m.unmapLow.slot i = m.slot i := by
  have hseg : m.unmapLow.segOf i = m.segOf i :=
    Function.update_of_ne (segOf_unmap hm hlo hi hle) _ _
  refine ⟨hseg, ?_⟩
  unfold Tracker.slot
  rw [hseg]
  rfl

theorem valid_unmapLow (hm : Valid m) (hlo : (m.segLo + 1) * SEG ≤ m.tail) :
    Valid m.unmapLow := by
  have hspan := hm.span
  have hmodlt : m.segLo % NSEG < NSEG := Nat.mod_lt _ (by decide)
  obtain ⟨hslot, hevent, hrec⟩ := hm.of_table m.unmapLow rfl rfl rfl rfl
    (fun i hi hlt => (slot_unmapLow hm hlo hi hlt.le).2)
  refine { hm with
    segLo_le_tail := hlo
    span := by simp only [Tracker.unmapLow]; omega
    mapped := ?_
    unmapped := ?_
    segs_lt := ?_
    segs_inj := ?_
    segs_not_pool := ?_
    pool_nodup := ?_
    pool_ne_zero := ?_
    pool_lt := ?_
    slot_eq := hslot
    event_ne_zero := hevent
    recordedAt := hrec }
  · intro j hj hlt
    have hj' : m.segLo < j := hj
    have hdiv : j ≤ m.head / SEG := by
      simp only [Tracker.unmapLow] at hlt
      unfold SEG at *
      omega
    have hne : j % NSEG ≠ m.segLo % NSEG := (mod_ne_of_lt hj' (by omega)).symm
    simp only [Tracker.unmapLow, Function.update_of_ne hne]
    exact hm.mapped j hj'.le hlt
  · intro k hk hne
    by_cases hkl : k = m.segLo % NSEG
    · simp [Tracker.unmapLow, hkl] at hne
    · simp only [Tracker.unmapLow, Function.update_of_ne hkl] at hne
      obtain ⟨j, hj, hj', hmod⟩ := hm.unmapped k hk hne
      refine ⟨j, ?_, hj', hmod⟩
      have hjne : j ≠ m.segLo := by
        rintro rfl
        exact hkl hmod.symm
      simp only [Tracker.unmapLow]
      omega
  · intro k hk
    simp only [Tracker.unmapLow, Function.update_apply]
    split
    · exact hm.nextSeg_pos
    · exact hm.segs_lt k hk
  · intro k l hk hl
    simp only [Tracker.unmapLow, Function.update_apply]
    split <;> split <;> intro heq hne
    · simp_all
    · exact absurd rfl hne
    · exact absurd heq hne
    · exact hm.segs_inj k l hk hl heq hne
  · intro k hk hmem
    have hpool := hm.segs_not_pool k hk
    have hzero : (0 : Nat) ∉ m.pool := fun h0 => hm.pool_ne_zero 0 h0 rfl
    have hinj := hm.segs_inj k _ hk hmodlt
    simp only [Tracker.unmapLow, Function.update_apply] at hmem
    split at hmem <;> split at hmem <;> simp_all
  · simp only [Tracker.unmapLow]
    split
    · exact hm.pool_nodup
    · exact List.nodup_cons.mpr ⟨hm.segs_not_pool _ hmodlt, hm.pool_nodup⟩
  · intro seg hseg
    simp only [Tracker.unmapLow] at hseg
    split at hseg
    · exact hm.pool_ne_zero seg hseg
    · rcases List.mem_cons.mp hseg with rfl | hseg
      · assumption
      · exact hm.pool_ne_zero seg hseg
  · intro seg hseg
    simp only [Tracker.unmapLow] at hseg
    split at hseg
    · exact hm.pool_lt seg hseg
    · rcases List.mem_cons.mp hseg with rfl | hseg
      · exact hm.segs_lt _ hmodlt
      · exact hm.pool_lt seg hseg

theorem grows_unmapLow (hm : Valid m) (hlo : (m.segLo + 1) * SEG ≤ m.tail) :
    Grows m m.unmapLow where
  tail := Nat.le_refl _
  head := Nat.le_refl _
  completed := Nat.le_refl _
  segOf _ hi hlt := (slot_unmapLow hm hlo hi hlt.le).1
  slot _ hi hlt := (slot_unmapLow hm hlo hi hlt.le).2
  recordedAt _ _ _ := rfl

/-- `_map_segment` gives the head's index segment the memory `seg`. -/
def Tracker.mapHead (m : Tracker) (seg : Nat) (pool : List Nat) (nextSeg : Nat) : Tracker :=
  { m with segs := Function.update m.segs (m.head / SEG % NSEG) seg, pool, nextSeg }

theorem slot_mapHead (hm : Valid m) (hzero : m.segOf m.head = 0) {seg nextSeg : Nat}
    {pool : List Nat} {i : Nat} (hi : m.tail ≤ i) (hlt : i < m.head) :
    (m.mapHead seg pool nextSeg).segOf i = m.segOf i ∧
      (m.mapHead seg pool nextSeg).slot i = m.slot i := by
  have hne : i / SEG % NSEG ≠ m.head / SEG % NSEG := by
    intro heq
    refine hm.segOf_ne_zero hi hlt ?_
    unfold Tracker.segOf at *
    rw [heq]
    exact hzero
  have hseg : (m.mapHead seg pool nextSeg).segOf i = m.segOf i :=
    Function.update_of_ne hne _ _
  refine ⟨hseg, ?_⟩
  unfold Tracker.slot
  rw [hseg]
  rfl

theorem grows_mapHead (hm : Valid m) (hzero : m.segOf m.head = 0) (seg nextSeg : Nat)
    (pool : List Nat) : Grows m (m.mapHead seg pool nextSeg) where
  tail := Nat.le_refl _
  head := Nat.le_refl _
  completed := Nat.le_refl _
  segOf _ hi hlt := (slot_mapHead hm hzero hi hlt).1
  slot _ hi hlt := (slot_mapHead hm hzero hi hlt).2
  recordedAt _ _ _ := rfl

/-- A segment that is neither mapped nor in the pool may be mapped. -/
theorem valid_mapHead (hm : Valid m) (hzero : m.segOf m.head = 0) {seg : Nat}
    (nextSeg : Nat) (pool : List Nat) (hne : seg ≠ 0) (hlt : seg < nextSeg)
    (hnext : m.nextSeg ≤ nextSeg)
    (hfresh : ∀ k, k < NSEG → m.segs k ≠ seg) (hsub : pool.Sublist m.pool)
    (hout : seg ∉ pool) : Valid (m.mapHead seg pool nextSeg) := by
  have hmodlt : m.head / SEG % NSEG < NSEG := Nat.mod_lt _ (by decide)
  obtain ⟨hslot, hevent, hrec⟩ := hm.of_table (m.mapHead seg pool nextSeg)
    rfl rfl rfl rfl (fun i hi hlt => (slot_mapHead hm hzero hi hlt).2)
  refine { hm with
    mapped := ?_
    unmapped := ?_
    nextSeg_pos := hm.nextSeg_pos.trans_le hnext
    segs_lt := ?_
    segs_inj := ?_
    segs_not_pool := ?_
    pool_nodup := hm.pool_nodup.sublist hsub
    pool_ne_zero := fun s hs => hm.pool_ne_zero s (hsub.subset hs)
    pool_lt := fun s hs => (hm.pool_lt s (hsub.subset hs)).trans_le hnext
    slot_eq := hslot
    event_ne_zero := hevent
    recordedAt := hrec }
  · intro j hj hlt
    simp only [Tracker.mapHead, Function.update_apply]
    split
    · exact hne
    · exact hm.mapped j hj hlt
  · intro k hk hk0
    by_cases hkh : k = m.head / SEG % NSEG
    · exact ⟨m.head / SEG, hm.segLo_le_head, Nat.le_refl _, hkh.symm⟩
    · simp only [Tracker.mapHead, Function.update_of_ne hkh] at hk0
      exact hm.unmapped k hk hk0
  · intro k hk
    simp only [Tracker.mapHead, Function.update_apply]
    split
    · exact hlt
    · exact (hm.segs_lt k hk).trans_le hnext
  · intro k l hk hl
    simp only [Tracker.mapHead, Function.update_apply]
    split <;> split <;> intro heq hk0
    · simp_all
    · exact absurd heq.symm (hfresh l hl)
    · exact absurd heq (hfresh k hk)
    · exact hm.segs_inj k l hk hl heq hk0
  · intro k hk hmem
    simp only [Tracker.mapHead, Function.update_apply] at hmem
    split at hmem
    · exact hout hmem
    · exact hm.segs_not_pool k hk (hsub.subset hmem)

/-- A store into the head's slot leaves the slots in flight alone. -/
theorem slot_store (hm : Valid m) (w : Word) (x : Int) {i : Nat} (hi : m.tail ≤ i)
    (hlt : i < m.head) :
    (m.store (m.segOf m.head) (m.head % SEG) w x).slot i = m.slot i := by
  unfold Tracker.slot Tracker.store
  have hnot : ¬ (m.segOf i = m.segOf m.head ∧ i % SEG = m.head % SEG) :=
    fun h => hm.slot_apart hi hlt h.1 h.2
  exact if_neg hnot

theorem slot_store_head (w : Word) (x : Int) :
    (m.store (m.segOf m.head) (m.head % SEG) w x).slot m.head =
      Function.update (m.slot m.head) w x := by
  exact if_pos ⟨rfl, rfl⟩

theorem grows_store (hm : Valid m) (w : Word) (x : Int) :
    Grows m (m.store (m.segOf m.head) (m.head % SEG) w x) where
  tail := Nat.le_refl _
  head := Nat.le_refl _
  completed := Nat.le_refl _
  segOf _ _ _ := rfl
  slot _ hi hlt := slot_store hm w x hi hlt
  recordedAt _ _ _ := rfl

theorem event_store (seg off : Nat) {w : Word} (x : Int) (hw : w ≠ .event) (s o : Nat) :
    (m.store seg off w x).slots s o .event = m.slots s o .event := by
  simp only [Tracker.store]
  split
  · exact Function.update_of_ne (Ne.symm hw) _ _
  · rfl

theorem valid_store (hm : Valid m) {w : Word} (x : Int) (hw : w ≠ .event) :
    Valid (m.store (m.segOf m.head) (m.head % SEG) w x) := by
  obtain ⟨hslot, hevent, hrec⟩ := hm.of_table
    (m.store (m.segOf m.head) (m.head % SEG) w x) rfl rfl rfl rfl
    (fun i hi hlt => slot_store hm w x hi hlt)
  refine { hm with
    event_lt := ?_
    event_inj := ?_
    slot_eq := hslot
    event_ne_zero := hevent
    recordedAt := hrec }
  · intro s o
    rw [event_store _ _ x hw]
    exact hm.event_lt s o
  · intro s o s' o'
    rw [event_store _ _ x hw, event_store _ _ x hw]
    exact hm.event_inj s o s' o'

/-- A new event for the head's slot. -/
theorem valid_createEvent (hm : Valid m) :
    Valid { m.store (m.segOf m.head) (m.head % SEG) .event m.nextEvent with
      nextEvent := m.nextEvent + 1 } := by
  obtain ⟨hslot, hevent, hrec⟩ := hm.of_table
    (m.store (m.segOf m.head) (m.head % SEG) .event m.nextEvent) rfl rfl rfl rfl
    (fun i hi hlt => slot_store hm .event m.nextEvent hi hlt)
  have hpos := hm.nextEvent_pos
  refine { hm with
    nextEvent_pos := by simp only; omega
    event_lt := ?_
    event_inj := ?_
    slot_eq := hslot
    event_ne_zero := hevent
    recordedAt := hrec }
  · intro s o
    have hlt := hm.event_lt s o
    simp only [Tracker.store]
    split
    · rw [Function.update_self]
      omega
    · omega
  · intro s o s' o'
    have hlt := hm.event_lt s o
    have hlt' := hm.event_lt s' o'
    simp only [Tracker.store]
    split <;> split <;> intro heq hne
    · rename_i hso hso'
      exact ⟨hso.1.trans hso'.1.symm, hso.2.trans hso'.2.symm⟩
    · rw [Function.update_self] at heq
      omega
    · rw [Function.update_self] at heq
      omega
    · exact hm.event_inj s o s' o' heq hne

/-- The event of the head's slot is no event of an index in flight. -/
theorem event_apart (hm : Valid m) {i : Nat} (hi : m.tail ≤ i) (hlt : i < m.head) :
    m.slot i .event ≠ m.slot m.head .event := by
  intro heq
  obtain ⟨hseg, hoff⟩ := hm.event_inj _ _ _ _ heq (hm.event_ne_zero i hi hlt)
  exact hm.slot_apart hi hlt hseg hoff

/-- The record of the head's event on the comm stream. -/
def Tracker.recordHead (m : Tracker) : Tracker :=
  { m with
    recordedAt := Function.update m.recordedAt (m.slot m.head .event) (some m.recorded)
    recorded := m.recorded + 1 }

theorem recordedAt_recordHead (hm : Valid m) {i : Nat} (hi : m.tail ≤ i)
    (hlt : i < m.head) :
    m.recordHead.recordedAt (m.slot i .event) = m.recordedAt (m.slot i .event) :=
  Function.update_of_ne (event_apart hm hi hlt) _ _

theorem valid_recordHead (hm : Valid m) (hlock : m.locked = true) : Valid m.recordHead :=
  { hm with
    recordedAt := fun i hi hlt =>
      (recordedAt_recordHead hm hi hlt).trans (hm.recordedAt i hi hlt)
    recorded_of_unlocked := fun h => by
      rw [show m.recordHead.locked = m.locked from rfl, hlock] at h
      cases h }

theorem grows_recordHead (hm : Valid m) : Grows m m.recordHead where
  tail := Nat.le_refl _
  head := Nat.le_refl _
  completed := Nat.le_refl _
  segOf _ _ _ := rfl
  slot _ _ _ := rfl
  recordedAt _ hi hlt := recordedAt_recordHead hm hi hlt

/-- The publication of the head. -/
theorem valid_publish (hm : Valid m) {t : Target} (hs : Stamped c m t.seg t.event)
    (hslot : m.slot m.head = c.record t) :
    Valid { m with head := m.head + 1, log := m.log ++ [c.record t] } := by
  have hlen := hm.log_length
  have hle := hm.tail_le_head
  have hroom : m.head / SEG + 1 < m.segLo + NSEG := hs.opened.room
  have hdiv : (m.head + 1) / SEG ≤ m.head / SEG + 1 := by
    unfold SEG
    omega
  -- an index below the new head is in flight already or is the old head
  have hcases : ∀ i, i < m.head + 1 → i < m.head ∨ i = m.head := by
    intro i hi
    omega
  refine { hm with
    tail_le_head := Nat.le_succ_of_le hle
    log_length := by simp [hlen]
    span := by simp only; omega
    mapped := ?_
    unmapped := ?_
    slot_eq := ?_
    event_ne_zero := ?_
    recordedAt := ?_
    recorded_of_unlocked := fun _ => hs.recorded_eq }
  · intro j hj hlt
    by_cases hj' : j * SEG < m.head
    · exact hm.mapped j hj hj'
    · have hjd : j = m.head / SEG := by
        simp only at hlt
        unfold SEG at *
        omega
      have hne := hs.opened.ne_zero
      rw [← hs.opened.segOf] at hne
      rw [hjd]
      exact hne
  · intro k hk hne
    obtain ⟨j, hj, hj', hmod⟩ := hm.unmapped k hk hne
    exact ⟨j, hj, hj'.trans (Nat.div_le_div_right (Nat.le_succ _)), hmod⟩
  · intro i hi hlt
    rcases hcases i hlt with hlt | rfl
    · exact (List.getElem?_append_left (by omega)).trans (hm.slot_eq i hi hlt)
    · refine (List.getElem?_append_right (by omega)).trans ?_
      rw [hlen, Nat.sub_self]
      exact congrArg some hslot.symm
  · intro i hi hlt
    rcases hcases i hlt with hlt | rfl
    · exact hm.event_ne_zero i hi hlt
    · have hne := hs.event_ne_zero
      rw [← hs.slot_event] at hne
      exact hne
  · intro i hi hlt
    rcases hcases i hlt with hlt | rfl
    · exact hm.recordedAt i hi hlt
    · have hrec := hs.recordedAt_eq
      rw [← hs.slot_event] at hrec
      exact hrec

end Commit

/-- The stores of a commit make the slot its record, over whatever was there. -/
theorem applyStores_stores {c : Commit} {t : Target} {slot : Slot}
    (hevent : slot .event = t.event) : applyStores (c.stores t) slot = c.record t := by
  funext w
  cases w <;> simp [applyStores, Commit.stores, Commit.record, hevent]

/-- What one step of a commit keeps, and what the issuing thread knows after it. -/
structure CommitSpec (m : Tracker) (p' : Pc) (m' : Tracker) : Prop where
  valid : Valid m'
  grows : Grows m m'
  fits : p'.Fits m'

theorem Grows.refl (m : Tracker) : Grows m m :=
  (Quiet.refl m).grows (Nat.le_refl _)

theorem CommitSpec.of_read {m : Tracker} (hm : Valid m) {p' : Pc} (h : p'.Fits m) :
    CommitSpec m p' m :=
  ⟨hm, .refl m, h⟩

section Steps

variable {m : Tracker}

theorem commitSpec_unmapLoop (hm : Valid m) {c : Commit} {u : Unmap} {tail : Nat}
    (hu : u.Fits m c) (htail : tail ≤ m.tail) {p' : Pc} {m' : Tracker}
    (h : commitStep (.unmapLoop c u tail) m = some (p', m')) : CommitSpec m p' m' := by
  simp only [commitStep] at h
  split at h
  · rename_i hturn
    cases h
    have hlo : (m.segLo + 1) * SEG ≤ m.tail := hturn.2.trans htail
    refine ⟨valid_unmapLow hm hlo, grows_unmapLow hm hlo, ?_, htail⟩
    cases u with
    | recheck => exact ⟨hu.head, hu.recorded⟩
    | take =>
        obtain ⟨hc, hroom, hzero⟩ := hu
        refine ⟨⟨hc.head, hc.recorded⟩, ?_, ?_⟩
        · have hroom' : m.head / SEG + 1 < m.segLo + NSEG := hroom
          show m.head / SEG + 1 < m.segLo + 1 + NSEG
          omega
        · exact (slot_unmapLow hm hlo hm.tail_le_head (Nat.le_refl _)).1.trans hzero
  · cases h
    refine .of_read hm ?_
    cases u with
    | recheck => exact hu
    | take => exact hu

theorem commitSpec_mapTake (hm : Valid m) {c : Commit} (hu : Unmap.take.Fits m c)
    {p' : Pc} {m' : Tracker} (h : commitStep (.mapTake c) m = some (p', m')) :
    CommitSpec m p' m' := by
  obtain ⟨hc, hroom, hzero⟩ := hu
  -- after the store the head's entry holds the segment
  have hopen : ∀ seg pool nextSeg, seg ≠ 0 →
      Pc.Fits (m.mapHead seg pool nextSeg) (.slotSeg c) := by
    intro seg pool nextSeg hne
    have hself : (m.mapHead seg pool nextSeg).segOf m.head = seg := Function.update_self _ _ _
    refine ⟨⟨hc.head, hc.recorded⟩, ⟨hroom, rfl, ?_⟩⟩
    exact fun h => hne (hself.symm.trans h)
  simp only [commitStep] at h
  split at h
  · rename_i seg pool hpool
    cases h
    have hmem : seg ∈ m.pool := by rw [hpool]; exact List.mem_cons_self
    have hnodup := hm.pool_nodup
    rw [hpool] at hnodup
    rw [hc.head]
    have hfresh : ∀ k, k < NSEG → m.segs k ≠ seg := by
      rintro k hk rfl
      exact hm.segs_not_pool k hk hmem
    refine ⟨valid_mapHead hm hzero m.nextSeg pool (hm.pool_ne_zero seg hmem)
      (hm.pool_lt seg hmem) (Nat.le_refl _) hfresh (by rw [hpool]; exact List.sublist_cons_self _ _)
      (List.nodup_cons.mp hnodup).1, grows_mapHead hm hzero seg m.nextSeg pool,
      hopen seg pool m.nextSeg (hm.pool_ne_zero seg hmem)⟩
  · rename_i hpool
    cases h
    rw [hc.head]
    have hfresh : ∀ k, k < NSEG → m.segs k ≠ m.nextSeg :=
      fun k hk => Nat.ne_of_lt (hm.segs_lt k hk)
    have hne : m.nextSeg ≠ 0 := Nat.pos_iff_ne_zero.mp hm.nextSeg_pos
    refine ⟨valid_mapHead hm hzero _ m.pool hne (Nat.lt_succ_self _)
      (Nat.le_succ _) hfresh (List.Sublist.refl _) ?_, grows_mapHead hm hzero _ _ m.pool,
      hopen m.nextSeg m.pool _ hne⟩
    intro hmem
    exact Nat.lt_irrefl _ (hm.pool_lt _ hmem)

theorem commitStep_spec (hm : Valid m) {p p' : Pc} {m' : Tracker} (hp : p.Fits m)
    (h : commitStep p m = some (p', m')) :
    CommitSpec m p' m' := by
  cases p with
  | idle | retire | createEvent | record | loadVer => cases h
  | commitFault e fr =>
      cases h
      refine .of_read hm ?_
      split <;> exact hp
  | commitClaimed e fr =>
      cases h
      refine .of_read hm ?_
      split <;> exact hp
  | commitSeq e fr =>
      cases h
      exact ⟨{ hm with }, ⟨Nat.le_refl _, Nat.le_refl _, Nat.le_refl _, fun _ _ _ => rfl,
        fun _ _ _ => rfl, fun _ _ _ => rfl⟩, hp⟩
  | commitHead e fr seq =>
      cases h
      exact .of_read hm ⟨rfl, hp⟩
  | commitFull c =>
      cases h
      refine .of_read hm ?_
      split
      · exact ⟨trivial, hp⟩
      · rename_i hfull
        refine ⟨hp, ?_⟩
        have hlo := hm.segLo_le_head
        have hhead := hp.head
        unfold Tracker.full at hfull
        unfold Room
        rw [hhead] at hfull
        unfold NSEG at *
        omega
  | unmapTail c u =>
      cases h
      exact .of_read hm ⟨hp, Nat.le_refl _⟩
  | unmapLoop c u tail => exact commitSpec_unmapLoop hm hp.1 hp.2 h
  | recheckFull c =>
      simp only [commitStep] at h
      split at h
      · cases h
        have hrec : m.recorded = m.head := Commit.Fits.recorded hp
        exact ⟨{ hm with }, ⟨Nat.le_refl _, Nat.le_refl _, Nat.le_refl _,
          fun _ _ _ => rfl, fun _ _ _ => rfl, fun _ _ _ => rfl⟩, hrec⟩
      · rename_i hfull
        cases h
        refine .of_read hm ⟨hp, ?_⟩
        have hlo := hm.segLo_le_head
        have hhead := Commit.Fits.head hp
        unfold Tracker.full at hfull
        unfold Room
        rw [hhead] at hfull
        unfold NSEG at *
        omega
  | mapLook c =>
      cases h
      refine ⟨{ hm with }, ⟨Nat.le_refl _, Nat.le_refl _, Nat.le_refl _,
        fun _ _ _ => rfl, fun _ _ _ => rfl, fun _ _ _ => rfl⟩, ?_⟩
      obtain ⟨hc, hroom⟩ := hp
      have hhead := hc.head
      split
      · rename_i hzero
        rw [hhead] at hzero
        exact ⟨⟨hc.head, hc.recorded⟩, hroom, hzero⟩
      · rename_i hne
        rw [hhead] at hne
        exact ⟨⟨hc.head, hc.recorded⟩, ⟨hroom, rfl, hne⟩⟩
  | mapTail c =>
      cases h
      refine .of_read hm ?_
      split
      · exact ⟨trivial, hp⟩
      · exact hp
  | mapTake c => exact commitSpec_mapTake hm hp h
  | slotSeg c =>
      cases h
      rw [hp.1.head]
      exact .of_read hm hp
  | slotEvent c seg =>
      cases h
      refine .of_read hm ?_
      obtain ⟨hc, hopen⟩ := hp
      have hslot : m.slots seg (c.head % SEG) .event = m.slot m.head .event := by
        rw [hc.head, ← hopen.segOf]
        rfl
      rw [hslot]
      split
      · rename_i hzero
        exact ⟨hc, hopen, hzero⟩
      · rename_i hne
        exact ⟨hc, hopen, rfl, hne⟩
  | storeFault rc =>
      cases h
      exact ⟨{ hm with }, ⟨Nat.le_refl _, Nat.le_refl _, Nat.le_refl _, fun _ _ _ => rfl,
        fun _ _ _ => rfl, fun _ _ _ => rfl⟩, hp⟩
  | storing c t stores =>
      obtain ⟨hs, hwords, happly⟩ := hp
      cases stores with
      | nil =>
          cases h
          exact .of_read hm ⟨hs, happly⟩
      | cons x stores =>
          cases h
          have hw : x.1 ≠ .event := hwords x List.mem_cons_self
          have hhead := slot_store_head (m := m) x.1 x.2
          rw [hs.head_eq, ← hs.opened.segOf]
          refine ⟨valid_store hm x.2 hw, grows_store hm x.1 x.2, ?_, ?_, ?_⟩
          · refine ⟨hs.head_eq, ⟨hs.opened.room, hs.opened.segOf, hs.opened.ne_zero⟩, ?_,
              hs.event_ne_zero, hs.recordedAt_eq, hs.recorded_eq⟩
            exact (congrFun hhead .event).trans
              ((Function.update_of_ne (Ne.symm hw) _ _).trans hs.slot_event)
          · intro y hy
            exact hwords y (List.mem_cons_of_mem _ hy)
          · exact (congrArg (applyStores stores) hhead).trans happly
  | publish c t =>
      cases h
      rw [hp.1.head_eq]
      exact ⟨valid_publish hm hp.1 hp.2, ⟨Nat.le_refl _, Nat.le_succ _, Nat.le_refl _,
        fun _ _ _ => rfl, fun _ _ _ => rfl, fun _ _ _ => rfl⟩, hp.1.recorded_eq⟩
  | leave =>
      cases h
      exact ⟨{ hm with recorded_of_unlocked := fun _ => hp }, ⟨Nat.le_refl _, Nat.le_refl _,
        Nat.le_refl _, fun _ _ _ => rfl, fun _ _ _ => rfl, fun _ _ _ => rfl⟩, trivial⟩

end Steps

/-! ## Every step -/

/-- A commit holds the mutex until it leaves. -/
theorem issuing_commitStep {p p' : Pc} {m m' : Tracker}
    (h : commitStep p m = some (p', m')) :
    p.issuing = true ∧ ((p'.issuing = true ∧ m'.locked = m.locked) ∨
      (p'.issuing = false ∧ m'.locked = false)) := by
  unfold commitStep at h
  split at h <;> (try split at h) <;> cases h <;> (try split) <;>
    simp [Pc.issuing, Tracker.store]
  rename_i u _ _
  cases u <;> simp [Unmap.pc]

/-- What one step of a thread keeps, and what it knows after it. -/
structure AtomSpec (m : Tracker) (p p' : Pc) (m' : Tracker) : Prop where
  valid : Valid m'
  grows : Grows m m'
  fits : p'.Fits m'
  quiet : p.issuing = false → Quiet m m'
  role : Program.RoleStep (fun p : Pc => p.issuing = true)
    (fun m : Tracker => m.locked = true) p m p' m'

theorem outside_spec {m m' : Tracker} (hm : Valid m) {a : Action}
    (h : outside a m = some m') :
    Valid m' ∧ Quiet m m' ∧ m.completed ≤ m'.completed ∧ m'.locked = m.locked := by
  unfold outside at h
  split at h
  · split at h <;> cases h
    have hle := hm.tail_le_completed
    exact ⟨{ hm with tail_le_completed := Nat.le_succ_of_le hle },
      ⟨Nat.le_refl _, rfl, rfl, rfl, rfl, rfl, rfl⟩, Nat.le_succ _, rfl⟩
  all_goals cases h
  all_goals
    exact ⟨{ hm with }, ⟨Nat.le_refl _, rfl, rfl, rfl, rfl, rfl, rfl⟩, Nat.le_refl _, rfl⟩

theorem atom_retire_spec {m m' : Tracker} {r : Retire} {back : Back} {p' : Pc}
    (hm : Valid m) (hr : r.Fits m) (hback : back.Fits m)
    (h : (match retireStep r m with
      | (some r', m') => some (Pc.retire r' back, m')
      | (none, m') => some (back.pc, m')) = some (p', m')) :
    AtomSpec m (.retire r back) p' m' := by
  have hspec := retireStep_spec hm hr
  cases hstep : retireStep r m with
  | mk o m₁ =>
      rw [hstep] at h hspec
      have hquiet : Quiet m m₁ := hspec.quiet
      have hgrows : Grows m m₁ := hquiet.grows hspec.completed
      have hback' : back.Fits m₁ := by
        cases back with
        | idle => trivial
        | unmap c u => exact Unmap.Fits.of_quiet hback hquiet
      cases o with
      | some r' =>
          cases h
          refine ⟨hspec.valid, hgrows, ⟨hspec.fits r' rfl, hback'⟩, fun _ => hquiet, ?_⟩
          refine .keep ?_ (by rw [hspec.locked])
          cases back <;> rfl
      | none =>
          cases h
          refine ⟨hspec.valid, hgrows, ?_, fun _ => hquiet, ?_⟩
          · cases back with
            | idle => trivial
            | unmap c u => exact hback'
          · refine .keep ?_ (by rw [hspec.locked])
            cases back <;> rfl

theorem atom_spec {m m' : Tracker} {p p' : Pc} {a : Action} (hm : Valid m)
    (hp : p.Fits m) (hlock : p.issuing = true → m.locked = true)
    (h : atom p a m = some (p', m')) : AtomSpec m p p' m' := by
  unfold atom at h
  split at h
  · -- a commit takes the mutex
    rename_i e fr
    split at h <;> cases h
    rename_i hfree
    have hfree' : m.locked = false := by simpa using hfree
    have hquiet : Quiet m { m with locked := true } :=
      ⟨Nat.le_refl _, rfl, rfl, rfl, rfl, rfl, rfl⟩
    refine ⟨{ hm with recorded_of_unlocked := fun h => by cases h },
      hquiet.grows (Nat.le_refl _), hm.recorded_of_unlocked hfree', fun _ => hquiet, ?_⟩
    exact .acquire hfree (by simp [Pc.issuing]) rfl rfl
  · rename_i kind
    cases h
    refine ⟨hm, .refl m, ⟨?_, trivial⟩, fun _ => .refl m, .keep (by simp [Pc.issuing]) Iff.rfl⟩
    cases kind <;> trivial
  · rw [Option.map_eq_some_iff] at h
    obtain ⟨m₁, hout, heq⟩ := h
    cases heq
    obtain ⟨hvalid, hquiet, hcompleted, hlocked⟩ := outside_spec hm hout
    exact ⟨hvalid, hquiet.grows hcompleted, trivial, fun _ => hquiet,
      .keep Iff.rfl (by rw [hlocked])⟩
  · rename_i a p event back rc
    split at h <;> cases h
    rename_i hanswer
    obtain ⟨⟨ha, hprobe, hevent⟩, hback⟩ := hp
    have hrc : rc = 0 → m.complete event := by
      intro h0
      by_contra hnot
      exact hanswer (.inl ⟨h0, hnot⟩)
    refine ⟨hm, .refl m, ⟨Attempt.answer_fits hm ha hprobe hevent hrc, hback⟩,
      fun _ => .refl m, .keep ?_ Iff.rfl⟩
    cases back <;> rfl
  · cases h
  · exact atom_retire_spec hm hp.1 hp.2 h
  · rename_i c seg ok
    obtain ⟨hc, hopen, hzero⟩ := hp
    split at h <;> cases h
    · have hhead := slot_store_head (m := m) .event m.nextEvent
      have hpos := hm.nextEvent_pos
      rw [hc.head, ← hopen.segOf]
      have hg := grows_store hm .event m.nextEvent
      refine ⟨valid_createEvent hm, ⟨hg.tail, hg.head, hg.completed, hg.segOf, hg.slot,
        hg.recordedAt⟩, ⟨⟨hc.head, hc.recorded⟩, ⟨hopen.room, rfl, ?_⟩, ?_, ?_⟩, ?_,
        .keep Iff.rfl Iff.rfl⟩
      · rw [hopen.segOf]
        exact hopen.ne_zero
      · exact (congrFun hhead .event).trans (Function.update_self _ _ _)
      · omega
      · intro hcase
        cases hcase
    · refine ⟨hm, .refl m, hc.recorded, ?_, .keep Iff.rfl Iff.rfl⟩
      intro hcase
      cases hcase
  · rename_i c seg event rc
    obtain ⟨hc, hopen, hevent, hne⟩ := hp
    split at h <;> cases h
    · rw [← hevent]
      refine ⟨valid_recordHead hm (hlock rfl), grows_recordHead hm, ?_, ?_,
        .keep Iff.rfl Iff.rfl⟩
      · refine ⟨hc.head, ⟨hopen.room, hopen.segOf, hopen.ne_zero⟩, rfl, hevent ▸ hne, ?_, ?_⟩
        · exact (Function.update_self _ _ _).trans (congrArg some hc.recorded)
        · exact congrArg Nat.succ hc.recorded
      · intro hcase
        cases hcase
    · refine ⟨hm, .refl m, hc.recorded, ?_, .keep Iff.rfl Iff.rfl⟩
      intro hcase
      cases hcase
  · rename_i c seg event now
    cases h
    have hs : Stamped c m seg event := hp
    refine ⟨hm, .refl m, ⟨hs, ?_, applyStores_stores hs.slot_event⟩, ?_,
      .keep Iff.rfl Iff.rfl⟩
    · simp [Commit.stores]
    · intro hcase
      cases hcase
  · obtain ⟨hissuing, hleave⟩ := issuing_commitStep h
    have hspec := commitStep_spec hm hp h
    refine ⟨hspec.valid, hspec.grows, hspec.fits, ?_, ?_⟩
    · intro hnot
      rw [hissuing] at hnot
      cases hnot
    · rcases hleave with ⟨hp', hlocked⟩ | ⟨hp', hlocked⟩
      · exact .keep (by simp [hp', hissuing]) (by rw [hlocked])
      · exact .release hissuing (by simp [hlocked]) (by simp [hp'])
  · cases h

/-! ## Every reachable state -/

/-- The invariant of the whole system. -/
structure Inv (s : Config Thread Tracker Pc) : Prop where
  valid : Valid s.mem
  fits : ∀ t, (s.pc t).Fits s.mem
  issuer : Program.Exclusive (fun p : Pc => p.issuing = true)
    (fun m : Tracker => m.locked = true) s

theorem inv_of_next {s t : Config Thread Tracker Pc} {e : Thread × Action} (hI : Inv s)
    (hnext : (queue Thread).next s e = some t) : Inv t := by
  obtain ⟨p, hstep, hpc⟩ := Program.next_eq_some.mp hnext
  have hspec : AtomSpec s.mem (s.pc e.1) p t.mem :=
    atom_spec hI.valid (hI.fits e.1) (hI.issuer.set_of_role e.1) hstep
  have hself : t.pc e.1 = p := by rw [hpc, Function.update_self]
  refine ⟨hspec.valid, ?_, hI.issuer.step hnext (by rw [hself]; exact hspec.role)⟩
  intro u
  by_cases hu : u = e.1
  · rw [hu, hself]
    exact hspec.fits
  · rw [hpc, Function.update_of_ne hu]
    have hfits := hI.fits u
    by_cases hissuing : (s.pc u).issuing = true
    · -- the issuer is `u`, so the step is of a thread outside any commit
      have hquiet : (s.pc e.1).issuing = false := by
        by_contra hnot
        exact hu (hI.issuer.unique u e.1 hissuing (by simpa using hnot))
      exact hfits.of_quiet (hspec.quiet hquiet) hspec.grows
    · cases hp : s.pc u with
      | idle => trivial
      | retire r back =>
          rw [hp] at hfits hissuing
          cases back with
          | idle => exact ⟨hfits.1.of_grows hspec.grows, trivial⟩
          | unmap c u => exact absurd rfl hissuing
      | _ => exact absurd (by rw [hp]; rfl) hissuing

theorem inv_of_reachable {s : Config Thread Tracker Pc} (hs : (queue Thread).Reachable s) :
    Inv s := by
  refine hs.invariant ?_ (fun s e t _ hI hnext => inv_of_next hI hnext)
  rintro s rfl
  refine ⟨valid_boot, fun _ => trivial, ⟨?_, ?_, ?_⟩⟩
  · intro t _ ht
    cases ht
  · intro t ht
    cases ht
  · intro hset
    cases hset

/-- The segments in the table. -/
def Tracker.live (m : Tracker) : List Nat :=
  ((List.range NSEG).map m.segs).filter (fun seg => seg ≠ 0)

/-- The segments in use and the free ones are pairwise distinct. -/
theorem Valid.live_pool_nodup {m : Tracker} (hm : Valid m) : (m.live ++ m.pool).Nodup := by
  unfold Tracker.live
  rw [List.filter_map, List.nodup_append]
  refine ⟨?_, hm.pool_nodup, ?_⟩
  · refine List.Nodup.map_on ?_ (List.nodup_range.filter _)
    intro k hk l hl heq
    simp only [List.mem_filter, List.mem_range, Function.comp_apply,
      decide_eq_true_eq] at hk hl
    exact hm.segs_inj k l hk.1 hl.1 heq hk.2
  · rintro seg hseg seg' hseg' rfl
    simp only [List.mem_map, List.mem_filter, List.mem_range] at hseg
    obtain ⟨k, ⟨hk, _⟩, rfl⟩ := hseg
    exact hm.segs_not_pool k hk hseg'

theorem tail_commitStep {p p' : Pc} {m m' : Tracker}
    (h : commitStep p m = some (p', m')) : m'.tail = m.tail := by
  unfold commitStep at h
  split at h <;> (try split at h) <;> cases h <;> rfl

theorem cas_of_retireStep {r : Retire} {m : Tracker}
    (hmove : (retireStep r m).2.tail ≠ m.tail) :
    ∃ att stop seq, r = .cas att stop seq ∧ att.tail = m.tail ∧
      (retireStep r m).2.tail = stop := by
  cases r with
  | cas att stop seq =>
      by_cases hcur : m.tail = att.tail
      · exact ⟨att, stop, seq, rfl, hcur.symm, by simp [retireStep, hcur]⟩
      · simp [retireStep, hcur] at hmove
  | _ => exact absurd rfl hmove

/-- Only the compare-exchange of an attempt whose snapshot is current moves the
tail. -/
theorem cas_of_tail_ne {p p' : Pc} {a : Action} {m m' : Tracker}
    (h : atom p a m = some (p', m')) (hmove : m'.tail ≠ m.tail) :
    ∃ att stop seq back, p = .retire (.cas att stop seq) back ∧
      att.tail = m.tail ∧ m'.tail = stop := by
  unfold atom at h
  split at h
  · split at h <;> cases h
    exact absurd rfl hmove
  · cases h
    exact absurd rfl hmove
  · rw [Option.map_eq_some_iff] at h
    obtain ⟨m₁, hout, heq⟩ := h
    cases heq
    unfold outside at hout
    split at hout <;> (try split at hout) <;> cases hout <;> exact absurd rfl hmove
  · split at h <;> cases h
    exact absurd rfl hmove
  · cases h
  · rename_i r back _
    have hm' : m' = (retireStep r m).2 := by
      split at h <;> cases h <;> simp_all
    rw [hm'] at hmove
    obtain ⟨att, stop, seq, rfl, hcur, hstop⟩ := cas_of_retireStep hmove
    exact ⟨att, stop, seq, back, rfl, hcur, hm' ▸ hstop⟩
  · split at h <;> cases h <;> exact absurd rfl hmove
  · split at h <;> cases h <;> exact absurd rfl hmove
  · cases h
    exact absurd rfl hmove
  · exact absurd (tail_commitStep h) hmove
  · cases h

/-- Over every run of commits, retirements, polls, drains and un-mappings by any
number of threads.  Each index in flight reads back the record committed for it.
The segments in use and the free ones are pairwise distinct.  The cursors only
grow and the tail never passes the head.  The retired intervals cover exactly the
indices below the tail, each once.  And a step that retires does so in one
compare-exchange: every entry it retires has a complete event, the last of them by
the driver's answer to a query of that entry, and each event the attempt asked for
is still the one committed for its index and recorded last for it. -/
theorem queue_representation {s : Config Thread Tracker Pc}
    (hs : (queue Thread).Reachable s) :
    (∀ i, s.mem.tail ≤ i → i < s.mem.head → s.mem.log[i]? = some (s.mem.slot i)) ∧
    (s.mem.live ++ s.mem.pool).Nodup ∧
    s.mem.tail ≤ s.mem.head ∧
    (∀ i, s.mem.retirements.countP (fun r => decide (r.1 ≤ i ∧ i < r.2)) =
      if i < s.mem.tail then 1 else 0) ∧
    ∀ e t, (queue Thread).next s e = some t →
      s.mem.tail ≤ t.mem.tail ∧ s.mem.head ≤ t.mem.head ∧
      (t.mem.tail ≠ s.mem.tail →
        ∃ a seq back, s.pc e.1 = .retire (.cas a t.mem.tail seq) back ∧
          (∀ i, s.mem.tail ≤ i → i < t.mem.tail →
            i < s.mem.head ∧ s.mem.complete (s.mem.slot i .event)) ∧
          (∃ event, (t.mem.tail - 1, event, 0) ∈ a.asked) ∧
          ∀ q ∈ a.asked, s.mem.tail ≤ q.1 ∧ q.1 < s.mem.head ∧
            s.mem.slot q.1 .event = q.2.1 ∧ s.mem.recordedAt q.2.1 = some q.1) := by
  have hI := inv_of_reachable hs
  refine ⟨hI.valid.slot_eq, hI.valid.live_pool_nodup, hI.valid.tail_le_head,
    hI.valid.retired, ?_⟩
  intro e t hnext
  obtain ⟨p, hstep, _⟩ := Program.next_eq_some.mp hnext
  have hspec : AtomSpec s.mem (s.pc e.1) p t.mem :=
    atom_spec hI.valid (hI.fits e.1) (hI.issuer.set_of_role e.1) hstep
  refine ⟨hspec.grows.tail, hspec.grows.head, ?_⟩
  intro hmove
  obtain ⟨a, stop, seq, back, hpc, hcur, hstop⟩ := cas_of_tail_ne hstep hmove
  have hfits := hI.fits e.1
  rw [hpc] at hfits
  obtain ⟨⟨ha, hreach, hlt, _⟩, _⟩ := hfits
  have hle := hreach.le
  have hhead := ha.head_le
  have hdone := hreach.completed hcur.symm
  rw [hstop]
  refine ⟨a, seq, back, hpc, ?_, hreach.reported hlt, ?_⟩
  · intro i hi hi'
    have hin : i < s.mem.head := by omega
    refine ⟨hin, ?_⟩
    intro j hj
    rw [hI.valid.recordedAt i hi hin] at hj
    cases hj
    omega
  · intro q hq
    obtain ⟨hge, hqlt, hevent, hrec⟩ := ha.asked hcur.symm q hq
    exact ⟨by omega, by omega, hevent, hrec⟩

/-! ## A run -/

/-- One commit by the first thread, retired by a poll of the second. -/
def commitThenPoll : List (Bool × Action) :=
  ((true, .commit ⟨1, 1, 64, 7, -1, 0, 5, 1⟩ 3) :: List.replicate 12 (true, .tick)).append
    ((true, .create true) :: (true, .record 0) :: (true, .stamp 9) ::
      (List.replicate 16 (true, .tick)).append
        ((false, .complete) :: (false, .retire .poll) ::
          (List.replicate 4 (false, .tick)).append
            ((false, .query 0) :: List.replicate 3 (false, .tick))))

/-- Every thread idle on an empty queue. -/
def atBoot : Config Bool Tracker Pc := { mem := Tracker.boot, pc := fun _ => .idle }

theorem queue_representation_commitThenPoll :
    ∃ s t, (queue Bool).run atBoot commitThenPoll = some s ∧
      (queue Bool).next s (false, .tick) = some t ∧ t.mem.tail = 1 ∧
      s.mem.log[0]? = some (s.mem.slot 0) ∧ s.mem.complete (s.mem.slot 0 .event) := by
  have hrun : ((queue Bool).run atBoot commitThenPoll).any (fun s =>
      decide (s.mem.tail = 0 ∧ s.mem.head = 1) &&
        ((queue Bool).next s (false, .tick)).any fun t => decide (t.mem.tail = 1)) = true := by
    decide
  obtain ⟨s, hs, hcursors⟩ := (Option.any_eq_true _ _).mp hrun
  obtain ⟨hbefore, hstep⟩ := Bool.and_eq_true_iff.mp hcursors
  obtain ⟨t, ht, hafter⟩ := (Option.any_eq_true _ _).mp hstep
  obtain ⟨htail, hhead⟩ := of_decide_eq_true hbefore
  have htail' : t.mem.tail = 1 := of_decide_eq_true hafter
  have hreach : (queue Bool).Reachable s := ⟨atBoot, commitThenPoll, rfl, hs⟩
  obtain ⟨hread, _, _, _, hnexts⟩ := queue_representation hreach
  obtain ⟨_, _, hretire⟩ := hnexts _ _ ht
  obtain ⟨_, _, _, _, hcomplete, _⟩ := hretire (by omega)
  exact ⟨s, t, hs, ht, htail', hread 0 (by omega) (by omega),
    (hcomplete 0 (by omega) (by omega)).2⟩

end TorchMojoBackend.Watchdog.Queue
