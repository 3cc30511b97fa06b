/-
  `Distributed.StoreState`: the dump signals of a store, kept by one process.

  A signaller takes a generation from a counter in the store.  Every process
  serves the generations it sees by writing a dump of its flight recorder and
  acknowledging them.  What it has served is kept in a `_StoreState` for each
  incarnation of each store: `base` and `high` and the sets between them.  The
  monitor's poll and the incident threads claim generations from it, dump, and
  report the outcome back to the state they claimed from.
-/
import TorchMojoBackend.Foundation.Transition
import TorchMojoBackend.Foundation.Watermark
import Mathlib.Logic.Function.Basic

set_option autoImplicit false

namespace TorchMojoBackend.Distributed

open TorchMojoBackend.Foundation

/-! ## `_StoreState` -/

/-- The intervals of the monitor, in one unit of time. -/
structure Timing where
  /-- `coord_check_s()` -/
  coordCheck : Nat
  /-- `_MAX_BACKOFF_S` -/
  maxBackoff : Nat
  /-- `_poll_backoff_cap()` -/
  pollCap : Nat

/-- The dump signals of one store incarnation.  `base` is `none` until the store
was read; `torchSeen` is `torch == "seen"`. -/
structure StoreState (Nonce : Type) where
  nonce : Option Nonce
  base : Option Nat
  first : Option Nat
  high : Option Nat
  done : Finset Nat
  pending : Finset Nat
  failed : Finset Nat
  unacked : Finset Nat
  torchSeen : Bool
  torchTried : Bool
  dumpBackoff : Nat
  dumpRetryAt : Nat
  pollBackoff : Nat
  pollAt : Nat
  deriving DecidableEq

/-- What a read of the store answers: its incarnation, whether torch's dump key is
there, and the generation counter. -/
structure Seen (Nonce : Type) where
  nonce : Nonce
  hasKey : Bool
  gen : Nat
  deriving DecidableEq

namespace StoreState

variable {Nonce : Type}

/-- `_StoreState.__init__` -/
def init (nonce : Option Nonce) (base : Option Nat) (torchSeen : Bool) : StoreState Nonce where
  nonce := nonce
  base := base
  first := base
  high := base
  done := ∅
  pending := ∅
  failed := ∅
  unacked := ∅
  torchSeen := torchSeen
  torchTried := false
  dumpBackoff := 0
  dumpRetryAt := 0
  pollBackoff := 0
  pollAt := 0

/-- The generations a claim up to `upto` takes, and the state after it. -/
def claim (st : StoreState Nonce) (now upto : Nat) : Finset Nat × StoreState Nonce :=
  match st.base with
  | none => (∅, st)
  | some base =>
    let top := max (st.high.getD base) base
    let retry := st.failed ≠ ∅ ∧ st.dumpRetryAt ≤ now
    let gens := Finset.Ioc top upto ∪ if retry then st.failed else ∅
    let gens := gens \ (st.done ∪ st.pending)
    (gens, { st with
      failed := if retry then ∅ else st.failed
      high := some (max top upto)
      pending := st.pending ∪ gens })

/-- Back retries of a failing dump off, doubling up to the cap. -/
def backoff (timing : Timing) (st : StoreState Nonce) (now : Nat) (ok : Bool) :
    StoreState Nonce :=
  if ok then { st with dumpBackoff := 0 }
  else
    let wait := min (max (2 * st.dumpBackoff) timing.coordCheck) timing.maxBackoff
    { st with dumpBackoff := wait, dumpRetryAt := now + wait }

/-- The loop of `finish` that moves `base` over the done generations above it. -/
def compact (st : StoreState Nonce) : StoreState Nonce :=
  match st.base with
  | none => st
  | some base =>
    let (base, done) := Watermark.absorb st.done.card base st.done
    { st with base := some base, done := done }

/-- The outcome of a dump that served `gens`. -/
def finish (timing : Timing) (st : StoreState Nonce) (now : Nat) (gens : Finset Nat)
    (dumped acked : Bool) : StoreState Nonce :=
  if gens = ∅ then st
  else
    let st := { st with pending := st.pending \ gens }
    if dumped then
      let st := st.backoff timing now true
      let st := { st with failed := st.failed \ gens, done := st.done ∪ gens }.compact
      if acked then st else { st with unacked := st.unacked ∪ gens }
    else { st with failed := st.failed ∪ gens }.backoff timing now false

/-- The outcome of a dump for torch's own key, which takes no generation. -/
def torchDone (timing : Timing) (st : StoreState Nonce) (now : Nat) (dumped : Bool) :
    StoreState Nonce :=
  { st with torchTried := true, torchSeen := st.torchSeen || dumped }.backoff timing now dumped

/-- A poll whose read failed: the next one waits longer, up to the cap. -/
def pollFailed (timing : Timing) (st : StoreState Nonce) (now : Nat) : StoreState Nonce :=
  let wait := min (max (2 * st.pollBackoff) timing.coordCheck) timing.pollCap
  { st with pollBackoff := wait, pollAt := now + wait }

/-- What a poll takes on itself: the generations to serve, and whether torch's own
key asks for a dump. -/
def serve (st : StoreState Nonce) (now : Nat) (seen : Seen Nonce) :
    Finset Nat × Bool × StoreState Nonce :=
  let st := if some seen.gen ≠ st.first then { st with torchSeen := true } else st
  let (gens, st) := st.claim now seen.gen
  let torchSignal := decide (gens = ∅) && seen.hasKey && !st.torchSeen &&
    (!st.torchTried || decide (st.dumpRetryAt ≤ now))
  (gens, torchSignal, st)

/-! ### What the operations keep -/

/-- The sets of a state divide the generations above `base` up to `high`. -/
inductive Sound (st : StoreState Nonce) : Prop where
  | unread (hbase : st.base = none) (hfirst : st.first = none)
      (hdone : st.done = ∅) (hpending : st.pending = ∅) (hfailed : st.failed = ∅)
  | read {base high first : Nat} (hbase : st.base = some base) (hhigh : st.high = some high)
      (hfirst : st.first = some first) (hle : first ≤ base)
      (hmark : Watermark base high st.done st.pending st.failed)

/-- The state counts `g` as dumped since it first watched the store. -/
def Served (st : StoreState Nonce) (g : Nat) : Prop :=
  g ∈ st.done ∨ ∃ first base, st.first = some first ∧ st.base = some base ∧ first < g ∧ g ≤ base

/-- `st'` differs from `st` only in what the bookkeeping does not read, and may have
fewer unacknowledged generations. -/
structure Like (st st' : StoreState Nonce) : Prop where
  base : st'.base = st.base
  first : st'.first = st.first
  high : st'.high = st.high
  done : st'.done = st.done
  pending : st'.pending = st.pending
  failed : st'.failed = st.failed
  unacked : st'.unacked ⊆ st.unacked

theorem init_sound (nonce : Option Nonce) (base : Option Nat) (torchSeen : Bool) :
    (init nonce base torchSeen).Sound := by
  cases base with
  | none => exact .unread rfl rfl rfl rfl rfl
  | some base => exact .read rfl rfl rfl le_rfl (Watermark.start base)

theorem not_served_init (nonce : Option Nonce) (base : Option Nat) (torchSeen : Bool)
    (g : Nat) : ¬ (init nonce base torchSeen).Served g := by
  rintro (hg | ⟨first, base', hfirst, hbase, hlt, hle⟩)
  · simp [init] at hg
  · simp only [init] at hfirst hbase
    rw [hfirst, Option.some.injEq] at hbase
    omega

theorem Like.sound {st st' : StoreState Nonce} (h : Like st st') (hs : st.Sound) :
    st'.Sound := by
  cases hs with
  | unread hbase hfirst hdone hpending hfailed =>
      exact .unread (h.base.trans hbase) (h.first.trans hfirst) (h.done.trans hdone)
        (h.pending.trans hpending) (h.failed.trans hfailed)
  | read hbase hhigh hfirst hle hmark =>
      refine .read (h.base.trans hbase) (h.high.trans hhigh) (h.first.trans hfirst) hle ?_
      rw [h.done, h.pending, h.failed]
      exact hmark

theorem Like.served {st st' : StoreState Nonce} (h : Like st st') {g : Nat} :
    st'.Served g ↔ st.Served g := by
  simp only [Served, h.done, h.first, h.base]

theorem backoff_like (timing : Timing) (st : StoreState Nonce) (now : Nat) (ok : Bool) :
    Like st (st.backoff timing now ok) := by
  cases ok <;> exact ⟨rfl, rfl, rfl, rfl, rfl, rfl, Finset.Subset.refl _⟩

theorem torchDone_like (timing : Timing) (st : StoreState Nonce) (now : Nat) (ok : Bool) :
    Like st (st.torchDone timing now ok) := by
  cases ok <;> exact ⟨rfl, rfl, rfl, rfl, rfl, rfl, Finset.Subset.refl _⟩

theorem pollFailed_like (timing : Timing) (st : StoreState Nonce) (now : Nat) :
    Like st (st.pollFailed timing now) :=
  ⟨rfl, rfl, rfl, rfl, rfl, rfl, Finset.Subset.refl _⟩

/-! ### A claim -/

/-- The generations a claim takes: the ones never claimed, and the failed ones once
their backoff is over. -/
theorem mem_claim {st : StoreState Nonce} {base high : Nat} (hbase : st.base = some base)
    (hhigh : st.high = some high)
    (hmark : Watermark base high st.done st.pending st.failed) (now upto g : Nat) :
    g ∈ (st.claim now upto).1 ↔
      (high < g ∧ g ≤ upto) ∨ (g ∈ st.failed ∧ st.dumpRetryAt ≤ now) := by
  have hmax : max high base = high := max_eq_left hmark.le
  simp only [claim, hbase, hhigh, Option.getD_some, hmax, Finset.mem_sdiff, Finset.mem_union,
    Finset.mem_Ioc, not_or]
  constructor
  · rintro ⟨hnew | hretry, -⟩
    · exact .inl hnew
    · split at hretry
      · rename_i h
        exact .inr ⟨hretry, h.2⟩
      · exact absurd hretry (Finset.notMem_empty g)
  · rintro (hnew | ⟨hfailed, hdue⟩)
    · have hnot := hmark.notMem_of_gt hnew.1
      exact ⟨.inl hnew, hnot.1, hnot.2.1⟩
    · refine ⟨.inr ?_, ?_, ?_⟩
      · rw [if_pos ⟨Finset.ne_empty_of_mem hfailed, hdue⟩]
        exact hfailed
      · exact fun hd => Finset.disjoint_left.mp hmark.done_failed hd hfailed
      · exact fun hp => Finset.disjoint_left.mp hmark.pending_failed hp hfailed

/-- What a claim does to the state. -/
structure Claims (st : StoreState Nonce) (gens : Finset Nat) (st' : StoreState Nonce) :
    Prop where
  base : st'.base = st.base
  first : st'.first = st.first
  done : st'.done = st.done
  unacked : st'.unacked = st.unacked
  pending : st'.pending = st.pending ∪ gens
  fresh : Disjoint gens st.pending
  sound : st'.Sound

theorem claim_claims {st : StoreState Nonce} (hs : st.Sound) (now upto : Nat) :
    Claims st (st.claim now upto).1 (st.claim now upto).2 := by
  cases hs with
  | unread hbase hfirst hdone hpending hfailed =>
      have heq : st.claim now upto = (∅, st) := by simp [claim, hbase]
      rw [heq]
      exact ⟨rfl, rfl, rfl, rfl, (Finset.union_empty _).symm, Finset.disjoint_empty_left _,
        .unread hbase hfirst hdone hpending hfailed⟩
  | read hbase hhigh hfirst hle hmark =>
      rename_i base high first
      have hmem := mem_claim hbase hhigh hmark now upto
      have hmax : max high base = high := max_eq_left hmark.le
      have hpending : (st.claim now upto).2.pending = st.pending ∪ (st.claim now upto).1 := by
        simp [claim, hbase]
      have hhigh' : (st.claim now upto).2.high = some (max high upto) := by
        simp [claim, hbase, hhigh, hmax]
      have hfailed : (st.claim now upto).2.failed =
          if st.failed ≠ ∅ ∧ st.dumpRetryAt ≤ now then ∅ else st.failed := by
        simp [claim, hbase]
      have hdone : (st.claim now upto).2.done = st.done := by simp [claim, hbase]
      have hbase' : (st.claim now upto).2.base = some base := by simp [claim, hbase]
      have hfirst' : (st.claim now upto).2.first = st.first := by simp [claim, hbase]
      have hunacked : (st.claim now upto).2.unacked = st.unacked := by simp [claim, hbase]
      refine ⟨hbase'.trans hbase.symm, hfirst', hdone, hunacked, hpending, ?_, ?_⟩
      · refine Finset.disjoint_left.mpr fun g hg hp => ?_
        obtain hnew | ⟨hf, -⟩ := (hmem g).mp hg
        · exact (hmark.notMem_of_gt hnew.1).2.1 hp
        · exact Finset.disjoint_left.mp hmark.pending_failed hp hf
      · refine .read hbase' hhigh' (hfirst'.trans hfirst) hle ?_
        rw [hdone, hpending, hfailed]
        have hIoc : ∀ g, g ∈ Finset.Ioc high (max high upto) ↔ high < g ∧ g ≤ upto := by
          intro g
          rw [Finset.mem_Ioc]
          omega
        have hext := hmark.extend (le_max_left high upto)
        by_cases hretry : st.failed ≠ ∅ ∧ st.dumpRetryAt ≤ now
        · rw [if_pos hretry]
          have hgens : st.pending ∪ (st.claim now upto).1 =
              st.pending ∪ Finset.Ioc high (max high upto) ∪ st.failed := by
            ext g
            simp only [Finset.mem_union, hmem, hIoc, hretry.2, and_true, or_assoc]
          rw [hgens]
          exact hext.retry
        · rw [if_neg hretry]
          have hgens : st.pending ∪ (st.claim now upto).1 =
              st.pending ∪ Finset.Ioc high (max high upto) := by
            ext g
            have hno : ¬ (g ∈ st.failed ∧ st.dumpRetryAt ≤ now) := fun h =>
              hretry ⟨Finset.ne_empty_of_mem h.1, h.2⟩
            simp only [Finset.mem_union, hmem, hIoc, hno, or_false]
          rw [hgens]
          exact hext

theorem Claims.of_like {st st' st'' : StoreState Nonce} {gens : Finset Nat}
    (hl : Like st st') (hu : st'.unacked = st.unacked) (h : Claims st' gens st'') :
    Claims st gens st'' where
  base := h.base.trans hl.base
  first := h.first.trans hl.first
  done := h.done.trans hl.done
  unacked := h.unacked.trans hu
  pending := by rw [h.pending, hl.pending]
  fresh := hl.pending ▸ h.fresh
  sound := h.sound

theorem serve_claims {st : StoreState Nonce} (hs : st.Sound) (now : Nat) (seen : Seen Nonce) :
    Claims st (st.serve now seen).1 (st.serve now seen).2.2 := by
  by_cases hfirst : some seen.gen ≠ st.first
  · have hl : Like st { st with torchSeen := true } :=
      ⟨rfl, rfl, rfl, rfl, rfl, rfl, Finset.Subset.refl _⟩
    have hclaims := (claim_claims (hl.sound hs) now seen.gen).of_like hl rfl
    simpa only [serve, if_pos hfirst] using hclaims
  · simpa only [serve, if_neg hfirst] using claim_claims hs now seen.gen

theorem Claims.served {st st' : StoreState Nonce} {gens : Finset Nat}
    (h : Claims st gens st') {g : Nat} : st'.Served g ↔ st.Served g := by
  simp only [Served, h.done, h.first, h.base]

/-! ### An outcome -/

/-- What the outcome of a dump does to the state. -/
structure Finishes (st : StoreState Nonce) (gens : Finset Nat) (dumped : Bool)
    (st' : StoreState Nonce) : Prop where
  pending : st'.pending = st.pending \ gens
  sound : st'.Sound
  base_le : ∀ base, st.base = some base → ∃ base', st'.base = some base' ∧ base ≤ base'
  served : ∀ g, st'.Served g → st.Served g ∨ (dumped = true ∧ g ∈ gens)
  unacked : ∀ g, g ∈ st'.unacked → g ∈ st.unacked ∨ (dumped = true ∧ g ∈ gens)
  succeeded : dumped = true → ∀ g ∈ gens, g ∈ st'.done ∨ ∃ base, st'.base = some base ∧ g ≤ base
  failed : dumped = false → ∀ g ∈ gens, g ∈ st'.failed

theorem Finishes.of_like {st st' st'' : StoreState Nonce} {gens : Finset Nat} {dumped : Bool}
    (h : Finishes st gens dumped st') (hl : Like st' st'') : Finishes st gens dumped st'' where
  pending := hl.pending.trans h.pending
  sound := hl.sound h.sound
  base_le base hbase := by
    obtain ⟨base', hbase', hle⟩ := h.base_le base hbase
    exact ⟨base', hl.base.trans hbase', hle⟩
  served g hg := h.served g (hl.served.mp hg)
  unacked g hg := h.unacked g (hl.unacked hg)
  succeeded hd g hg := by
    rw [hl.done, hl.base]
    exact h.succeeded hd g hg
  failed hd g hg := by
    rw [hl.failed]
    exact h.failed hd g hg

/-- The acknowledgement of a written dump did not get through. -/
theorem Finishes.unacked_union {st st' : StoreState Nonce} {gens : Finset Nat}
    (h : Finishes st gens true st') :
    Finishes st gens true { st' with unacked := st'.unacked ∪ gens } where
  pending := h.pending
  sound := by
    cases h.sound with
    | unread hbase hfirst hdone hpending hfailed =>
        exact .unread hbase hfirst hdone hpending hfailed
    | read hbase hhigh hfirst hle hmark => exact .read hbase hhigh hfirst hle hmark
  base_le := h.base_le
  served := h.served
  unacked g hg := by
    obtain hg | hg := Finset.mem_union.mp hg
    · exact h.unacked g hg
    · exact .inr ⟨rfl, hg⟩
  succeeded := h.succeeded
  failed := h.failed

/-- The dump failed: its generations wait for a retry. -/
theorem finishes_failed {st : StoreState Nonce} (hs : st.Sound) {gens : Finset Nat}
    (hgens : gens ⊆ st.pending) :
    Finishes st gens false
      { st with pending := st.pending \ gens, failed := st.failed ∪ gens } where
  pending := rfl
  sound := by
    cases hs with
    | unread hbase hfirst hdone hpending hfailed =>
        have hempty : gens = ∅ := Finset.subset_empty.mp (hpending ▸ hgens)
        exact .unread hbase hfirst hdone (by simp [hpending]) (by simp [hfailed, hempty])
    | read hbase hhigh hfirst hle hmark =>
        exact .read hbase hhigh hfirst hle (hmark.fail hgens)
  base_le base hbase := ⟨base, hbase, le_rfl⟩
  served g hg := .inl hg
  unacked g hg := .inl hg
  succeeded hd := absurd hd (by decide)
  failed _ g hg := Finset.mem_union_right _ hg

/-- The dump was written: its generations are done, and `base` moves over those
that reach it. -/
theorem finishes_dumped {st : StoreState Nonce} (hs : st.Sound) {gens : Finset Nat}
    (hgens : gens ⊆ st.pending) :
    Finishes st gens true
      { st with
        pending := st.pending \ gens, failed := st.failed \ gens
        done := st.done ∪ gens }.compact := by
  cases hs with
  | unread hbase hfirst hdone hpending hfailed =>
      have hempty : gens = ∅ := Finset.subset_empty.mp (hpending ▸ hgens)
      subst hempty
      have heq : compact { st with
          pending := st.pending \ ∅, failed := st.failed \ ∅, done := st.done ∪ ∅ } = st := by
        unfold compact
        split
        · simp
        · rename_i base h
          exact absurd (hbase.symm.trans h) (by simp)
      rw [heq]
      exact {
        pending := by simp
        sound := .unread hbase hfirst hdone hpending hfailed
        base_le := fun base h => absurd (hbase.symm.trans h) (by simp)
        served := fun g hg => .inl hg
        unacked := fun g hg => .inl hg
        succeeded := fun _ g hg => absurd hg (Finset.notMem_empty g)
        failed := fun hd => absurd hd (by decide) }
  | read hbase hhigh hfirst hle hmark =>
      rename_i base high first
      have hfailed : st.failed \ gens = st.failed := by
        refine Finset.sdiff_eq_self_of_disjoint ?_
        exact (hmark.pending_failed.mono_left hgens).symm
      -- the generations join the done ones before the loop moves `base`
      have hdone := hmark.succeed hgens
      have hmoved := hdone.absorbed (st.done ∪ gens).card
      have hup := Watermark.le_absorb (st.done ∪ gens).card base (st.done ∪ gens)
      have hmem := Watermark.mem_absorb (st.done ∪ gens).card base (st.done ∪ gens)
      have hpassed := @Watermark.mem_of_absorbed (st.done ∪ gens).card base (st.done ∪ gens)
      simp only [compact, hbase, hfailed]
      refine ⟨rfl, .read rfl hhigh hfirst (hle.trans hup) hmoved, ?_, ?_, ?_, ?_, ?_⟩
      · intro base' h
        cases hbase.symm.trans h
        exact ⟨_, rfl, hup⟩
      · intro g hg
        have hsplit : g ∈ st.done ∪ gens → st.Served g ∨ (true = true ∧ g ∈ gens) := by
          intro h
          obtain h | h := Finset.mem_union.mp h
          · exact .inl (.inl h)
          · exact .inr ⟨rfl, h⟩
        obtain hg | ⟨first', base', hfirst', hbase', hlt, hle'⟩ := hg
        · exact hsplit ((hmem g).mpr (.inl hg))
        · simp only [Option.some.injEq] at hbase'
          subst hbase'
          by_cases hgb : g ≤ base
          · exact .inl (.inr ⟨first', base, hfirst', hbase, hlt, hgb⟩)
          · exact hsplit (hpassed (not_le.mp hgb) hle')
      · exact fun g hg => .inl hg
      · intro _ g hg
        obtain h | ⟨-, -, h⟩ := (hmem g).mp (Finset.mem_union_right _ hg)
        · exact .inl h
        · exact .inr ⟨_, rfl, h⟩
      · exact fun hd => absurd hd (by decide)

theorem finish_finishes (timing : Timing) {st : StoreState Nonce} (hs : st.Sound) (now : Nat)
    {gens : Finset Nat} (hgens : gens ⊆ st.pending) (dumped acked : Bool) :
    Finishes st gens dumped (st.finish timing now gens dumped acked) := by
  by_cases hempty : gens = ∅
  · subst hempty
    rw [finish, if_pos rfl]
    exact {
      pending := by simp
      sound := hs
      base_le := fun base h => ⟨base, h, le_rfl⟩
      served := fun g hg => .inl hg
      unacked := fun g hg => .inl hg
      succeeded := fun _ g hg => absurd hg (Finset.notMem_empty g)
      failed := fun _ g hg => absurd hg (Finset.notMem_empty g) }
  · cases dumped with
    | false =>
        simp only [finish, if_neg hempty, Bool.false_eq_true, if_false]
        exact (finishes_failed hs hgens).of_like (backoff_like timing _ now false)
    | true =>
        -- the backoff of the failed retries does not touch the sets
        have hl : Like st { st with dumpBackoff := 0 } :=
          ⟨rfl, rfl, rfl, rfl, rfl, rfl, Finset.Subset.refl _⟩
        have hdumped := finishes_dumped (hl.sound hs) hgens
        have hfin : Finishes st gens true _ := ⟨hdumped.pending, hdumped.sound,
          hdumped.base_le, hdumped.served, hdumped.unacked, hdumped.succeeded, hdumped.failed⟩
        simp only [finish, if_neg hempty, if_true, backoff]
        cases acked with
        | true => exact hfin
        | false => exact hfin.unacked_union

end StoreState

end TorchMojoBackend.Distributed
