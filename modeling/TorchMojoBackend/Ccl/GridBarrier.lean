/-
  `Ccl.GridBarrier`: the rendezvous of the blocks of one grid.

  Source: tmb/ccl/include/nccl_device/lsa_barrier.mojo (`grid_barrier`) and its
  callers, which leave the kernel when a call returns False.

  A block is its thread 0: the other threads of the block wait for it at the
  block barriers around the call.  An abort and a deadline are answers of the
  environment.  Fault records are left out.
-/
import Mathlib.Algebra.Group.Nat.Defs
import TorchMojoBackend.Foundation.Transition
import Mathlib.Data.Fintype.Card

set_option autoImplicit false

namespace TorchMojoBackend.Ccl.GridBarrier

open TorchMojoBackend.Foundation

variable {n : Nat}

/-! ## The barrier -/

/-- Spins between two looks at the poison word, the abort word and the clock. -/
def SPIN_CHECK : Nat := 4096

/-- Where the thread that runs the barrier for a block is. -/
inductive Pc where
  /-- Between two calls. -/
  | out
  | entered
  /-- The sense was read. -/
  | loaded (seen : Nat)
  /-- Last in: to reset the counter, then to bump the sense. -/
  | resetting (seen : Nat)
  | bumping (seen : Nat)
  | polling (seen spins : Nat)
  /-- The slow path of the spin. -/
  | readPoison (seen : Nat)
  | readAbort (seen : Nat)
  | readClock (seen : Nat)
  /-- Released: to read the poison word once more. -/
  | released
  /-- The call returned False. -/
  | stopped
  deriving DecidableEq, Repr

/-- A block: where it is, and how many of its calls returned True. -/
structure Block where
  pc : Pc
  calls : Nat
  deriving DecidableEq, Repr

/-- The words of the region, and the blocks. -/
structure State (n : Nat) where
  arrive : Nat
  release : Nat
  poison : Nat
  /-- History: how often the sense was bumped. -/
  rounds : Nat
  blocks : Fin n → Block

inductive Event (n : Nat) where
  | enter (b : Fin n)
  | load (b : Fin n)
  | arrive (b : Fin n)
  | reset (b : Fin n)
  | bump (b : Fin n)
  | poll (b : Fin n)
  | readPoison (b : Fin n)
  | readAbort (b : Fin n) (raised : Bool)
  | readClock (b : Fin n) (late : Bool)
  | leave (b : Fin n)
  /-- Somebody writes the poison word. -/
  | writePoison (v : Nat)
  deriving DecidableEq, Repr

/-- The block an event belongs to. -/
def Event.block? : Event n → Option (Fin n)
  | .enter b | .load b | .arrive b | .reset b | .bump b | .poll b | .readPoison b
  | .readAbort b _ | .readClock b _ | .leave b => some b
  | .writePoison _ => none

/-- Move a block to another point of the call. -/
def State.goto (s : State n) (b : Fin n) (pc : Pc) : State n :=
  { s with blocks := Function.update s.blocks b { s.blocks b with pc := pc } }

/-- One atomic step.  Every block makes `calls` calls in the launch. -/
def barrierStep (calls : Nat) (s : State n) : Event n → Option (State n)
  | .enter b =>
      if (s.blocks b).pc = .out ∧ (s.blocks b).calls < calls then some (s.goto b .entered)
      else none
  | .load b =>
      if (s.blocks b).pc = .entered then some (s.goto b (.loaded s.release)) else none
  | .arrive b =>
      match (s.blocks b).pc with
      | .loaded seen =>
          some ({ s with arrive := s.arrive + 1 }.goto b
            (if s.arrive + 1 = n then .resetting seen else .polling seen 0))
      | _ => none
  | .reset b =>
      match (s.blocks b).pc with
      | .resetting seen => some ({ s with arrive := 0 }.goto b (.bumping seen))
      | _ => none
  | .bump b =>
      match (s.blocks b).pc with
      | .bumping seen =>
          some ({ s with release := (seen + 1) % 2 ^ 64, rounds := s.rounds + 1 }.goto b .released)
      | _ => none
  | .poll b =>
      match (s.blocks b).pc with
      | .polling seen spins =>
          if s.release ≠ seen then some (s.goto b .released)
          else if spins + 1 < SPIN_CHECK then some (s.goto b (.polling seen (spins + 1)))
          else some (s.goto b (.readPoison seen))
      | _ => none
  | .readPoison b =>
      match (s.blocks b).pc with
      | .readPoison seen =>
          some (s.goto b (if s.poison ≠ 0 then .stopped else .readAbort seen))
      | _ => none
  | .readAbort b raised =>
      match (s.blocks b).pc with
      | .readAbort seen => some (s.goto b (if raised then .stopped else .readClock seen))
      | _ => none
  | .readClock b late =>
      match (s.blocks b).pc with
      | .readClock seen => some (s.goto b (if late then .stopped else .polling seen 0))
      | _ => none
  | .leave b =>
      if (s.blocks b).pc = .released then
        if s.poison ≠ 0 then some (s.goto b .stopped)
        else some { s with
          blocks := Function.update s.blocks b ⟨.out, (s.blocks b).calls + 1⟩ }
      else none
  | .writePoison v => some { s with poison := v }

/-- The blocks of one launch: no block has arrived, the sense is whatever the launch
before left. -/
def grid (n calls : Nat) : System (State n) (Event n) where
  Init s := s.arrive = 0 ∧ s.release < 2 ^ 64 ∧ s.rounds = 0 ∧ s.blocks = fun _ => ⟨.out, 0⟩
  next := barrierStep calls

/-! ## Entered and arrived -/

/-- Inside a call, or stopped in it. -/
def Pc.inCall : Pc → Nat
  | .out => 0
  | _ => 1

/-- The arrival of the current call was counted. -/
def Pc.counted : Pc → Nat
  | .out | .entered | .loaded _ => 0
  | _ => 1

/-- How many calls a block has entered. -/
def Block.entered (b : Block) : Nat := b.calls + b.pc.inCall

/-- How many of its arrivals were counted. -/
def Block.arrivals (b : Block) : Nat := b.calls + b.pc.counted

/-- The last arriver, before it has bumped the sense. -/
def Pc.last : Pc → Bool
  | .resetting _ | .bumping _ => true
  | _ => false

theorem Block.arrivals_le_entered (b : Block) : b.arrivals ≤ b.entered := by
  unfold Block.arrivals Block.entered
  cases b.pc <;> simp [Pc.counted, Pc.inCall]

/-- The blocks that have arrived for call `k`. -/
def State.arrived (s : State n) (k : Nat) : Finset (Fin n) :=
  Finset.univ.filter fun b => (s.blocks b).arrivals = k

theorem State.mem_arrived {s : State n} {k : Nat} {b : Fin n} :
    b ∈ s.arrived k ↔ (s.blocks b).arrivals = k := by
  unfold State.arrived
  rw [Finset.mem_filter]
  exact and_iff_right (Finset.mem_univ b)

/-! ## The invariant -/

/-- What a block has seen, when the sense was bumped `rounds` times from `start` on. -/
def Block.Fits (start rounds : Nat) (b : Block) : Prop :=
  match b.pc with
  | .out | .entered => b.calls = rounds
  | .loaded seen => b.calls = rounds ∧ seen = (start + rounds) % 2 ^ 64
  | .resetting seen | .bumping seen => b.calls = rounds ∧ seen = (start + rounds) % 2 ^ 64
  | .polling seen _ | .readPoison seen | .readAbort seen | .readClock seen =>
      (b.calls = rounds ∨ b.calls + 1 = rounds) ∧ seen = (start + b.calls) % 2 ^ 64
  | .released => b.calls + 1 = rounds
  | .stopped => b.calls = rounds ∨ b.calls + 1 = rounds

/-- The invariant of the barrier. -/
structure State.Valid (start : Nat) (s : State n) : Prop where
  release : s.release = (start + s.rounds) % 2 ^ 64
  fits : ∀ b, (s.blocks b).Fits start s.rounds
  /-- The counter counts the arrivals of the call in progress. -/
  counter : (∀ b, (s.blocks b).pc.last = false) → s.arrive = (s.arrived (s.rounds + 1)).card
  short : 0 < n → (∀ b, (s.blocks b).pc.last = false) → s.arrive < n
  resetting : ∀ b seen, (s.blocks b).pc = .resetting seen → s.arrive = n
  bumping : ∀ b seen, (s.blocks b).pc = .bumping seen → s.arrive = 0
  /-- Everybody has arrived when the last arriver resets and bumps. -/
  all_in : ∀ b, (s.blocks b).pc.last = true → ∀ d, (s.blocks d).arrivals = s.rounds + 1
  last_unique : ∀ b d, (s.blocks b).pc.last = true → (s.blocks d).pc.last = true → b = d

@[simp] theorem State.goto_blocks_self (s : State n) (b : Fin n) (pc : Pc) :
    (s.goto b pc).blocks b = { s.blocks b with pc := pc } :=
  Function.update_self ..

theorem State.goto_blocks_of_ne (s : State n) {b d : Fin n} (pc : Pc) (h : d ≠ b) :
    (s.goto b pc).blocks d = s.blocks d :=
  Function.update_of_ne h ..

/-- Before its arrival a block has made as many arrivals as the sense was bumped. -/
theorem Block.Fits.arrivals {start rounds : Nat} {b : Block} (h : b.Fits start rounds) :
    b.arrivals = rounds ∨ b.arrivals = rounds + 1 := by
  unfold Block.Fits at h
  unfold Block.arrivals
  cases hpc : b.pc <;> simp only [hpc] at h <;> simp only [Pc.counted] <;> omega

variable {start : Nat} {s t : State n}

/-- A step of block `b` that changes nothing the others look at. -/
theorem State.Valid.move (h : s.Valid start) {b : Fin n} {pc : Pc}
    (hfits : Block.Fits start s.rounds { s.blocks b with pc := pc })
    (hcounted : pc.counted = (s.blocks b).pc.counted)
    (hlast : pc.last = false) (hlast' : (s.blocks b).pc.last = false) :
    (s.goto b pc).Valid start := by
  have harrivals : ∀ d, ((s.goto b pc).blocks d).arrivals = (s.blocks d).arrivals := by
    intro d
    by_cases hd : d = b
    · subst hd
      rw [s.goto_blocks_self]
      unfold Block.arrivals
      rw [hcounted]
    · rw [s.goto_blocks_of_ne pc hd]
  have hlasts : ∀ d, ((s.goto b pc).blocks d).pc.last = (s.blocks d).pc.last := by
    intro d
    by_cases hd : d = b
    · subst hd
      rw [s.goto_blocks_self, hlast']
      exact hlast
    · rw [s.goto_blocks_of_ne pc hd]
  have harrived : ∀ k, (s.goto b pc).arrived k = s.arrived k := by
    intro k
    ext d
    rw [State.mem_arrived, State.mem_arrived, harrivals]
  have hother : ∀ d, ((s.goto b pc).blocks d).pc.last = true →
      (s.goto b pc).blocks d = s.blocks d := by
    intro d hd
    by_cases hdb : d = b
    · subst hdb
      rw [hlasts, hlast'] at hd
      cases hd
    · exact s.goto_blocks_of_ne pc hdb
  refine ⟨h.release, ?_, ?_, ?_, ?_, ?_, ?_, ?_⟩
  · intro d
    by_cases hd : d = b
    · subst hd
      rw [s.goto_blocks_self]
      exact hfits
    · rw [s.goto_blocks_of_ne pc hd]
      exact h.fits d
  · intro hnone
    rw [show (s.goto b pc).rounds = s.rounds from rfl, harrived]
    exact h.counter fun d => hlasts d ▸ hnone d
  · intro hn hnone
    exact h.short hn fun d => hlasts d ▸ hnone d
  · intro d seen hd
    rw [hother d (by rw [hd]; rfl)] at hd
    exact h.resetting d seen hd
  · intro d seen hd
    rw [hother d (by rw [hd]; rfl)] at hd
    exact h.bumping d seen hd
  · intro d hd e
    rw [hlasts] at hd
    rw [harrivals]
    exact h.all_in d hd e
  · intro d e hd he
    rw [hlasts] at hd he
    exact h.last_unique d e hd he

/-- While a block is still to arrive, no other block is the last one. -/
theorem State.Valid.no_last (h : s.Valid start) {b : Fin n}
    (hb : (s.blocks b).arrivals = s.rounds) : ∀ d, (s.blocks d).pc.last = false := by
  intro d
  by_contra hd
  have hall := h.all_in d (Bool.of_not_eq_false hd) b
  omega

/-- An arrival counts for the call in progress. -/
theorem State.Valid.arrive (h : s.Valid start) {b : Fin n} {seen : Nat}
    (hpc : (s.blocks b).pc = .loaded seen) :
    State.Valid start ({ s with arrive := s.arrive + 1 }.goto b
      (if s.arrive + 1 = n then .resetting seen else .polling seen 0)) := by
  have hfits := h.fits b
  unfold Block.Fits at hfits
  rw [hpc] at hfits
  obtain ⟨hcalls, hseen⟩ := hfits
  have harr : (s.blocks b).arrivals = s.rounds := by
    unfold Block.arrivals
    rw [hpc]
    exact hcalls
  have hnone := h.no_last harr
  have hcounter := h.counter hnone
  generalize hpc' : (if s.arrive + 1 = n then Pc.resetting seen else .polling seen 0) = pc
  have hcounted : pc.counted = 1 := by
    rw [← hpc']
    split <;> rfl
  generalize hu : ({ s with arrive := s.arrive + 1 }.goto b pc : State n) = u
  have hself : u.blocks b = { s.blocks b with pc := pc } := by
    rw [← hu]
    exact Function.update_self ..
  have hothers : ∀ d, d ≠ b → u.blocks d = s.blocks d := by
    intro d hd
    rw [← hu]
    exact Function.update_of_ne hd ..
  have hrounds : u.rounds = s.rounds := by rw [← hu]; rfl
  have harrive : u.arrive = s.arrive + 1 := by rw [← hu]; rfl
  have hb : (u.blocks b).arrivals = s.rounds + 1 := by
    rw [hself]
    unfold Block.arrivals
    rw [hcounted]
    show (s.blocks b).calls + 1 = _
    omega
  have hinsert : u.arrived (s.rounds + 1) = insert b (s.arrived (s.rounds + 1)) := by
    ext d
    rw [Finset.mem_insert, State.mem_arrived, State.mem_arrived]
    by_cases hd : d = b
    · subst hd
      exact ⟨fun _ => Or.inl rfl, fun _ => hb⟩
    · rw [hothers d hd]
      exact ⟨Or.inr, fun h => h.resolve_left hd⟩
  have hcard : (u.arrived (s.rounds + 1)).card = s.arrive + 1 := by
    rw [hinsert, Finset.card_insert_of_notMem, ← hcounter]
    rw [State.mem_arrived]
    omega
  have hle : s.arrive + 1 ≤ n := by
    rw [← hcard]
    exact Nat.le_trans (Finset.card_le_univ _) (Nat.le_of_eq (Fintype.card_fin n))
  have hlast_b : ∀ d, (u.blocks d).pc.last = true → d = b ∧ s.arrive + 1 = n := by
    intro d hd
    have hdb : d = b := by
      by_contra hne
      rw [hothers d hne, hnone d] at hd
      cases hd
    subst hdb
    rw [hself] at hd
    refine ⟨rfl, ?_⟩
    by_contra hne
    rw [if_neg hne] at hpc'
    rw [← hpc'] at hd
    cases hd
  refine ⟨?_, ?_, ?_, ?_, ?_, ?_, ?_, ?_⟩
  · rw [hrounds, ← hu]
    exact h.release
  · intro d
    rw [hrounds]
    by_cases hd : d = b
    · subst hd
      rw [hself, ← hpc']
      split
      · exact ⟨hcalls, hseen⟩
      · exact ⟨Or.inl hcalls, hcalls ▸ hseen⟩
    · rw [hothers d hd]
      exact h.fits d
  · intro _
    rw [hrounds, hcard, harrive]
  · intro _ hno
    rw [harrive]
    refine Nat.lt_of_le_of_ne hle fun heq => ?_
    have := hno b
    rw [hself, ← hpc', if_pos heq] at this
    cases this
  · intro d sn hd
    rw [harrive]
    exact (hlast_b d (by rw [hd]; rfl)).2
  · intro d sn hd
    have hdb := (hlast_b d (by rw [hd]; rfl)).1
    subst hdb
    rw [hself, ← hpc'] at hd
    split at hd <;> cases hd
  · intro d hd e
    rw [hrounds]
    -- All `n` blocks are in the set of those that arrived.
    have hfull : u.arrived (s.rounds + 1) = Finset.univ := by
      apply Finset.eq_univ_of_card
      rw [hcard, Fintype.card_fin]
      exact (hlast_b d hd).2
    have he : e ∈ u.arrived (s.rounds + 1) := by
      rw [hfull]
      exact Finset.mem_univ e
    exact State.mem_arrived.mp he
  · intro d e hd he
    rw [(hlast_b d hd).1, (hlast_b e he).1]

/-- The counter is reset while every block waits in the call. -/
theorem State.Valid.reset (h : s.Valid start) {b : Fin n} {seen : Nat}
    (hpc : (s.blocks b).pc = .resetting seen) :
    State.Valid start ({ s with arrive := 0 }.goto b (.bumping seen)) := by
  have hlast : (s.blocks b).pc.last = true := by rw [hpc]; rfl
  have hfits := h.fits b
  have hall := h.all_in b hlast
  have hself := ({ s with arrive := 0 } : State n).goto_blocks_self b (.bumping seen)
  have hothers := fun d => ({ s with arrive := 0 } : State n).goto_blocks_of_ne
    (b := b) (d := d) (.bumping seen)
  have hlast_b : ∀ d, ((({ s with arrive := 0 } : State n).goto b
      (.bumping seen)).blocks d).pc.last = true → d = b := by
    intro d hd
    by_contra hne
    rw [hothers d hne] at hd
    exact hne (h.last_unique d b hd hlast)
  refine ⟨h.release, ?_, ?_, ?_, ?_, ?_, ?_, ?_⟩
  · intro d
    by_cases hd : d = b
    · subst hd
      rw [hself]
      unfold Block.Fits at hfits ⊢
      rw [hpc] at hfits
      exact hfits
    · rw [hothers d hd]
      exact h.fits d
  · intro hno
    have := hno b
    rw [hself] at this
    cases this
  · intro _ hno
    have := hno b
    rw [hself] at this
    cases this
  · intro d sn hd
    have hdb := hlast_b d (by rw [hd]; rfl)
    subst hdb
    rw [hself] at hd
    cases hd
  · intro d sn _
    rfl
  · intro d _ e
    by_cases he : e = b
    · subst he
      rw [hself]
      have := hall e
      unfold Block.arrivals at this ⊢
      rw [hpc] at this
      exact this
    · rw [hothers e he]
      exact hall e
  · intro d e hd he
    rw [hlast_b d hd, hlast_b e he]

/-- The sense is bumped: the call is complete. -/
theorem State.Valid.bump (h : s.Valid start) {b : Fin n} {seen : Nat}
    (hpc : (s.blocks b).pc = .bumping seen) :
    State.Valid start ({ s with release := (seen + 1) % 2 ^ 64, rounds := s.rounds + 1 }.goto b
      .released) := by
  have hlast : (s.blocks b).pc.last = true := by rw [hpc]; rfl
  have hfits := h.fits b
  have hall := h.all_in b hlast
  have harrive := h.bumping b seen hpc
  unfold Block.Fits at hfits
  rw [hpc] at hfits
  obtain ⟨hcalls, hseen⟩ := hfits
  generalize hu :
      (({ s with release := (seen + 1) % 2 ^ 64, rounds := s.rounds + 1 } : State n).goto
    b .released) = u
  have hself : u.blocks b = { s.blocks b with pc := .released } := by
    rw [← hu]
    exact Function.update_self ..
  have hothers : ∀ d, d ≠ b → u.blocks d = s.blocks d := by
    intro d hd
    rw [← hu]
    exact Function.update_of_ne hd ..
  have hrounds : u.rounds = s.rounds + 1 := by rw [← hu]; rfl
  have hcount : u.arrive = 0 := by rw [← hu]; exact harrive
  have hno : ∀ d, (u.blocks d).pc.last = false := by
    intro d
    by_cases hd : d = b
    · subst hd
      rw [hself]
      rfl
    · rw [hothers d hd]
      by_contra hne
      exact hd (h.last_unique d b (Bool.of_not_eq_false hne) hlast)
  have harrivals : ∀ d, (u.blocks d).arrivals = s.rounds + 1 := by
    intro d
    by_cases hd : d = b
    · subst hd
      have := hall d
      rw [hself]
      unfold Block.arrivals at this ⊢
      rw [hpc] at this
      exact this
    · rw [hothers d hd]
      exact hall d
  refine ⟨?_, ?_, ?_, ?_, ?_, ?_, ?_, ?_⟩
  · rw [hrounds, ← hu]
    show (seen + 1) % 2 ^ 64 = _
    omega
  · intro d
    rw [hrounds]
    by_cases hd : d = b
    · subst hd
      rw [hself]
      show (s.blocks d).calls + 1 = s.rounds + 1
      omega
    · -- The others have arrived, so they wait for this bump or have given up.
      have harr := hall d
      have hd' := h.fits d
      have hno' := hno d
      rw [hothers d hd] at hno' ⊢
      unfold Block.Fits at hd' ⊢
      unfold Block.arrivals at harr
      cases hpcd : (s.blocks d).pc <;> rw [hpcd] at hd' harr hno' <;>
        simp only [Pc.counted, Pc.last, Bool.true_eq_false] at hd' harr hno' ⊢ <;> omega
  · intro _
    rw [hcount, hrounds]
    symm
    apply Finset.card_eq_zero.mpr
    apply Finset.eq_empty_of_forall_notMem
    intro d hd
    have := State.mem_arrived.mp hd
    rw [harrivals] at this
    omega
  · intro hn _
    rw [hcount]
    exact hn
  · intro d sn hd
    have := hno d
    rw [hd] at this
    cases this
  · intro d sn _
    exact hcount
  · intro d hd
    rw [hno d] at hd
    cases hd
  · intro d e hd
    rw [hno d] at hd
    cases hd

/-- A block that leaves the barrier is between two calls. -/
theorem State.Valid.leave (h : s.Valid start) {b : Fin n} (hpc : (s.blocks b).pc = .released) :
    State.Valid start { s with
      blocks := Function.update s.blocks b ⟨.out, (s.blocks b).calls + 1⟩ } := by
  have hfits := h.fits b
  unfold Block.Fits at hfits
  rw [hpc] at hfits
  generalize hu : ({ s with
    blocks := Function.update s.blocks b ⟨.out, (s.blocks b).calls + 1⟩ } : State n) = u
  have hself : u.blocks b = ⟨.out, (s.blocks b).calls + 1⟩ := by
    rw [← hu]
    exact Function.update_self ..
  have hothers : ∀ d, d ≠ b → u.blocks d = s.blocks d := by
    intro d hd
    rw [← hu]
    exact Function.update_of_ne hd ..
  have hsame : u.arrive = s.arrive ∧ u.release = s.release ∧ u.rounds = s.rounds := by
    rw [← hu]
    exact ⟨rfl, rfl, rfl⟩
  obtain ⟨harrive, hrelease, hrounds⟩ := hsame
  have harrivals : ∀ d, (u.blocks d).arrivals = (s.blocks d).arrivals := by
    intro d
    by_cases hd : d = b
    · subst hd
      rw [hself]
      unfold Block.arrivals
      rw [hpc]
      rfl
    · rw [hothers d hd]
  have hlasts : ∀ d, (u.blocks d).pc.last = true → u.blocks d = s.blocks d := by
    intro d hd
    by_cases hdb : d = b
    · subst hdb
      rw [hself] at hd
      cases hd
    · exact hothers d hdb
  have hno : (∀ d, (u.blocks d).pc.last = false) → ∀ d, (s.blocks d).pc.last = false := by
    intro hnone d
    by_cases hdb : d = b
    · subst hdb
      rw [hpc]
      rfl
    · rw [← hothers d hdb]
      exact hnone d
  refine ⟨?_, ?_, ?_, ?_, ?_, ?_, ?_, ?_⟩
  · rw [hrelease, hrounds]
    exact h.release
  · intro d
    rw [hrounds]
    by_cases hd : d = b
    · subst hd
      rw [hself]
      exact hfits
    · rw [hothers d hd]
      exact h.fits d
  · intro hnone
    have heq : u.arrived (s.rounds + 1) = s.arrived (s.rounds + 1) := by
      ext d
      rw [State.mem_arrived, State.mem_arrived, harrivals]
    rw [harrive, hrounds, heq]
    exact h.counter (hno hnone)
  · intro hn hnone
    rw [harrive]
    exact h.short hn (hno hnone)
  · intro d sn hd
    rw [hlasts d (by rw [hd]; rfl)] at hd
    rw [harrive]
    exact h.resetting d sn hd
  · intro d sn hd
    rw [hlasts d (by rw [hd]; rfl)] at hd
    rw [harrive]
    exact h.bumping d sn hd
  · intro d hd e
    rw [hlasts d hd] at hd
    rw [harrivals, hrounds]
    exact h.all_in d hd e
  · intro d e hd he
    rw [hlasts d hd] at hd
    rw [hlasts e he] at he
    exact h.last_unique d e hd he

/-- Every step keeps the invariant. -/
theorem State.Valid.step (h : s.Valid start) {calls : Nat} {ev : Event n}
    (hstep : barrierStep calls s ev = some t) : t.Valid start := by
  cases ev with
  | enter b =>
      obtain ⟨⟨hpc, _⟩, ht⟩ := Option.ite_none_right_eq_some.mp hstep
      cases ht
      have hfits := h.fits b
      unfold Block.Fits at hfits
      rw [hpc] at hfits
      exact h.move hfits (by rw [hpc]; rfl) rfl (by rw [hpc]; rfl)
  | load b =>
      obtain ⟨hpc, ht⟩ := Option.ite_none_right_eq_some.mp hstep
      cases ht
      have hfits := h.fits b
      unfold Block.Fits at hfits
      rw [hpc] at hfits
      exact h.move ⟨hfits, h.release⟩ (by rw [hpc]; rfl) rfl (by rw [hpc]; rfl)
  | arrive b =>
      simp only [barrierStep] at hstep
      split at hstep
      · rename_i seen hpc
        cases hstep
        exact h.arrive hpc
      · cases hstep
  | reset b =>
      simp only [barrierStep] at hstep
      split at hstep
      · rename_i seen hpc
        cases hstep
        exact h.reset hpc
      · cases hstep
  | bump b =>
      simp only [barrierStep] at hstep
      split at hstep
      · rename_i seen hpc
        cases hstep
        exact h.bump hpc
      · cases hstep
  | poll b =>
      simp only [barrierStep] at hstep
      split at hstep
      · rename_i seen spins hpc
        have hfits := h.fits b
        unfold Block.Fits at hfits
        rw [hpc] at hfits
        split at hstep
        · rename_i hne
          cases hstep
          refine h.move ?_ (by rw [hpc]; rfl) rfl (by rw [hpc]; rfl)
          -- The sense has changed, so the call is complete.
          show (s.blocks b).calls + 1 = s.rounds
          obtain ⟨hcalls, hseen⟩ := hfits
          obtain heq | hsucc := hcalls
          · rw [heq, ← h.release] at hseen
            exact absurd hseen.symm hne
          · exact hsucc
        · split at hstep
          · cases hstep
            exact h.move hfits (by rw [hpc]; rfl) rfl (by rw [hpc]; rfl)
          · cases hstep
            exact h.move hfits (by rw [hpc]; rfl) rfl (by rw [hpc]; rfl)
      · cases hstep
  | readPoison b =>
      simp only [barrierStep] at hstep
      split at hstep
      · rename_i seen hpc
        have hfits := h.fits b
        unfold Block.Fits at hfits
        rw [hpc] at hfits
        cases hstep
        split
        · exact h.move hfits.1 (by rw [hpc]; rfl) rfl (by rw [hpc]; rfl)
        · exact h.move hfits (by rw [hpc]; rfl) rfl (by rw [hpc]; rfl)
      · cases hstep
  | readAbort b raised =>
      simp only [barrierStep] at hstep
      split at hstep
      · rename_i seen hpc
        have hfits := h.fits b
        unfold Block.Fits at hfits
        rw [hpc] at hfits
        cases hstep
        split
        · exact h.move hfits.1 (by rw [hpc]; rfl) rfl (by rw [hpc]; rfl)
        · exact h.move hfits (by rw [hpc]; rfl) rfl (by rw [hpc]; rfl)
      · cases hstep
  | readClock b late =>
      simp only [barrierStep] at hstep
      split at hstep
      · rename_i seen hpc
        have hfits := h.fits b
        unfold Block.Fits at hfits
        rw [hpc] at hfits
        cases hstep
        split
        · exact h.move hfits.1 (by rw [hpc]; rfl) rfl (by rw [hpc]; rfl)
        · exact h.move hfits (by rw [hpc]; rfl) rfl (by rw [hpc]; rfl)
      · cases hstep
  | leave b =>
      obtain ⟨hpc, ht⟩ := Option.ite_none_right_eq_some.mp hstep
      split at ht
      · cases ht
        have hfits := h.fits b
        unfold Block.Fits at hfits
        rw [hpc] at hfits
        exact h.move (Or.inr hfits) (by rw [hpc]; rfl) rfl (by rw [hpc]; rfl)
      · cases ht
        exact h.leave hpc
  | writePoison v =>
      cases hstep
      exact { h with }

theorem valid_of_init (s : State n) (calls : Nat) (h : (grid n calls).Init s) :
    s.Valid s.release := by
  obtain ⟨harrive, hrelease, hrounds, hblocks⟩ := h
  have hpc : ∀ b, s.blocks b = ⟨.out, 0⟩ := fun b => by rw [hblocks]
  refine ⟨?_, ?_, ?_, ?_, ?_, ?_, ?_, ?_⟩
  · rw [hrounds, Nat.add_zero, Nat.mod_eq_of_lt hrelease]
  · intro b
    unfold Block.Fits
    rw [hpc, hrounds]
  · intro _
    rw [harrive, hrounds]
    symm
    apply Finset.card_eq_zero.mpr
    apply Finset.eq_empty_of_forall_notMem
    intro b hb
    have := State.mem_arrived.mp hb
    rw [hpc] at this
    cases this
  · intro hn _
    rw [harrive]
    exact hn
  · intro b seen hb
    rw [hpc] at hb
    cases hb
  · intro b seen hb
    rw [hpc] at hb
    cases hb
  · intro b hb
    rw [hpc] at hb
    cases hb
  · intro b d hb
    rw [hpc] at hb
    cases hb

theorem valid_of_reachable {calls : Nat} (hs : (grid n calls).Reachable s) :
    ∃ start, s.Valid start := by
  apply hs.invariant
  · intro s h
    exact ⟨s.release, valid_of_init s calls h⟩
  · rintro s ev t _ ⟨start, h⟩ hnext
    exact ⟨start, h.step hnext⟩

/-! ## What the barrier guarantees -/

/-- No block of a call gets ahead of it, and the counter counts one call at a time. -/
structure State.Correct (s : State n) : Prop where
  /-- A call returned True only after every block has entered it and arrived. -/
  rendezvous : ∀ b d, (s.blocks b).calls ≤ (s.blocks d).arrivals ∧
    (s.blocks b).calls ≤ (s.blocks d).entered
  /-- The next arrival of a block is added to the arrivals of the same call, and nobody
  has arrived for a later one. -/
  counted : ∀ b seen, (s.blocks b).pc = .loaded seen →
    s.arrive = (s.arrived ((s.blocks b).calls + 1)).card ∧
      ∀ d, (s.blocks d).arrivals ≤ (s.blocks b).calls + 1
  /-- The reset drops the `n` arrivals of the call that completes, and no other. -/
  reset : ∀ b seen, (s.blocks b).pc = .resetting seen →
    s.arrive = n ∧ ∀ d, (s.blocks d).arrivals = (s.blocks b).calls + 1
  /-- Nobody arrives between the reset and the bump of the sense. -/
  bumped : ∀ b seen, (s.blocks b).pc = .bumping seen →
    s.arrive = 0 ∧ ∀ d, (s.blocks d).arrivals = (s.blocks b).calls + 1

theorem State.Valid.calls_of_last (h : s.Valid start) {b : Fin n}
    (hb : (s.blocks b).pc.last = true) : (s.blocks b).calls = s.rounds := by
  have hfits := h.fits b
  unfold Block.Fits at hfits
  cases hpc : (s.blocks b).pc <;> rw [hpc] at hfits hb <;> simp only [Pc.last,
    Bool.false_eq_true] at hb
  · exact hfits.1
  · exact hfits.1

theorem State.Valid.correct (h : s.Valid start) : s.Correct := by
  constructor
  · intro b d
    have hb := h.fits b
    have hd := (h.fits d).arrivals
    have hle := (s.blocks d).arrivals_le_entered
    have hcalls : (s.blocks b).calls ≤ s.rounds := by
      unfold Block.Fits at hb
      cases hpc : (s.blocks b).pc <;> rw [hpc] at hb <;> simp only at hb <;> omega
    omega
  · intro b seen hpc
    have hb := h.fits b
    unfold Block.Fits at hb
    rw [hpc] at hb
    have harr : (s.blocks b).arrivals = s.rounds := by
      unfold Block.arrivals
      rw [hpc]
      exact hb.1
    rw [hb.1]
    refine ⟨h.counter (h.no_last harr), fun d => ?_⟩
    have := (h.fits d).arrivals
    omega
  · intro b seen hpc
    have hlast : (s.blocks b).pc.last = true := by rw [hpc]; rfl
    rw [h.calls_of_last hlast]
    exact ⟨h.resetting b seen hpc, h.all_in b hlast⟩
  · intro b seen hpc
    have hlast : (s.blocks b).pc.last = true := by rw [hpc]; rfl
    rw [h.calls_of_last hlast]
    exact ⟨h.bumping b seen hpc, h.all_in b hlast⟩

/-! ## Progress -/

/-- The block spins: the sense it waits to see change has not changed. -/
def State.Waiting (s : State n) (b : Fin n) : Prop :=
  match (s.blocks b).pc with
  | .polling seen _ | .readPoison seen | .readAbort seen | .readClock seen => s.release = seen
  | _ => False

/-- No poison, no abort, no deadline. -/
def Event.Undisturbed : Event n → Prop
  | .writePoison v => v = 0
  | .readAbort _ raised => raised = false
  | .readClock _ late => late = false
  | _ => True

/-- Every block is done with its calls, or some block that does not wait can step. -/
def State.Live (calls : Nat) (s : State n) : Prop :=
  (∀ b, (s.blocks b).pc = .out ∧ (s.blocks b).calls = calls) ∨
    ∃ b, ¬ s.Waiting b ∧ ∃ ev, ev.block? = some b ∧ (barrierStep calls s ev).isSome = true

/-- What an undisturbed run keeps. -/
structure State.Undisturbed (calls : Nat) (s : State n) : Prop where
  poison : s.poison = 0
  running : ∀ b, (s.blocks b).pc ≠ .stopped
  calls_le : ∀ b, (s.blocks b).calls ≤ calls
  calls_lt : ∀ b, (s.blocks b).pc ≠ .out → (s.blocks b).calls < calls

theorem State.Undisturbed.goto {calls : Nat} {u : State n} (h : s.Undisturbed calls) {b : Fin n}
    {pc : Pc} (hpoison : u.poison = 0) (hblocks : u.blocks = s.blocks) (hpc : pc ≠ .stopped)
    (hlt : (s.blocks b).calls < calls) : (u.goto b pc).Undisturbed calls := by
  have hself : (u.goto b pc).blocks b = { s.blocks b with pc := pc } := by
    rw [u.goto_blocks_self, hblocks]
  have hothers : ∀ d, d ≠ b → (u.goto b pc).blocks d = s.blocks d := by
    intro d hd
    rw [u.goto_blocks_of_ne pc hd, hblocks]
  refine ⟨hpoison, ?_, ?_, ?_⟩
  · intro d
    by_cases hd : d = b
    · subst hd
      rw [hself]
      exact hpc
    · rw [hothers d hd]
      exact h.running d
  · intro d
    by_cases hd : d = b
    · subst hd
      rw [hself]
      exact h.calls_le d
    · rw [hothers d hd]
      exact h.calls_le d
  · intro d
    by_cases hd : d = b
    · subst hd
      rw [hself]
      exact fun _ => hlt
    · rw [hothers d hd]
      exact h.calls_lt d

/-- Without disturbance no block stops. -/
theorem State.Undisturbed.step {calls : Nat} {ev : Event n} (h : s.Undisturbed calls)
    (hclean : ev.Undisturbed) (hstep : barrierStep calls s ev = some t) : t.Undisturbed calls := by
  have hlt : ∀ {b pc}, (s.blocks b).pc = pc → pc ≠ .out → (s.blocks b).calls < calls :=
    fun hpc hne => h.calls_lt _ (hpc ▸ hne)
  cases ev with
  | enter b =>
      obtain ⟨⟨_, hcalls⟩, ht⟩ := Option.ite_none_right_eq_some.mp hstep
      cases ht
      exact h.goto h.poison rfl (by simp) hcalls
  | load b =>
      obtain ⟨hpc, ht⟩ := Option.ite_none_right_eq_some.mp hstep
      cases ht
      exact h.goto h.poison rfl (by simp) (hlt hpc (by simp))
  | arrive b =>
      simp only [barrierStep] at hstep
      split at hstep
      · rename_i seen hpc
        cases hstep
        refine h.goto h.poison rfl ?_ (hlt hpc (by simp))
        split <;> simp
      · cases hstep
  | reset b =>
      simp only [barrierStep] at hstep
      split at hstep
      · rename_i seen hpc
        cases hstep
        exact h.goto h.poison rfl (by simp) (hlt hpc (by simp))
      · cases hstep
  | bump b =>
      simp only [barrierStep] at hstep
      split at hstep
      · rename_i seen hpc
        cases hstep
        exact h.goto h.poison rfl (by simp) (hlt hpc (by simp))
      · cases hstep
  | poll b =>
      simp only [barrierStep] at hstep
      split at hstep
      · rename_i seen spins hpc
        have hcalls := hlt hpc (by simp)
        split at hstep
        · cases hstep
          exact h.goto h.poison rfl (by simp) hcalls
        · split at hstep
          · cases hstep
            exact h.goto h.poison rfl (by simp) hcalls
          · cases hstep
            exact h.goto h.poison rfl (by simp) hcalls
      · cases hstep
  | readPoison b =>
      simp only [barrierStep] at hstep
      split at hstep
      · rename_i seen hpc
        cases hstep
        rw [if_neg (not_not_intro h.poison)]
        exact h.goto h.poison rfl (by simp) (hlt hpc (by simp))
      · cases hstep
  | readAbort b raised =>
      obtain rfl : raised = false := hclean
      simp only [barrierStep] at hstep
      split at hstep
      · rename_i seen hpc
        cases hstep
        exact h.goto h.poison rfl (by simp) (hlt hpc (by simp))
      · cases hstep
  | readClock b late =>
      obtain rfl : late = false := hclean
      simp only [barrierStep] at hstep
      split at hstep
      · rename_i seen hpc
        cases hstep
        exact h.goto h.poison rfl (by simp) (hlt hpc (by simp))
      · cases hstep
  | leave b =>
      obtain ⟨hpc, ht⟩ := Option.ite_none_right_eq_some.mp hstep
      rw [if_neg (not_not_intro h.poison)] at ht
      cases ht
      have hcalls := hlt hpc (by simp)
      refine ⟨h.poison, ?_, ?_, ?_⟩ <;> intro d <;> by_cases hd : d = b
      · subst hd
        simp
      · simpa [Function.update_of_ne hd] using h.running d
      · subst hd
        simpa using Nat.succ_le_of_lt hcalls
      · simpa [Function.update_of_ne hd] using h.calls_le d
      · subst hd
        simp
      · simpa [Function.update_of_ne hd] using h.calls_lt d
  | writePoison v =>
      cases hstep
      exact { h with poison := hclean }

/-- A block that neither waits nor is done can step. -/
theorem State.Undisturbed.can_step {calls : Nat} (h : s.Undisturbed calls) {b : Fin n}
    (hwait : ¬ s.Waiting b) (hdone : ¬ ((s.blocks b).pc = .out ∧ (s.blocks b).calls = calls)) :
    ∃ ev, ev.block? = some b ∧ (barrierStep calls s ev).isSome = true := by
  unfold State.Waiting at hwait
  cases hpc : (s.blocks b).pc with
  | out =>
      have hle := h.calls_le b
      rw [hpc] at hdone
      have hlt : (s.blocks b).calls < calls :=
        Nat.lt_of_le_of_ne hle fun heq => hdone ⟨rfl, heq⟩
      refine ⟨.enter b, rfl, ?_⟩
      simp only [barrierStep, if_pos (And.intro hpc hlt), Option.isSome_some]
  | entered => exact ⟨.load b, rfl, by simp only [barrierStep, if_pos hpc, Option.isSome_some]⟩
  | loaded seen => exact ⟨.arrive b, rfl, by simp only [barrierStep, hpc, Option.isSome_some]⟩
  | resetting seen => exact ⟨.reset b, rfl, by simp only [barrierStep, hpc, Option.isSome_some]⟩
  | bumping seen => exact ⟨.bump b, rfl, by simp only [barrierStep, hpc, Option.isSome_some]⟩
  | polling seen spins =>
      rw [hpc] at hwait
      refine ⟨.poll b, rfl, ?_⟩
      simp only [barrierStep, hpc]
      rw [if_pos hwait]
      rfl
  | readPoison seen =>
      exact ⟨.readPoison b, rfl, by simp only [barrierStep, hpc, Option.isSome_some]⟩
  | readAbort seen =>
      exact ⟨.readAbort b false, rfl, by simp only [barrierStep, hpc, Option.isSome_some]⟩
  | readClock seen =>
      exact ⟨.readClock b false, rfl, by simp only [barrierStep, hpc, Option.isSome_some]⟩
  | released =>
      refine ⟨.leave b, rfl, ?_⟩
      simp only [barrierStep, if_pos hpc, if_neg (not_not_intro h.poison), Option.isSome_some]
  | stopped => exact absurd hpc (h.running b)

/-- A block that waits has arrived for the call in progress. -/
theorem State.Valid.arrivals_of_waiting (h : s.Valid start) {b : Fin n} (hwait : s.Waiting b) :
    (s.blocks b).calls = s.rounds ∧ (s.blocks b).arrivals = s.rounds + 1 ∧
      (s.blocks b).pc.last = false ∧ (s.blocks b).pc ≠ .out := by
  have hfits := h.fits b
  have hrelease := h.release
  unfold State.Waiting at hwait
  unfold Block.Fits at hfits
  unfold Block.arrivals
  cases hpc : (s.blocks b).pc <;> rw [hpc] at hwait hfits <;>
    simp only [Pc.counted, Pc.last, ne_eq, reduceCtorEq, not_false_eq_true,
      and_true] at hwait hfits ⊢ <;> omega

theorem State.Valid.live (h : s.Valid start) {calls : Nat} (hu : s.Undisturbed calls) :
    s.Live calls := by
  by_contra hdead
  unfold State.Live at hdead
  rw [not_or] at hdead
  obtain ⟨hdone, hstuck⟩ := hdead
  have hall : ∀ b, s.Waiting b ∨ (s.blocks b).pc = .out ∧ (s.blocks b).calls = calls := by
    intro b
    by_contra hb
    rw [not_or] at hb
    exact hstuck ⟨b, hb.1, hu.can_step hb.1 hb.2⟩
  -- Some block waits, for a call that no block has completed.
  obtain ⟨b, hb⟩ := not_forall.mp hdone
  have hwait := (hall b).resolve_right hb
  obtain ⟨hcalls, _, _, hin⟩ := h.arrivals_of_waiting hwait
  have hlt := hu.calls_lt b hin
  have hwaits : ∀ d, s.Waiting d := by
    intro d
    refine (hall d).resolve_right ?_
    rintro ⟨hpc, hd⟩
    have hfits := h.fits d
    unfold Block.Fits at hfits
    rw [hpc] at hfits
    simp only at hfits
    omega
  have hnone : ∀ d, (s.blocks d).pc.last = false := fun d =>
    (h.arrivals_of_waiting (hwaits d)).2.2.1
  have hfull : s.arrived (s.rounds + 1) = Finset.univ := by
    apply Finset.eq_univ_of_forall
    intro d
    exact State.mem_arrived.mpr (h.arrivals_of_waiting (hwaits d)).2.1
  have hcounter := h.counter hnone
  have hshort := h.short (Fin.pos b) hnone
  rw [hfull, Finset.card_univ, Fintype.card_fin] at hcounter
  omega

/-- The barrier is a rendezvous in every run of a launch, and without disturbance no
reachable state has all blocks waiting. -/
theorem grid_barrier_rendezvous {calls : Nat} {s₀ s : State n} {es : List (Event n)}
    (hinit : (grid n calls).Init s₀) (hrun : (grid n calls).run s₀ es = some s) :
    s.Correct ∧ (s₀.poison = 0 → (∀ ev, ev ∈ es → ev.Undisturbed) → s.Live calls) := by
  have hvalid : s.Valid s₀.release := by
    refine (grid n calls).run_induction (P := fun _ s => s.Valid s₀.release)
      (valid_of_init s₀ calls hinit) ?_ hrun
    intro es s ev t _ h hnext
    exact h.step hnext
  refine ⟨hvalid.correct, fun hpoison hclean => hvalid.live ?_⟩
  obtain ⟨_, _, _, hblocks⟩ := hinit
  refine (grid n calls).run_induction
    (P := fun es s => (∀ ev, ev ∈ es → ev.Undisturbed) → s.Undisturbed calls) ?_ ?_ hrun hclean
  · intro _
    refine ⟨hpoison, ?_, ?_, ?_⟩ <;> intro b <;> rw [hblocks]
    · simp
    · exact Nat.zero_le calls
    · exact fun hne => absurd rfl hne
  · intro es s ev t _ ih hnext hall
    have hs := ih fun e he => hall e (List.mem_append_left _ he)
    exact hs.step (hall ev (List.mem_append_right _ List.mem_cons_self)) hnext

/-- The start of a launch of two blocks. -/
def launch : State 2 where
  arrive := 0
  release := 2 ^ 64 - 1
  poison := 0
  rounds := 0
  blocks _ := ⟨.out, 0⟩

/-- Two blocks pass a barrier; one is in the next while the other still leaves. -/
theorem grid_barrier_rendezvous_twoBlocks :
    ∃ s, (grid 2 2).run launch [.enter 0, .load 0, .enter 1, .load 1, .arrive 1, .poll 1,
      .arrive 0, .reset 0, .bump 0, .leave 0, .enter 0, .load 0, .arrive 0] = some s ∧
      (s.blocks 0).calls = 1 ∧ (s.blocks 1).calls = 0 ∧ s.Correct ∧ s.Live 2 := by
  have hrun : ((grid 2 2).run launch [.enter 0, .load 0, .enter 1, .load 1, .arrive 1, .poll 1,
      .arrive 0, .reset 0, .bump 0, .leave 0, .enter 0, .load 0, .arrive 0]).any
      (fun s => decide ((s.blocks 0).calls = 1 ∧ (s.blocks 1).calls = 0)) = true := by
    decide
  obtain ⟨s, hs, hdec⟩ := (Option.any_eq_true _ _).mp hrun
  obtain ⟨h0, h1⟩ := of_decide_eq_true hdec
  have hinit : (grid 2 2).Init launch := ⟨rfl, by decide, rfl, rfl⟩
  obtain ⟨hcorrect, hlive⟩ := grid_barrier_rendezvous hinit hs
  refine ⟨s, hs, h0, h1, hcorrect, hlive rfl ?_⟩
  intro ev hev
  simp only [List.mem_cons, List.not_mem_nil, or_false] at hev
  rcases hev with rfl | rfl | rfl | rfl | rfl | rfl | rfl | rfl | rfl | rfl | rfl | rfl | rfl <;>
    trivial

end TorchMojoBackend.Ccl.GridBarrier
