/-
  `Ccl.NvlsBarrier`: the rendezvous of every block of every rank.

  Source: tmb/ccl/device/all_reduce.mojo (`_nvls_sync`).

  A block is its thread 0.  An addition through the switch reaches the devices one by one,
  in any order.  An abort and a deadline are answers of the environment; fault records are
  left out.  The counters are naturals.
-/
import TorchMojoBackend.Ccl.Nvls
import TorchMojoBackend.Foundation.Transition
import Mathlib.Algebra.BigOperators.Fin
import Mathlib.Algebra.Order.BigOperators.Group.Finset

set_option autoImplicit false

namespace TorchMojoBackend.Ccl.Nvls

open TorchMojoBackend.Foundation

/-! ## The barrier -/

/-- Where a block is. -/
inductive Pc where
  /-- Between two barriers. -/
  | out
  /-- Last of its device: to add to the flags of all devices. -/
  | posting
  /-- Spinning on the flag of its device. -/
  | waiting
  /-- To release the other blocks, having seen the flag or having failed. -/
  | releasing (ok : Bool)
  /-- Spinning on the word of the last block. -/
  | polling
  /-- Left the kernel with an error. -/
  | stopped
  deriving DecidableEq, Repr

/-- A block, and how many of its barriers returned True. -/
structure Block where
  pc : Pc
  passed : Nat
  deriving DecidableEq, Repr

/-- The words in the region of a device, and the blocks of its grid. -/
structure Gpu where
  arrive : Nat
  release : Nat
  flag : Nat
  /-- History: additions sent, and barriers released. -/
  posted : Nat
  released : Nat
  blocks : Nat → Block

def Gpu.setBlock (g : Gpu) (b : Nat) (block : Block) : Gpu :=
  { g with blocks := Function.update g.blocks b block }

def Gpu.goto (g : Gpu) (b : Nat) (pc : Pc) : Gpu := g.setBlock b { g.blocks b with pc := pc }

/-- The store that releases the other blocks. -/
def Gpu.letGo (g : Gpu) (target : Nat) : Gpu :=
  { g with release := target, released := g.released + 1 }

structure State (w : Nat) where
  gpus : Fin w → Gpu
  /-- How many additions of the first rank have reached the second one. -/
  landed : Fin w → Fin w → Nat
  /-- Some block saw the abort word or the deadline. -/
  failed : Bool

def State.put {w : Nat} (s : State w) (r : Fin w) (g : Gpu) : State w :=
  { s with gpus := Function.update s.gpus r g }

inductive Event (w : Nat) where
  | arrive (r : Fin w) (b : Nat)
  | post (r : Fin w) (b : Nat)
  | land (src dst : Fin w)
  | pollFlag (r : Fin w) (b : Nat)
  | release (r : Fin w) (b : Nat)
  | pollRelease (r : Fin w) (b : Nat)
  | giveUp (r : Fin w) (b : Nat)
  deriving DecidableEq, Repr

/-- The grids of the ranks, and the targets their blocks wait for, one after the other. -/
structure Grids (w : Nat) where
  blocks : Fin w → Nat
  waits : Fin w → Nat → List Nat

/-- The target of the barrier a block is at. -/
def Grids.target {w : Nat} (grids : Grids w) (s : State w) (r : Fin w) (b : Nat) : Nat :=
  (grids.waits r b).getD ((s.gpus r).blocks b).passed 0

/-- One atomic step of `_nvls_sync`. -/
def syncStep {w : Nat} (grids : Grids w) (s : State w) : Event w → Option (State w)
  | .arrive r b =>
      let g := s.gpus r
      if b < grids.blocks r ∧ (g.blocks b).pc = .out ∧
          (g.blocks b).passed < (grids.waits r b).length then
        some (s.put r ({ g with arrive := g.arrive + 1 }.goto b
          (if (g.arrive + 1) % grids.blocks r = 0 then .posting else .polling)))
      else none
  | .post r b =>
      let g := s.gpus r
      if b < grids.blocks r ∧ (g.blocks b).pc = .posting then
        some (s.put r ({ g with posted := g.posted + 1 }.goto b .waiting))
      else none
  | .land src dst =>
      if s.landed src dst < (s.gpus src).posted then
        some { s with
          gpus := Function.update s.gpus dst { s.gpus dst with flag := (s.gpus dst).flag + 1 }
          landed := Function.update s.landed src
            (Function.update (s.landed src) dst (s.landed src dst + 1)) }
      else none
  | .pollFlag r b =>
      let g := s.gpus r
      if b < grids.blocks r ∧ (g.blocks b).pc = .waiting then
        if g.flag < grids.target s r b then some s
        else some (s.put r (g.goto b (.releasing true)))
      else none
  | .release r b =>
      let g := s.gpus r
      let g' := g.letGo (grids.target s r b)
      if b < grids.blocks r ∧ (g.blocks b).pc = .releasing true then
        some (s.put r (g'.setBlock b ⟨.out, (g.blocks b).passed + 1⟩))
      else if b < grids.blocks r ∧ (g.blocks b).pc = .releasing false then
        some (s.put r (g'.goto b .stopped))
      else none
  | .pollRelease r b =>
      let g := s.gpus r
      if b < grids.blocks r ∧ (g.blocks b).pc = .polling then
        if g.release < grids.target s r b then some s
        else some (s.put r (g.setBlock b ⟨.out, (g.blocks b).passed + 1⟩))
      else none
  | .giveUp r b =>
      let g := s.gpus r
      if b < grids.blocks r ∧ (g.blocks b).pc = .waiting then
        some { s.put r (g.goto b (.releasing false)) with failed := true }
      else if b < grids.blocks r ∧ (g.blocks b).pc = .polling then
        some { s.put r (g.goto b .stopped) with failed := true }
      else none

/-- The devices from the zeroed regions on. -/
def rendezvous {w : Nat} (grids : Grids w) : System (State w) (Event w) where
  Init s := (∀ r, s.gpus r = ⟨0, 0, 0, 0, 0, fun _ => ⟨.out, 0⟩⟩) ∧ (∀ r q, s.landed r q = 0) ∧
    s.failed = false
  next := syncStep grids

/-! ## One device -/

/-- The last block of a device, until it has released the others. -/
def Pc.leads : Pc → Bool
  | .posting | .waiting | .releasing _ => true
  | _ => false

/-- It has added to the flags. -/
def Pc.hasPosted : Pc → Bool
  | .waiting | .releasing _ => true
  | _ => false

def Pc.inCall : Pc → Nat
  | .out => 0
  | _ => 1

/-- How many barriers a block has arrived at. -/
def Block.arrived (b : Block) : Nat := b.passed + b.pc.inCall

/-- Where a block can be, in a run of `n` barriers without a failure. -/
def Block.Fits (n released posted : Nat) (b : Block) : Prop :=
  match b.pc with
  | .out => b.passed = released ∧ b.passed ≤ n
  | .polling => (b.passed = released ∨ b.passed + 1 = released) ∧ b.passed < n
  | .posting => b.passed = released ∧ b.passed < n ∧ posted = released
  | .waiting | .releasing true => b.passed = released ∧ b.passed < n ∧ posted = released + 1
  | .releasing false | .stopped => False

/-- The invariant of a device with `m` blocks. -/
structure Gpu.Valid (w n m : Nat) (g : Gpu) : Prop where
  release : g.release = g.released * w
  arrive : g.arrive = ∑ b ∈ Finset.range m, (g.blocks b).arrived
  fits : ∀ b, b < m → (g.blocks b).Fits n g.released g.posted
  /-- Everybody has arrived when the last block is in. -/
  all_in : ∀ b, b < m → (g.blocks b).pc.leads = true → ∀ d, d < m →
    (g.blocks d).arrived = g.released + 1
  leader_unique : ∀ b d, b < m → d < m → (g.blocks b).pc.leads = true →
    (g.blocks d).pc.leads = true → b = d
  idle : (∀ b, b < m → (g.blocks b).pc.hasPosted = false) → g.posted = g.released

theorem Block.Fits.bounds {n released posted : Nat} {b : Block} (h : b.Fits n released posted) :
    b.passed ≤ released ∧ released ≤ b.arrived ∧ b.arrived ≤ released + 1 ∧ b.arrived ≤ n := by
  unfold Block.Fits at h
  unfold Block.arrived
  cases hpc : b.pc with
  | releasing ok =>
      cases ok with
      | false => simp only [hpc] at h
      | true =>
          simp only [hpc] at h
          simp only [Pc.inCall]
          omega
  | stopped => simp only [hpc] at h
  | _ =>
      simp only [hpc] at h
      simp only [Pc.inCall]
      omega

/-- A block that is not the last one does not look at the count of additions. -/
theorem Block.Fits.posted {n released posted posted' : Nat} {b : Block}
    (h : b.Fits n released posted) (hleads : b.pc.leads = false) : b.Fits n released posted' := by
  unfold Block.Fits at h ⊢
  cases hpc : b.pc <;> rw [hpc] at h hleads <;> first | exact h | cases hleads

namespace Gpu

variable {w n m : Nat} {g : Gpu}

@[simp] theorem setBlock_self (g : Gpu) (b : Nat) (block : Block) :
    (g.setBlock b block).blocks b = block := Function.update_self ..

theorem setBlock_of_ne (g : Gpu) {b d : Nat} (block : Block) (h : d ≠ b) :
    (g.setBlock b block).blocks d = g.blocks d := Function.update_of_ne h ..

/-- The arrivals of all blocks when one of them changes. -/
theorem sum_setBlock (g : Gpu) {b : Nat} (hb : b < m) (block : Block) :
    ∑ d ∈ Finset.range m, ((g.setBlock b block).blocks d).arrived + (g.blocks b).arrived =
      ∑ d ∈ Finset.range m, (g.blocks d).arrived + block.arrived := by
  have hmem := Finset.mem_range.mpr hb
  rw [← Finset.add_sum_erase _ _ hmem, ← Finset.add_sum_erase _ _ hmem, setBlock_self]
  have hrest : ∑ d ∈ (Finset.range m).erase b, ((g.setBlock b block).blocks d).arrived =
      ∑ d ∈ (Finset.range m).erase b, (g.blocks d).arrived :=
    Finset.sum_congr rfl fun d hd => by rw [g.setBlock_of_ne block (Finset.ne_of_mem_erase hd)]
  omega

namespace Valid

/-- While a block is still to arrive, no block is the last one. -/
theorem no_leader (h : g.Valid w n m) {b : Nat} (hb : b < m)
    (hout : (g.blocks b).arrived = g.released) : ∀ d, d < m → (g.blocks d).pc.leads = false := by
  intro d hd
  by_contra hlead
  have hall := h.all_in d hd (Bool.of_not_eq_false hlead) b hb
  omega

theorem posted_le (h : g.Valid w n m) :
    g.released ≤ g.posted ∧ g.posted ≤ g.released + 1 ∧
      ∀ b, b < m → g.posted ≤ (g.blocks b).arrived := by
  by_cases hidle : ∀ b, b < m → (g.blocks b).pc.hasPosted = false
  · have hposted := h.idle hidle
    refine ⟨by omega, by omega, fun b hb => ?_⟩
    have := (h.fits b hb).bounds
    omega
  · obtain ⟨d, hd⟩ := not_forall.mp hidle
    obtain ⟨hd, hpc⟩ := Classical.not_imp.mp hd
    have hfits := h.fits d hd
    have hlead : (g.blocks d).pc.leads = true := by
      cases hcase : (g.blocks d).pc <;> rw [hcase] at hpc <;>
        first | rfl | exact absurd rfl hpc
    have hposted : g.posted = g.released + 1 := by
      unfold Block.Fits at hfits
      cases hcase : (g.blocks d).pc with
      | releasing ok =>
          cases ok with
          | false => simp only [hcase] at hfits
          | true => simp only [hcase] at hfits; exact hfits.2.2
      | waiting => simp only [hcase] at hfits; exact hfits.2.2
      | _ => rw [hcase] at hpc; exact absurd rfl hpc
    refine ⟨by omega, by omega, fun b hb => ?_⟩
    have := h.all_in d hd hlead b hb
    omega

/-- An arrival.  The last one is the one that makes the count a multiple of the grid. -/
theorem step_arrive (h : g.Valid w n m) {b : Nat} (hb : b < m) (hpc : (g.blocks b).pc = .out)
    (hn : (g.blocks b).passed < n) :
    Valid w n m ({ g with arrive := g.arrive + 1 }.goto b
      (if (g.arrive + 1) % m = 0 then .posting else .polling)) := by
  have hfits := h.fits b hb
  unfold Block.Fits at hfits
  rw [hpc] at hfits
  obtain ⟨hpassed, -⟩ := hfits
  have hcount : (g.blocks b).arrived = g.released := by
    unfold Block.arrived
    rw [hpc]
    exact hpassed
  have hnone := h.no_leader hb hcount
  have hposted : g.posted = g.released := by
    refine h.idle fun d hd => ?_
    have hlead := hnone d hd
    cases hcase : (g.blocks d).pc <;> rw [hcase] at hlead <;> first | rfl | cases hlead
  generalize hpc' : (if (g.arrive + 1) % m = 0 then Pc.posting else .polling) = pc
  have hin : pc.inCall = 1 := by
    rw [← hpc']
    split <;> rfl
  generalize hg' : ({ g with arrive := g.arrive + 1 }.goto b pc : Gpu) = g'
  have hself : g'.blocks b = ⟨pc, (g.blocks b).passed⟩ := by
    rw [← hg']
    exact Function.update_self ..
  have hothers : ∀ d, d ≠ b → g'.blocks d = g.blocks d := by
    intro d hd
    rw [← hg']
    exact Function.update_of_ne hd ..
  have hblock : (g'.blocks b).arrived = g.released + 1 := by
    rw [hself]
    unfold Block.arrived
    rw [hin, hpassed]
  have harrive : g'.arrive = ∑ d ∈ Finset.range m, (g'.blocks d).arrived := by
    have hsum := sum_setBlock g hb ⟨pc, (g.blocks b).passed⟩
    have hnew : (⟨pc, (g.blocks b).passed⟩ : Block).arrived = g.released + 1 := hself ▸ hblock
    have hblocks : g'.blocks = (g.setBlock b ⟨pc, (g.blocks b).passed⟩).blocks := by
      rw [← hg']
      rfl
    have harr : g'.arrive = g.arrive + 1 := by
      rw [← hg']
      rfl
    rw [hblocks, harr, h.arrive]
    omega
  have hreleased : g'.released = g.released := by rw [← hg']; rfl
  have hposted' : g'.posted = g.posted := by rw [← hg']; rfl
  have hbounds : ∀ d, d < m → (g'.blocks d).arrived ≤ g.released + 1 ∧
      g.released ≤ (g'.blocks d).arrived := by
    intro d hd
    by_cases hdb : d = b
    · subst hdb
      omega
    · rw [hothers d hdb]
      have := (h.fits d hd).bounds
      omega
  have hfull : pc = .posting → ∀ d, d < m → (g'.blocks d).arrived = g.released + 1 := by
    intro hposting
    have hmod : (g.arrive + 1) % m = 0 := by
      by_contra hne
      rw [if_neg hne] at hpc'
      rw [← hpc'] at hposting
      cases hposting
    have harr : g'.arrive = g.arrive + 1 := by rw [← hg']; rfl
    obtain ⟨q, hq⟩ := Nat.dvd_of_mod_eq_zero hmod
    rw [← harr, harrive] at hq
    have hle : ∑ d ∈ Finset.range m, (g'.blocks d).arrived ≤ ∑ d ∈ Finset.range m, (g.released + 1) :=
      Finset.sum_le_sum fun d hd => (hbounds d (Finset.mem_range.mp hd)).1
    have hlt : ∑ d ∈ Finset.range m, g.released < ∑ d ∈ Finset.range m, (g'.blocks d).arrived :=
      Finset.sum_lt_sum (fun d hd => (hbounds d (Finset.mem_range.mp hd)).2)
        ⟨b, Finset.mem_range.mpr hb, by omega⟩
    have heq : ∑ d ∈ Finset.range m, (g'.blocks d).arrived =
        ∑ d ∈ Finset.range m, (g.released + 1) := by
      refine Nat.le_antisymm hle ?_
      rw [Finset.sum_const, Finset.card_range, smul_eq_mul] at hlt ⊢
      rw [hq] at hlt ⊢
      exact Nat.mul_le_mul_left m (Nat.lt_of_mul_lt_mul_left hlt)
    intro d hd
    exact (Finset.sum_eq_sum_iff_of_le fun d hd => (hbounds d (Finset.mem_range.mp hd)).1).mp heq d
      (Finset.mem_range.mpr hd)
  have hlead : ∀ d, d < m → (g'.blocks d).pc.leads = true → d = b ∧ pc = .posting := by
    intro d hd hleads
    by_cases hdb : d = b
    · subst hdb
      rw [hself] at hleads
      refine ⟨rfl, ?_⟩
      rw [← hpc'] at hleads ⊢
      by_cases hmod : (g.arrive + 1) % m = 0
      · exact if_pos hmod
      · rw [if_neg hmod] at hleads
        cases hleads
    · rw [hothers d hdb, hnone d hd] at hleads
      cases hleads
  refine ⟨?_, harrive, ?_, ?_, ?_, ?_⟩
  · rw [hreleased, ← h.release, ← hg']
    rfl
  · intro d hd
    rw [hreleased, hposted']
    by_cases hdb : d = b
    · subst hdb
      rw [hself, ← hpc']
      by_cases hmod : (g.arrive + 1) % m = 0
      · rw [if_pos hmod]
        exact ⟨hpassed, hn, hposted⟩
      · rw [if_neg hmod]
        exact ⟨.inl hpassed, hn⟩
    · rw [hothers d hdb]
      exact h.fits d hd
  · intro d hd hleads e he
    rw [hreleased]
    exact hfull (hlead d hd hleads).2 e he
  · intro d e hd he hdl hel
    rw [(hlead d hd hdl).1, (hlead e he hel).1]
  · intro _
    rw [hreleased, hposted']
    exact hposted

/-- The last block moves on: it has added to the flags, or its flag is high enough. -/
theorem step_lead (h : g.Valid w n m) (posted : Nat) (pc : Pc) {b : Nat} (hb : b < m)
    (hleads : (g.blocks b).pc.leads = true) (hpc : pc.hasPosted = true) (hin : pc.inCall = 1)
    (hfits : Block.Fits n g.released posted ⟨pc, (g.blocks b).passed⟩) :
    Valid w n m ({ g with posted := posted }.goto b pc) := by
  generalize hg' : ({ g with posted := posted }.goto b pc : Gpu) = g'
  have hself : g'.blocks b = ⟨pc, (g.blocks b).passed⟩ := by
    rw [← hg']
    exact Function.update_self ..
  have hothers : ∀ d, d ≠ b → g'.blocks d = g.blocks d := by
    intro d hd
    rw [← hg']
    exact Function.update_of_ne hd ..
  have hreleased : g'.released = g.released := by rw [← hg']; rfl
  have hposted : g'.posted = posted := by rw [← hg']; rfl
  have harrived : ∀ d, (g'.blocks d).arrived = (g.blocks d).arrived := by
    intro d
    by_cases hd : d = b
    · subst hd
      rw [hself]
      unfold Block.arrived
      rw [hin]
      cases hcase : (g.blocks d).pc <;> rw [hcase] at hleads <;> first | rfl | cases hleads
    · rw [hothers d hd]
  have hlead : ∀ d, d < m → (g'.blocks d).pc.leads = true → d = b := by
    intro d hd hl
    by_contra hne
    rw [hothers d hne] at hl
    exact hne (h.leader_unique d b hd hb hl hleads)
  refine ⟨?_, ?_, ?_, ?_, ?_, ?_⟩
  · rw [hreleased, ← h.release, ← hg']
    rfl
  · simp only [harrived]
    rw [← h.arrive, ← hg']
    rfl
  · intro d hd
    rw [hreleased, hposted]
    by_cases hdb : d = b
    · subst hdb
      rw [hself]
      exact hfits
    · rw [hothers d hdb]
      refine (h.fits d hd).posted (Bool.eq_false_iff.mpr fun hl => hdb ?_)
      exact h.leader_unique d b hd hb hl hleads
  · intro d _ _ e he
    rw [harrived, hreleased]
    exact h.all_in b hb hleads e he
  · intro d e hd he hdl hel
    rw [hlead d hd hdl, hlead e he hel]
  · intro hidle
    have hnone := hidle b hb
    rw [hself] at hnone
    exact absurd (hpc.symm.trans hnone) Bool.noConfusion

/-- The last block releases the others. -/
theorem step_release (h : g.Valid w n m) {b : Nat} (hb : b < m)
    (hpc : (g.blocks b).pc = .releasing true) :
    Valid w n m ((g.letGo (((g.blocks b).passed + 1) * w)).setBlock b
      ⟨.out, (g.blocks b).passed + 1⟩) := by
  have hleads : (g.blocks b).pc.leads = true := by rw [hpc]; rfl
  have hfits := h.fits b hb
  unfold Block.Fits at hfits
  rw [hpc] at hfits
  obtain ⟨hpassed, hn, hposted⟩ := hfits
  generalize hg' : (g.letGo (((g.blocks b).passed + 1) * w)).setBlock b
    ⟨.out, (g.blocks b).passed + 1⟩ = g'
  have hself : g'.blocks b = ⟨.out, (g.blocks b).passed + 1⟩ := by
    rw [← hg']
    exact Function.update_self ..
  have hothers : ∀ d, d ≠ b → g'.blocks d = g.blocks d := by
    intro d hd
    rw [← hg']
    exact Function.update_of_ne hd ..
  have hreleased : g'.released = g.released + 1 := by rw [← hg']; rfl
  have hposted' : g'.posted = g.posted := by rw [← hg']; rfl
  have harrived : ∀ d, (g'.blocks d).arrived = (g.blocks d).arrived := by
    intro d
    by_cases hd : d = b
    · subst hd
      rw [hself]
      unfold Block.arrived
      rw [hpc]
      rfl
    · rw [hothers d hd]
  have hnone : ∀ d, d < m → (g'.blocks d).pc.leads = false := by
    intro d hd
    by_cases hdb : d = b
    · subst hdb
      rw [hself]
      rfl
    · rw [hothers d hdb]
      refine Bool.eq_false_iff.mpr fun hl => hdb ?_
      exact h.leader_unique d b hd hb hl hleads
  refine ⟨?_, ?_, ?_, ?_, ?_, ?_⟩
  · rw [hreleased, ← hpassed, ← hg']
    rfl
  · simp only [harrived]
    rw [← h.arrive, ← hg']
    rfl
  · intro d hd
    rw [hreleased, hposted']
    by_cases hdb : d = b
    · subst hdb
      rw [hself]
      exact ⟨congrArg (· + 1) hpassed, hn⟩
    · have hdone := hnone d hd
      have hall := h.all_in b hb hleads d hd
      have hfits := h.fits d hd
      rw [hothers d hdb] at hdone ⊢
      unfold Block.Fits at hfits ⊢
      unfold Block.arrived at hall
      cases hcase : (g.blocks d).pc <;> rw [hcase] at hdone <;>
        simp only [hcase, Pc.inCall] at hfits hall ⊢ <;>
        first | omega | exact hfits | cases hdone
  · intro d hd hl
    exact absurd ((hnone d hd).symm.trans hl) Bool.noConfusion
  · intro d _ hd _ hl
    exact absurd ((hnone d hd).symm.trans hl) Bool.noConfusion
  · intro _
    rw [hreleased, hposted']
    exact hposted

/-- Another block sees the word of the last one. -/
theorem step_pass (h : g.Valid w n m) {b : Nat} (hb : b < m) (hpc : (g.blocks b).pc = .polling)
    (hlt : (g.blocks b).passed < g.released) :
    Valid w n m (g.setBlock b ⟨.out, (g.blocks b).passed + 1⟩) := by
  have hfits := h.fits b hb
  unfold Block.Fits at hfits
  rw [hpc] at hfits
  obtain ⟨hpassed, hn⟩ := hfits
  generalize hg' : g.setBlock b ⟨.out, (g.blocks b).passed + 1⟩ = g'
  have hself : g'.blocks b = ⟨.out, (g.blocks b).passed + 1⟩ := by
    rw [← hg']
    exact Function.update_self ..
  have hothers : ∀ d, d ≠ b → g'.blocks d = g.blocks d := by
    intro d hd
    rw [← hg']
    exact Function.update_of_ne hd ..
  have hreleased : g'.released = g.released := by rw [← hg']; rfl
  have hposted : g'.posted = g.posted := by rw [← hg']; rfl
  have harrived : ∀ d, (g'.blocks d).arrived = (g.blocks d).arrived := by
    intro d
    by_cases hd : d = b
    · subst hd
      rw [hself]
      unfold Block.arrived
      rw [hpc]
      rfl
    · rw [hothers d hd]
  have hlead : ∀ d, (g'.blocks d).pc.leads = (g.blocks d).pc.leads ∧
      (g'.blocks d).pc.hasPosted = (g.blocks d).pc.hasPosted := by
    intro d
    by_cases hd : d = b
    · subst hd
      rw [hself, hpc]
      exact ⟨rfl, rfl⟩
    · rw [hothers d hd]
      exact ⟨rfl, rfl⟩
  refine ⟨?_, ?_, ?_, ?_, ?_, ?_⟩
  · rw [hreleased, ← h.release, ← hg']
    rfl
  · simp only [harrived]
    rw [← h.arrive, ← hg']
    rfl
  · intro d hd
    rw [hreleased, hposted]
    by_cases hdb : d = b
    · subst hdb
      rw [hself]
      unfold Block.Fits
      dsimp only
      omega
    · rw [hothers d hdb]
      exact h.fits d hd
  · intro d hd hl e he
    rw [harrived, hreleased]
    exact h.all_in d hd ((hlead d).1 ▸ hl) e he
  · intro d e hd he hdl hel
    exact h.leader_unique d e hd he ((hlead d).1 ▸ hdl) ((hlead e).1 ▸ hel)
  · intro hidle
    rw [hreleased, hposted]
    exact h.idle fun d hd => (hlead d).2 ▸ hidle d hd

end Valid

end Gpu

/-! ## All devices -/

variable {w : Nat} {grids : Grids w} {s t : State w} {n : Nat}

/-- The invariant of a run of `n` barriers without a failure. -/
structure State.Valid (grids : Grids w) (n : Nat) (s : State w) : Prop where
  gpu : ∀ r, (s.gpus r).Valid w n (grids.blocks r)
  flag : ∀ r, (s.gpus r).flag = ∑ q, s.landed q r
  landed_le : ∀ q r, s.landed q r ≤ (s.gpus q).posted
  /-- A released barrier is one every device has arrived at. -/
  released_le : ∀ q r, (s.gpus q).released ≤ (s.gpus r).posted
  met : ∀ r b, b < grids.blocks r → ((s.gpus r).blocks b).pc = .releasing true →
    ∀ q, (s.gpus r).released < (s.gpus q).posted

/-- Every block of the grids waits for the targets of `n` barriers. -/
def Grids.Agree (grids : Grids w) (n : Nat) : Prop :=
  ∀ r b, b < grids.blocks r → grids.waits r b = targets w 0 n

theorem getD_targets {p : Nat} (h : p < n) : (targets w 0 n).getD p 0 = (p + 1) * w := by
  unfold targets
  rw [List.getD_eq_getElem?_getD, List.getElem?_map, List.getElem?_range' h, Option.map_some,
    Option.getD_some, Nat.zero_add, Nat.one_mul, Nat.add_comm]

theorem Grids.Agree.target (hgrids : grids.Agree n) {r : Fin w} {b : Nat}
    (hb : b < grids.blocks r) (hn : ((s.gpus r).blocks b).passed < n) :
    grids.target s r b = (((s.gpus r).blocks b).passed + 1) * w := by
  unfold Grids.target
  rw [hgrids r b hb, getD_targets hn]

namespace State.Valid

theorem put_gpus (s : State w) (r : Fin w) (g : Gpu) : (s.put r g).gpus r = g :=
  Function.update_self ..

theorem put_gpus_of_ne (s : State w) {r q : Fin w} (g : Gpu) (h : q ≠ r) :
    (s.put r g).gpus q = s.gpus q := Function.update_of_ne h ..

/-- A step of one device. -/
theorem put (h : s.Valid grids n) {r : Fin w} {g : Gpu} (hg : g.Valid w n (grids.blocks r))
    (hflag : g.flag = (s.gpus r).flag) (hposted : (s.gpus r).posted ≤ g.posted)
    (hreleased : ∀ q, g.released ≤ (s.gpus q).posted)
    (hmet : ∀ b, b < grids.blocks r → (g.blocks b).pc = .releasing true →
      ∀ q, g.released < (s.gpus q).posted) :
    (s.put r g).Valid grids n := by
  have hle : ∀ q, (s.gpus q).posted ≤ ((s.put r g).gpus q).posted := by
    intro q
    by_cases hq : q = r
    · subst hq
      rw [put_gpus]
      exact hposted
    · rw [put_gpus_of_ne s g hq]
  refine ⟨?_, ?_, ?_, ?_, ?_⟩
  · intro q
    by_cases hq : q = r
    · subst hq
      rw [put_gpus]
      exact hg
    · rw [put_gpus_of_ne s g hq]
      exact h.gpu q
  · intro q
    by_cases hq : q = r
    · subst hq
      rw [put_gpus, hflag]
      exact h.flag q
    · rw [put_gpus_of_ne s g hq]
      exact h.flag q
  · intro q p
    exact Nat.le_trans (h.landed_le q p) (hle q)
  · intro q p
    refine Nat.le_trans ?_ (hle p)
    by_cases hq : q = r
    · subst hq
      rw [put_gpus]
      exact hreleased p
    · rw [put_gpus_of_ne s g hq]
      exact h.released_le q p
  · intro q b hb hpc p
    refine Nat.lt_of_lt_of_le ?_ (hle p)
    by_cases hq : q = r
    · subst hq
      rw [put_gpus] at hpc ⊢
      exact hmet b hb hpc p
    · rw [put_gpus_of_ne s g hq] at hpc ⊢
      exact h.met q b hb hpc p

/-- As many additions as a target asks for are sent when, and not before, every device has
arrived at its barrier. -/
theorem target_le_iff (h : s.Valid grids n) (j : Nat) :
    (j + 1) * w ≤ ∑ q, (s.gpus q).posted ↔ ∀ q, j < (s.gpus q).posted := by
  have hcard : ∑ _q : Fin w, (j + 1) = (j + 1) * w := by
    rw [Finset.sum_const, Finset.card_univ, Fintype.card_fin, smul_eq_mul, Nat.mul_comm]
  rw [← hcard]
  constructor
  · intro hle
    by_contra hnot
    obtain ⟨p, hp⟩ := not_forall.mp hnot
    have hp := Nat.not_lt.mp hp
    have hposted : ∀ q ∈ Finset.univ, (s.gpus q).posted ≤ j + 1 := by
      intro q _
      have hreleased := h.released_le q p
      have := (h.gpu q).posted_le.2.1
      omega
    have hlt : ∑ q, (s.gpus q).posted < ∑ _q : Fin w, (j + 1) :=
      Finset.sum_lt_sum hposted ⟨p, Finset.mem_univ p, Nat.lt_succ_of_le hp⟩
    omega
  · intro hall
    exact Finset.sum_le_sum fun q _ => hall q

/-- The additions that have reached a device are among those sent. -/
theorem flag_le (h : s.Valid grids n) (r : Fin w) :
    (s.gpus r).flag ≤ ∑ q, (s.gpus q).posted := by
  rw [h.flag r]
  exact Finset.sum_le_sum fun q _ => h.landed_le q r

theorem init (hs : (rendezvous grids).Init s) : s.Valid grids n := by
  obtain ⟨hgpus, hlanded, -⟩ := hs
  refine ⟨?_, ?_, ?_, ?_, ?_⟩
  · intro r
    rw [hgpus r]
    refine ⟨(Nat.zero_mul w).symm, ?_, fun b _ => ⟨rfl, Nat.zero_le n⟩, ?_, ?_, fun _ => rfl⟩
    · exact (Finset.sum_eq_zero fun _ _ => rfl).symm
    · intro b _ hlead
      cases hlead
    · intro b d _ _ hlead
      cases hlead
  · intro r
    rw [hgpus r]
    exact (Finset.sum_eq_zero fun q _ => hlanded q r).symm
  · intro q r
    rw [hlanded q r]
    exact Nat.zero_le _
  · intro q r
    rw [hgpus q]
    exact Nat.zero_le _
  · intro r b _ hpc
    rw [hgpus r] at hpc
    cases hpc

/-- One more addition reaches a device. -/
theorem land (h : s.Valid grids n) {src dst : Fin w}
    (hlt : s.landed src dst < (s.gpus src).posted) :
    State.Valid grids n { s with
      gpus := Function.update s.gpus dst { s.gpus dst with flag := (s.gpus dst).flag + 1 }
      landed := Function.update s.landed src
        (Function.update (s.landed src) dst (s.landed src dst + 1)) } := by
  generalize hgpus : Function.update s.gpus dst
    { s.gpus dst with flag := (s.gpus dst).flag + 1 } = gpus
  generalize hlanded : Function.update s.landed src
    (Function.update (s.landed src) dst (s.landed src dst + 1)) = landed
  have hself : gpus dst = { s.gpus dst with flag := (s.gpus dst).flag + 1 } := by
    rw [← hgpus]
    exact Function.update_self ..
  have hothers : ∀ q, q ≠ dst → gpus q = s.gpus q := by
    intro q hq
    rw [← hgpus]
    exact Function.update_of_ne hq ..
  have hposted : ∀ q, (gpus q).posted = (s.gpus q).posted := by
    intro q
    by_cases hq : q = dst
    · rw [hq, hself]
    · rw [hothers q hq]
  have hreleased : ∀ q, (gpus q).released = (s.gpus q).released := by
    intro q
    by_cases hq : q = dst
    · rw [hq, hself]
    · rw [hothers q hq]
  have hblocks : ∀ q, (gpus q).blocks = (s.gpus q).blocks := by
    intro q
    by_cases hq : q = dst
    · rw [hq, hself]
    · rw [hothers q hq]
  have hnew : landed src dst = s.landed src dst + 1 := by
    rw [← hlanded, Function.update_self, Function.update_self]
  have hold : ∀ q p, ¬ (q = src ∧ p = dst) → landed q p = s.landed q p := by
    intro q p hne
    rw [← hlanded]
    by_cases hq : q = src
    · subst hq
      rw [Function.update_self, Function.update_of_ne fun hp => hne ⟨rfl, hp⟩]
    · rw [Function.update_of_ne hq]
  refine ⟨?_, ?_, ?_, ?_, ?_⟩
  · intro q
    by_cases hq : q = dst
    · have hv := h.gpu q
      rw [hq] at hv ⊢
      dsimp only
      rw [hself]
      exact ⟨hv.release, hv.arrive, hv.fits, hv.all_in, hv.leader_unique, hv.idle⟩
    · dsimp only
      rw [hothers q hq]
      exact h.gpu q
  · intro q
    dsimp only
    by_cases hq : q = dst
    · subst hq
      have hrest : ∑ p ∈ Finset.univ.erase src, landed p q =
          ∑ p ∈ Finset.univ.erase src, s.landed p q :=
        Finset.sum_congr rfl fun p hp => hold p q fun hne => Finset.ne_of_mem_erase hp hne.1
      have hflag := h.flag q
      rw [← Finset.add_sum_erase _ _ (Finset.mem_univ src)] at hflag
      rw [hself, ← Finset.add_sum_erase _ _ (Finset.mem_univ src), hrest, hnew]
      dsimp only
      omega
    · rw [hothers q hq, h.flag q]
      exact Finset.sum_congr rfl fun p _ => (hold p q fun hne => hq hne.2).symm
  · intro q p
    dsimp only
    rw [hposted]
    by_cases hqp : q = src ∧ p = dst
    · rw [hqp.1, hqp.2, hnew]
      exact hlt
    · rw [hold q p hqp]
      exact h.landed_le q p
  · intro q p
    dsimp only
    rw [hposted, hreleased]
    exact h.released_le q p
  · intro r b hb hpc q
    dsimp only at hpc ⊢
    rw [hblocks] at hpc
    rw [hposted, hreleased]
    exact h.met r b hb hpc q

/-- A step of a block that does not make it see its flag. -/
theorem met_of_ne (h : s.Valid grids n) {r : Fin w} {b : Nat} {g : Gpu}
    (hothers : ∀ d, d ≠ b → g.blocks d = (s.gpus r).blocks d)
    (hself : (g.blocks b).pc ≠ .releasing true) (hreleased : g.released = (s.gpus r).released) :
    ∀ d, d < grids.blocks r → (g.blocks d).pc = .releasing true →
      ∀ q, g.released < (s.gpus q).posted := by
  intro d hd hpc q
  have hdb : d ≠ b := fun hdb => hself (hdb ▸ hpc)
  rw [hothers d hdb] at hpc
  rw [hreleased]
  exact h.met r d hd hpc q

theorem step_arrive (hgrids : grids.Agree n) (h : s.Valid grids n) {r : Fin w} {b : Nat}
    (hb : b < grids.blocks r) (hpc : ((s.gpus r).blocks b).pc = .out)
    (hlen : ((s.gpus r).blocks b).passed < (grids.waits r b).length) :
    State.Valid grids n (s.put r ({ s.gpus r with arrive := (s.gpus r).arrive + 1 }.goto b
      (if ((s.gpus r).arrive + 1) % grids.blocks r = 0 then .posting else .polling))) := by
  have hn : ((s.gpus r).blocks b).passed < n := by
    rw [hgrids r b hb] at hlen
    simpa [targets] using hlen
  have hg := (h.gpu r).step_arrive hb hpc hn
  refine h.put hg rfl (Nat.le_refl _) (fun q => h.released_le r q) ?_
  refine h.met_of_ne (b := b) (fun d hd => Gpu.setBlock_of_ne _ _ hd) ?_ rfl
  rw [Gpu.goto, Gpu.setBlock_self]
  split <;> exact Pc.noConfusion

theorem step_post (h : s.Valid grids n) {r : Fin w} {b : Nat} (hb : b < grids.blocks r)
    (hpc : ((s.gpus r).blocks b).pc = .posting) :
    State.Valid grids n
      (s.put r ({ s.gpus r with posted := (s.gpus r).posted + 1 }.goto b .waiting)) := by
  have hfits := (h.gpu r).fits b hb
  unfold Block.Fits at hfits
  rw [hpc] at hfits
  obtain ⟨hpassed, hn, hposted⟩ := hfits
  have hg := (h.gpu r).step_lead ((s.gpus r).posted + 1) .waiting hb
    (by rw [hpc]; rfl) rfl rfl ⟨hpassed, hn, congrArg (· + 1) hposted⟩
  refine h.put hg rfl (Nat.le_succ _) (fun q => h.released_le r q) ?_
  refine h.met_of_ne (b := b) (fun d hd => Gpu.setBlock_of_ne _ _ hd) ?_ rfl
  rw [Gpu.goto, Gpu.setBlock_self]
  exact Pc.noConfusion

/-- The flag is high enough: every device has arrived. -/
theorem step_pollFlag (hgrids : grids.Agree n) (h : s.Valid grids n) {r : Fin w} {b : Nat}
    (hb : b < grids.blocks r) (hpc : ((s.gpus r).blocks b).pc = .waiting)
    (hflag : grids.target s r b ≤ (s.gpus r).flag) :
    State.Valid grids n (s.put r ((s.gpus r).goto b (.releasing true))) := by
  have hfits := (h.gpu r).fits b hb
  unfold Block.Fits at hfits
  rw [hpc] at hfits
  obtain ⟨hpassed, hn, hposted⟩ := hfits
  have hg := (h.gpu r).step_lead (s.gpus r).posted (.releasing true) hb
    (by rw [hpc]; rfl) rfl rfl ⟨hpassed, hn, hposted⟩
  rw [hgrids.target hb hn, hpassed] at hflag
  have hall := (h.target_le_iff _).mp (Nat.le_trans hflag (h.flag_le r))
  exact h.put hg rfl (Nat.le_refl _) (fun q => h.released_le r q) fun _ _ _ => hall

theorem step_release (hgrids : grids.Agree n) (h : s.Valid grids n) {r : Fin w} {b : Nat}
    (hb : b < grids.blocks r) (hpc : ((s.gpus r).blocks b).pc = .releasing true) :
    State.Valid grids n (s.put r (((s.gpus r).letGo (grids.target s r b)).setBlock b
      ⟨.out, ((s.gpus r).blocks b).passed + 1⟩)) := by
  have hfits := (h.gpu r).fits b hb
  unfold Block.Fits at hfits
  rw [hpc] at hfits
  have hg := (h.gpu r).step_release hb hpc
  rw [← hgrids.target hb hfits.2.1] at hg
  refine h.put hg rfl (Nat.le_refl _) (fun q => h.met r b hb hpc q) ?_
  intro d hd hok
  have hdb : d = b := by
    by_contra hdb
    rw [Gpu.setBlock_of_ne _ _ hdb] at hok
    exact hdb ((h.gpu r).leader_unique d b hd hb (hok ▸ rfl) (hpc ▸ rfl))
  rw [hdb, Gpu.setBlock_self] at hok
  cases hok

theorem step_pollRelease (hgrids : grids.Agree n) (h : s.Valid grids n) {r : Fin w} {b : Nat}
    (hb : b < grids.blocks r) (hpc : ((s.gpus r).blocks b).pc = .polling)
    (hrelease : grids.target s r b ≤ (s.gpus r).release) :
    State.Valid grids n
      (s.put r ((s.gpus r).setBlock b ⟨.out, ((s.gpus r).blocks b).passed + 1⟩)) := by
  have hfits := (h.gpu r).fits b hb
  unfold Block.Fits at hfits
  rw [hpc] at hfits
  rw [hgrids.target hb hfits.2, (h.gpu r).release] at hrelease
  have hw : 0 < w := Nat.lt_of_le_of_lt (Nat.zero_le _) r.isLt
  have hg := (h.gpu r).step_pass hb hpc (Nat.le_of_mul_le_mul_right hrelease hw)
  refine h.put hg rfl (Nat.le_refl _) (fun q => h.released_le r q) ?_
  refine h.met_of_ne (b := b) (fun d hd => Gpu.setBlock_of_ne _ _ hd) ?_ rfl
  rw [Gpu.setBlock_self]
  exact Pc.noConfusion

/-- One step of a run without a failure. -/
theorem step (hgrids : grids.Agree n) (h : s.Valid grids n) {e : Event w}
    (hstep : syncStep grids s e = some t) (hfailed : t.failed = false) : t.Valid grids n := by
  cases e with
  | arrive r b =>
      obtain ⟨⟨hb, hpc, hlen⟩, ht⟩ := Option.ite_none_right_eq_some.mp hstep
      cases ht
      exact h.step_arrive hgrids hb hpc hlen
  | post r b =>
      obtain ⟨⟨hb, hpc⟩, ht⟩ := Option.ite_none_right_eq_some.mp hstep
      cases ht
      exact h.step_post hb hpc
  | land src dst =>
      obtain ⟨hlt, ht⟩ := Option.ite_none_right_eq_some.mp hstep
      cases ht
      exact h.land hlt
  | pollFlag r b =>
      obtain ⟨⟨hb, hpc⟩, ht⟩ := Option.ite_none_right_eq_some.mp hstep
      by_cases hflag : (s.gpus r).flag < grids.target s r b
      · rw [if_pos hflag] at ht
        cases ht
        exact h
      · rw [if_neg hflag] at ht
        cases ht
        exact h.step_pollFlag hgrids hb hpc (Nat.not_lt.mp hflag)
  | release r b =>
      dsimp only [syncStep] at hstep
      by_cases hok : b < grids.blocks r ∧ ((s.gpus r).blocks b).pc = .releasing true
      · rw [if_pos hok] at hstep
        cases hstep
        exact h.step_release hgrids hok.1 hok.2
      · rw [if_neg hok] at hstep
        obtain ⟨⟨hb, hpc⟩, -⟩ := Option.ite_none_right_eq_some.mp hstep
        have hfits := (h.gpu r).fits b hb
        unfold Block.Fits at hfits
        rw [hpc] at hfits
        exact hfits.elim
  | pollRelease r b =>
      obtain ⟨⟨hb, hpc⟩, ht⟩ := Option.ite_none_right_eq_some.mp hstep
      by_cases hrelease : (s.gpus r).release < grids.target s r b
      · rw [if_pos hrelease] at ht
        cases ht
        exact h
      · rw [if_neg hrelease] at ht
        cases ht
        exact h.step_pollRelease hgrids hb hpc (Nat.not_lt.mp hrelease)
  | giveUp r b =>
      dsimp only [syncStep] at hstep
      by_cases hwait : b < grids.blocks r ∧ ((s.gpus r).blocks b).pc = .waiting
      · rw [if_pos hwait] at hstep
        cases hstep
        cases hfailed
      · rw [if_neg hwait] at hstep
        obtain ⟨-, ht⟩ := Option.ite_none_right_eq_some.mp hstep
        cases ht
        cases hfailed

end State.Valid

/-- A failure is not forgotten. -/
theorem failed_of_step {e : Event w} (hstep : syncStep grids s e = some t)
    (hfailed : t.failed = false) : s.failed = false := by
  cases e <;> dsimp only [syncStep] at hstep <;> repeat' split at hstep
  all_goals cases hstep
  all_goals first | exact hfailed | cases hfailed

/-- The invariant of every run, as long as no block fails. -/
theorem valid_of_reachable (hgrids : grids.Agree n) (hs : (rendezvous grids).Reachable s)
    (hfailed : s.failed = false) : s.Valid grids n := by
  have h : s.failed = false → s.Valid grids n := by
    refine hs.invariant (I := fun s => s.failed = false → s.Valid grids n)
      (fun s hinit _ => .init hinit) ?_
    intro s e t _ hvalid hnext ht
    exact (hvalid (failed_of_step hnext ht)).step hgrids hnext ht
  exact h hfailed

end TorchMojoBackend.Ccl.Nvls
