/-
  `Ccl.NvlsJob`: the ranks of a node that call the all-reduce through the switch.

  Source: tmb/ccl/enqueue.mojo (`_do_allreduce_nvls`) and tmb/ccl/device/all_reduce.mojo.

  The ranks make the same calls, each with buffers of its own.
-/
import TorchMojoBackend.Ccl.NvlsBarrier

set_option autoImplicit false

namespace TorchMojoBackend.Ccl.Nvls

open TorchMojoBackend.Foundation

/-! ## Launches -/

/-- What every launch of the host is: spans that cover the padded payload, slices that cover
each of them, and as many barriers as the host counts. -/
structure Launch.Sound (l : Launch) : Prop where
  padded : l.numel ≤ l.nvec * l.width ∧ l.nvec * l.width < l.numel + l.world * l.width
  fits : l.nvec * 16 ≤ l.payloadBytes
  tiles : Tiles l.nvec l.nch l.span
  slices : ∀ c, c < l.nch → ∀ v, v ∈ l.span c ↔ ∃ r, r < l.world ∧ v ∈ l.slice c r
  slices_apart : ∀ c r r', r ≠ r' → (l.slice c r).Apart (l.slice c r')
  copiedIn : (l.kernel false).filterMap Op.copiedIn? = (List.range l.nch).map l.span
  reduced : (l.kernel true).filterMap Op.reduced? = (List.range l.nch).map fun c => l.slice c l.rank
  copiedOut : (l.kernel false).filterMap Op.copiedOut? = (List.range l.nch).map l.span
  /-- Both kinds of blocks are there. -/
  split : 0 < l.reduceBlocks ∧ l.reduceBlocks < l.blocks
  barriers : ∀ b, ((l.block b).filterMap Op.target?).length =
    nvlsBarriersPerCall l.numel l.world l.item l.chunkVecs

theorem length_targets (world bars n : Nat) : (targets world bars n).length = n := by
  rw [targets, List.length_map, List.length_range']

theorem Launch.Checked.sound {l : Launch} (h : l.Checked) (hblocks : 2 ≤ l.blocks)
    (htarget : ∃ bars, l.target = (bars + 1) * l.world) : l.Sound where
  padded := h.padded
  fits := h.nvec_eq ▸ h.fits
  tiles := h.tiles
  slices := fun _ hc v => h.mem_slices hc v
  slices_apart := fun _ _ _ hne => Launch.Checked.slices_apart hne
  copiedIn := Launch.copiedIn h
  reduced := Launch.reduced h
  copiedOut := Launch.copiedOut h
  split := by
    unfold Launch.reduceBlocks
    dsimp only
    omega
  barriers := by
    intro b
    obtain ⟨bars, hbars⟩ := htarget
    have hwaits := Launch.waits_eq h (decide (b < l.reduceBlocks)) hbars
    unfold Launch.waits at hwaits
    unfold Launch.block
    rw [hwaits, length_targets]

/-! ## The ranks of a node -/

theorem two_le_nvlsBlocks (smCount : Nat) : 2 ≤ nvlsBlocks smCount := Nat.le_max_left 2 _

/-- A node whose ranks share a multicast region. -/
structure Job (w : Nat) where
  capBytes : Nat
  mc : Fin w → Nat
  uc : Fin w → Nat
  smCount : Fin w → Nat
  two_le : 2 ≤ w
  world_le : w ≤ MAX_WORLD
  cap_pos : 0 < capBytes
  page : 4096 ∣ capBytes
  mc_ne : ∀ r, mc r ≠ 0
  uc_ne : ∀ r, uc r ≠ 0

/-- A call of all ranks. -/
structure Collective (w : Nat) where
  item : Item
  count : Nat
  send : Fin w → Nat
  recv : Fin w → Nat
  send_aligned : ∀ r, send r % 16 = 0
  recv_aligned : ∀ r, recv r % 16 = 0

variable {w : Nat}

def Collective.call (k : Collective w) (r : Fin w) : Call :=
  ⟨k.item, k.count, k.send r, k.recv r, k.send_aligned r, k.recv_aligned r⟩

namespace Job

def comm (job : Job w) (r : Fin w) : Comm where
  world := w
  rank := r
  capBytes := job.capBytes
  mc := job.mc r
  uc := job.uc r
  grid := nvlsBlocks (job.smCount r)
  two_le := job.two_le
  world_le := job.world_le
  rank_lt := r.isLt
  cap_pos := job.cap_pos
  page := job.page
  mc_ne := job.mc_ne r
  uc_ne := job.uc_ne r

/-- What rank `r` does in a sequence of calls on a fresh communicator. -/
def host (job : Job w) (calls : List (Collective w)) (r : Fin w) : Outcome :=
  enqueueCalls (job.comm r) (calls.map (·.call r)) 0

/-- The grids the launches of the ranks run on. -/
def grids (job : Job w) (calls : List (Collective w)) : Grids w where
  blocks r := nvlsBlocks (job.smCount r)
  waits r b := (job.host calls r).launches.flatMap fun l => (l.block b).filterMap Op.target?

/-- The barriers of a sequence of calls. -/
def barriers (job : Job w) (calls : List (Collective w)) : Nat :=
  let c := job.comm ⟨0, Nat.lt_of_lt_of_le (by decide) job.two_le⟩
  (calls.map fun k => c.callBarriers k.item k.count).sum

/-- No rank raises, and all count the same barriers. -/
theorem host_spec (job : Job w) (calls : List (Collective w)) (r : Fin w) :
    Launched (job.comm r) 0 (job.host calls r) ∧ (job.host calls r).bars = job.barriers calls := by
  obtain ⟨hlaunched, hbars⟩ := enqueueCalls_spec (job.comm r) (calls.map (·.call r)) 0
  refine ⟨hlaunched, hbars.trans ?_⟩
  rw [Nat.zero_add, List.map_map]
  rfl

/-- A block of either kind waits for the same targets, through all the launches. -/
theorem waits_block (launches : List Launch) (b : Nat) (grid : Nat)
    (hgrid : ∀ l ∈ launches, l.blocks = grid) :
    ∃ isReducer, launches.flatMap (fun l => (l.block b).filterMap Op.target?) =
      launches.flatMap (Launch.waits · isReducer) := by
  refine ⟨decide (b < min (max 1 (max 1 (min (grid - 1) (grid * NVLS_REDUCE_PCT / 100))))
    (grid - 1)), ?_⟩
  refine List.flatMap_congr fun l hl => ?_
  unfold Launch.block Launch.reduceBlocks Launch.waits
  rw [hgrid l hl]

theorem grids_agree (job : Job w) (calls : List (Collective w)) :
    (job.grids calls).Agree (job.barriers calls) := by
  intro r b _
  obtain ⟨hlaunched, hbars⟩ := job.host_spec calls r
  obtain ⟨isReducer, hwaits⟩ := waits_block (job.host calls r).launches b _
    fun l hl => (hlaunched.checked l hl).2.2.2.1
  have h := hlaunched.waits isReducer
  rw [Nat.sub_zero, hbars] at h
  exact hwaits.trans h

end Job

end TorchMojoBackend.Ccl.Nvls
