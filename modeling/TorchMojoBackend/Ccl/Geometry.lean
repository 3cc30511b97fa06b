/-
  `Ccl.Geometry`: the layout of a communicator's region.

  Source: tmb/ccl/include/comm.mojo (`region_layout` to `pipeline_chunk_bytes`,
  `_inbox_base`, `_net_stage_off`), tmb/ccl/init.mojo (`_region_cap_bytes` and the
  checks of `ncclCommInitRank`), tmb/ccl/include/device.mojo (`signal_bytes`).

  Sizes and offsets are naturals.  The two differences of the source that can be
  negative meet a lower bound of a page, which the truncated difference meets too.
-/
import TorchMojoBackend.Foundation.Spans

set_option autoImplicit false

namespace TorchMojoBackend.Ccl

open TorchMojoBackend.Foundation

/-! ## Constants -/

def MAX_WORLD : Nat := 8
def MAX_NODES : Nat := 16
def PIPE_ARENAS : Nat := 4
def INBOX_SLOTS : Nat := PIPE_ARENAS + 1
def PIPE_MAX_CHUNKS : Nat := 16
def PIPE_SPLIT_UNIT : Nat := 640000
def CREDIT_AREA_BYTES : Nat := 4096
def CREDIT_SLOT_BYTES : Nat := 64
def EMPTY_SHARD_BYTES : Nat := 16

/-- `signal_bytes`. -/
def signalBytes : Nat := 128 * 1024

/-! ## Region geometry -/

/-- `region_layout`: arenas, bytes of a half arena, bytes from one arena to the
next, bytes of the region. -/
def regionLayout (capBytes nnodes : Nat) : Nat × Nat × Nat × Nat :=
  let narenas := if nnodes > 1 then PIPE_ARENAS else 1
  let arenaCap := capBytes / narenas / 4096 * 4096
  let arenaStride := signalBytes + 2 * arenaCap
  let netBytes := if nnodes > 1 then capBytes else 0
  (narenas, arenaCap, arenaStride, narenas * arenaStride + netBytes)

/-- `net_stage_bytes`. -/
def netStageBytes (capBytes : Nat) : Nat := capBytes / 2 - CREDIT_AREA_BYTES

/-- `inbox_group_bytes`. -/
def inboxGroupBytes (capBytes nslots : Nat) : Nat := capBytes / 2 / nslots / 4096 * 4096

/-- `max_chunk_bytes`. -/
def maxChunkBytes (capBytes arenaCap nslots localWorld nnodes : Nat) : Nat :=
  let b := inboxGroupBytes capBytes nslots * localWorld / (nnodes - 1) - 2 * 4096
  let b := min b arenaCap
  if b < 4096 then 4096 else b / 4096 * 4096

/-- The loop of `pipeline_chunk_bytes`. -/
def pipelineChunks (unit totalBytes k : Nat) : Nat :=
  if k < PIPE_MAX_CHUNKS ∧ (k + 1) * (k + 1) * unit ≤ totalBytes then
    pipelineChunks unit totalBytes (k + 1)
  else k
termination_by PIPE_MAX_CHUNKS - k

/-- `pipeline_chunk_bytes`. -/
def pipelineChunkBytes (maxChunk localWorld totalBytes splitUnit : Nat) : Nat :=
  let unit := localWorld * splitUnit
  let k := pipelineChunks unit totalBytes 1
  let chunk := alignUp ((totalBytes + k - 1) / k) 4096
  max (min chunk maxChunk) 4096

/-! ## Communicators -/

/-- `_region_cap_bytes`: the variable is a number of MiB. -/
def regionCapBytes (regionMb : Nat) : Nat := regionMb * 1024 * 1024

/-- The checks of `ncclCommInitRank`. -/
def initAdmits (capBytes localWorld nnodes : Nat) : Bool :=
  localWorld ≤ MAX_WORLD && nnodes ≤ MAX_NODES && 0 < capBytes && capBytes % 4096 = 0 &&
    4096 ≤ (regionLayout capBytes nnodes).2.1

/-- A communicator over several nodes that `ncclCommInitRank` admits, as one of
its ranks sees it. -/
structure Comm where
  regionMb : Nat
  localWorld : Nat
  nnodes : Nat
  localRank : Nat
  myNode : Nat
  /-- `_AMD`: peers push where they pull on the other vendor. -/
  amd : Bool
  admitted : initAdmits (regionCapBytes regionMb) localWorld nnodes = true
  multinode : 1 < nnodes
  localRank_lt : localRank < localWorld
  myNode_lt : myNode < nnodes

namespace Comm

variable (c : Comm)

def capBytes : Nat := regionCapBytes c.regionMb
def narenas : Nat := (regionLayout c.capBytes c.nnodes).1
def arenaCap : Nat := (regionLayout c.capBytes c.nnodes).2.1
def arenaStride : Nat := (regionLayout c.capBytes c.nnodes).2.2.1
def regionBytes : Nat := (regionLayout c.capBytes c.nnodes).2.2.2
def nslots (_ : Comm) : Nat := INBOX_SLOTS
def netOff : Nat := c.narenas * c.arenaStride

/-- `ib_npeers`. -/
def npeers : Nat := c.nnodes - 1

/-- `_inbox_group_bytes`. -/
def inboxGroup : Nat := inboxGroupBytes c.capBytes c.nslots

/-- `_inbox_base`. -/
def inboxBase (seq : Nat) : Nat := c.netOff + c.capBytes / 2 + seq % c.nslots * c.inboxGroup

/-- `_net_stage_off`. -/
def netStageOff : Nat := c.netOff + CREDIT_AREA_BYTES

/-- `_max_chunk_bytes`. -/
def maxChunk : Nat :=
  if c.nnodes ≤ 1 then c.capBytes
  else maxChunkBytes c.capBytes c.arenaCap c.nslots c.localWorld c.nnodes

/-! ### Sizes -/

theorem admits : c.localWorld ≤ MAX_WORLD ∧ c.nnodes ≤ MAX_NODES ∧ 0 < c.capBytes := by
  have h := c.admitted
  simp only [initAdmits, Bool.and_eq_true, decide_eq_true_eq] at h
  exact ⟨h.1.1.1.1, h.1.1.1.2, h.1.1.2⟩

theorem regionMb_pos : 0 < c.regionMb := by
  have h := c.admits.2.2
  unfold capBytes regionCapBytes at h
  omega

theorem localWorld_le : c.localWorld ≤ 8 := c.admits.1

theorem localWorld_pos : 0 < c.localWorld := Nat.lt_of_le_of_lt (Nat.zero_le _) c.localRank_lt

theorem npeers_pos : 0 < c.npeers := by
  have := c.multinode
  unfold npeers
  omega

theorem npeers_le : c.npeers ≤ 15 := Nat.sub_le_sub_right c.admits.2.1 1

theorem npeers_add_one : c.npeers + 1 = c.nnodes := by
  have := c.multinode
  unfold npeers
  omega

theorem narenas_eq : c.narenas = 4 := by
  have := c.multinode
  simp [narenas, regionLayout, PIPE_ARENAS, this]

theorem capBytes_eq : c.capBytes = c.regionMb * 1048576 := by
  unfold capBytes regionCapBytes
  omega

theorem arenaCap_eq : c.arenaCap = c.regionMb * 262144 := by
  have h := c.multinode
  have hcap := c.capBytes_eq
  simp only [arenaCap, regionLayout, PIPE_ARENAS, gt_iff_lt, h, if_true]
  omega

theorem arenaStride_eq : c.arenaStride = signalBytes + 2 * c.arenaCap := rfl

theorem regionBytes_eq : c.regionBytes = c.netOff + c.capBytes := by
  have h := c.multinode
  show c.narenas * c.arenaStride + (if c.nnodes > 1 then c.capBytes else 0) = _
  rw [if_pos h]
  rfl

theorem nslots_eq : c.nslots = 5 := rfl

/-- A landing group holds a page for every peer. -/
theorem npeers_mul_page_le : c.npeers * 4096 ≤ c.inboxGroup := by
  have := c.regionMb_pos
  have := c.npeers_le
  have := c.capBytes_eq
  unfold inboxGroup inboxGroupBytes
  rw [c.nslots_eq]
  omega

theorem inboxGroup_mul_le : c.nslots * c.inboxGroup ≤ c.capBytes / 2 := by
  have := c.capBytes_eq
  unfold inboxGroup inboxGroupBytes
  rw [c.nslots_eq]
  omega

/-! ### Areas -/

/-- The parts of an arena. -/
inductive Part where
  | signal | stageIn | stageOut
  deriving DecidableEq, Repr

/-- The areas of a region. -/
inductive Area where
  | arena (a : Nat) (part : Part)
  | creditWord (sender : Nat)
  | staging
  | inbox (group : Nat)
  deriving DecidableEq, Repr

/-- The areas the region of a communicator has. -/
def HasArea : Area → Prop
  | .arena a _ => a < c.narenas
  | .creditWord sender => sender < c.npeers
  | .staging => True
  | .inbox group => group < c.nslots

/-- Where a part starts inside its arena. -/
def partOff : Part → Nat
  | .signal => 0
  | .stageIn => signalBytes
  | .stageOut => signalBytes + c.arenaCap

def partLen : Part → Nat
  | .signal => signalBytes
  | .stageIn => c.arenaCap
  | .stageOut => c.arenaCap

/-- The bytes of an area, from the start of the region. -/
def span : Area → Span
  | .arena a part => ⟨a * c.arenaStride + c.partOff part, c.partLen part⟩
  | .creditWord sender => slotAt c.netOff CREDIT_SLOT_BYTES sender
  | .staging => ⟨c.netStageOff, netStageBytes c.capBytes⟩
  | .inbox group => slotAt (c.netOff + c.capBytes / 2) c.inboxGroup group

theorem partOff_add_partLen_le (part : Part) :
    c.partOff part + c.partLen part ≤ c.arenaStride := by
  have := c.arenaStride_eq
  cases part <;> simp only [partOff, partLen] <;> omega

/-- A part of an arena lies in the stride of the arena. -/
theorem arena_within (a : Nat) (part : Part) :
    (c.span (.arena a part)).Within (slotAt 0 c.arenaStride a) := by
  have h := c.partOff_add_partLen_le part
  unfold Span.Within span slotAt Span.stop
  dsimp only
  omega

theorem part_apart {p q : Part} (h : p ≠ q) (a : Nat) :
    (c.span (.arena a p)).Apart (c.span (.arena a q)) := by
  unfold Span.Apart span Span.stop
  cases p <;> cases q <;> first
    | exact absurd rfl h
    | (simp only [partOff, partLen]; omega)

/-- Every area outside the arenas starts after them and ends inside the region. -/
theorem net_within {x : Area} (hx : c.HasArea x) (hnet : ∀ a p, x ≠ .arena a p) :
    (c.span x).Within ⟨c.netOff, c.capBytes⟩ := by
  have hcap := c.capBytes_eq
  have hmb := c.regionMb_pos
  cases x with
  | arena a p => exact absurd rfl (hnet a p)
  | creditWord sender =>
      have hlt : sender < c.npeers := hx
      have := c.npeers_le
      unfold Span.Within span slotAt Span.stop CREDIT_SLOT_BYTES
      dsimp only
      omega
  | staging =>
      unfold Span.Within span Span.stop netStageOff netStageBytes CREDIT_AREA_BYTES
      dsimp only
      omega
  | inbox group =>
      have hlt : group < c.nslots := hx
      refine ⟨?_, ?_⟩
      · show c.netOff ≤ c.netOff + c.capBytes / 2 + group * c.inboxGroup
        omega
      · refine Nat.le_trans (slotAt_stop_le _ _ hlt) ?_
        have := c.inboxGroup_mul_le
        show _ ≤ c.netOff + c.capBytes
        omega

theorem arena_stop_le {a : Nat} (ha : a < c.narenas) (p : Part) :
    (c.span (.arena a p)).stop ≤ c.netOff := by
  refine Nat.le_trans (c.arena_within a p).2 ?_
  have := slotAt_stop_le 0 c.arenaStride ha
  rwa [Nat.zero_add] at this

/-- Every area lies inside the region. -/
theorem area_within {x : Area} (hx : c.HasArea x) :
    (c.span x).Within ⟨0, c.regionBytes⟩ := by
  refine ⟨Nat.zero_le _, ?_⟩
  show (c.span x).stop ≤ 0 + c.regionBytes
  rw [Nat.zero_add, c.regionBytes_eq]
  cases x with
  | arena a p => exact Nat.le_trans (c.arena_stop_le hx p) (Nat.le_add_right _ _)
  | creditWord sender => exact (c.net_within hx (by intros; simp)).2
  | staging => exact (c.net_within hx (by intros; simp)).2
  | inbox group => exact (c.net_within hx (by intros; simp)).2

/-- The credit words end where the staging half starts, and the staging half
where the landing groups start. -/
theorem creditWord_stop_le {sender : Nat} (h : sender < c.npeers) :
    (c.span (.creditWord sender)).stop ≤ c.netStageOff := by
  have := c.npeers_le
  unfold span slotAt Span.stop netStageOff CREDIT_SLOT_BYTES CREDIT_AREA_BYTES
  dsimp only
  omega

theorem staging_stop_le : (c.span .staging).stop ≤ c.netOff + c.capBytes / 2 := by
  have := c.capBytes_eq
  have := c.regionMb_pos
  unfold span Span.stop netStageOff netStageBytes CREDIT_AREA_BYTES
  dsimp only
  omega

/-- Different areas of a region are apart. -/
theorem area_apart {x y : Area} (hx : c.HasArea x) (hy : c.HasArea y) (hne : x ≠ y) :
    (c.span x).Apart (c.span y) := by
  have hstaging : c.netStageOff ≤ c.netOff + c.capBytes / 2 :=
    Nat.le_trans (Nat.le_add_right _ _) c.staging_stop_le
  have hcredit : ∀ {sender group : Nat}, sender < c.npeers →
      (c.span (.creditWord sender)).stop ≤ (c.span (.inbox group)).off := fun h =>
    Nat.le_trans (Nat.le_trans (c.creditWord_stop_le h) hstaging) (Nat.le_add_right _ _)
  have hstage : ∀ {group : Nat}, (c.span .staging).stop ≤ (c.span (.inbox group)).off :=
    Nat.le_trans c.staging_stop_le (Nat.le_add_right _ _)
  have hnet : ∀ {a : Nat} {p : Part} {z : Area}, a < c.narenas → c.HasArea z →
      (∀ b q, z ≠ .arena b q) → (c.span (.arena a p)).stop ≤ (c.span z).off := fun ha hz h =>
    Nat.le_trans (c.arena_stop_le ha _) (c.net_within hz h).1
  cases x with
  | arena a p =>
      cases y with
      | arena b q =>
          by_cases hab : a = b
          · subst hab
            exact c.part_apart (by rintro rfl; exact hne rfl) a
          · exact (slotAt_apart hab).of_within (c.arena_within a p) (c.arena_within b q)
      | creditWord sender => exact .inl (hnet hx hy (by intros; simp))
      | staging => exact .inl (hnet hx hy (by intros; simp))
      | inbox group => exact .inl (hnet hx hy (by intros; simp))
  | creditWord sender =>
      cases y with
      | arena b q => exact .inr (hnet hy hx (by intros; simp))
      | creditWord other => exact slotAt_apart (fun h => hne (h ▸ rfl))
      | staging => exact .inl (c.creditWord_stop_le hx)
      | inbox group => exact .inl (hcredit hx)
  | staging =>
      cases y with
      | arena b q => exact .inr (hnet hy hx (by intros; simp))
      | creditWord other => exact .inr (c.creditWord_stop_le hy)
      | staging => exact absurd rfl hne
      | inbox group => exact .inl hstage
  | inbox group =>
      cases y with
      | arena b q => exact .inr (hnet hy hx (by intros; simp))
      | creditWord other => exact .inr (hcredit hy)
      | staging => exact .inr hstage
      | inbox other => exact slotAt_apart (fun h => hne (h ▸ rfl))

/-! ### Landing groups -/

/-- The bytes in which the payload of one sender lands. -/
def peerSlot (seq slotBytes sender : Nat) : Span := slotAt (c.inboxBase seq) slotBytes sender

/-- The slots of one exchange lie in its landing group when they fit its size. -/
theorem peerSlot_within {slotBytes sender : Nat} (seq : Nat)
    (hfit : c.npeers * slotBytes ≤ c.inboxGroup) (h : sender < c.npeers) :
    (c.peerSlot seq slotBytes sender).Within (c.span (.inbox (seq % c.nslots))) := by
  refine ⟨Nat.le_add_right _ _, ?_⟩
  refine Nat.le_trans (slotAt_stop_le _ _ h) ?_
  show _ ≤ c.inboxBase seq + c.inboxGroup
  omega

end Comm

end TorchMojoBackend.Ccl
