/-
  `Ccl.SymmetricAllReduce`: the staging of the all-reduce of one node.

  Source: tmb/ccl/device/symmetric/all_reduce.mojo (`_ar_twoshot_kernel`,
  `_ar_oneshot_kernel`, `_rs_stage_body`, `_launch_allreduce`, `allreduce`, `_split_blocks`,
  `_check_split`, `_launch_rs_stage`) and primitives.mojo.

  The bytes of a region that a launch writes, not what it writes there.  Sizes are
  naturals.
-/
import TorchMojoBackend.Ccl.PlansFit
import Mathlib.Tactic.IntervalCases

set_option autoImplicit false

namespace TorchMojoBackend.Ccl.Symmetric

open TorchMojoBackend.Foundation

/-! ## Launches -/

def BLOCK : Nat := 256
def ONESHOT_MAX_BYTES : Nat := 512 * 1024
def AR_BIG_BYTES : Nat := 64 * 1024 * 1024
def AR_MAX_BLOCKS (amd : Bool) : Nat := if amd then 128 else 216
def AR_BIG_BLOCKS (amd : Bool) : Nat := if amd then 912 else 128

/-- The arguments of `allreduce`; `item` is the size of an element. -/
structure Args where
  rank : Nat
  world : Nat
  inPtr : Nat
  outPtr : Nat
  numel : Nat
  item : Nat
  capBytes : Nat
  generation : Nat
  deriving DecidableEq, Repr

/-- What is launched: the stride of the slots, where they begin, where the reduced shards
begin, and the grid. -/
inductive Launch where
  | oneShot (slot pushOff blocks : Nat)
  | twoShot (slot pushOff shardOff blocks : Nat)
  deriving DecidableEq, Repr

/-- `_check_common`. -/
def checkCommon (a : Args) : Except String Unit :=
  if a.world < 1 ∨ a.world > MAX_WORLD then .error "collectives: world must be in 1..8"
  else if a.rank ≥ a.world then .error "collectives: rank out of range"
  else if a.generation < 1 then .error "collectives: generation must start at 1"
  else if a.capBytes = 0 ∨ a.capBytes % 4096 ≠ 0 then
    .error "collectives: cap_bytes must be a positive 4 KiB multiple"
  else .ok ()

namespace Args

variable (a : Args)

/-- `W`. -/
def width : Nat := 16 / a.item

def nvec : Nat := a.numel / a.width
def tail : Nat := a.numel - a.nvec * a.width
def q : Nat := a.nvec / a.world
def rem : Nat := a.nvec % a.world

/-- `_vstart`. -/
def vstart (s : Nat) : Nat := s * a.q + min s a.rem

/-- The 16-byte vectors of the shard of rank `s`. -/
def vcount (s : Nat) : Nat := Ccl.vcount s a.q a.rem

/-- The slots of the two-shot path. -/
def twoShotSlot : Nat :=
  let maxShardElems := max ((a.q + if a.rem > 0 then 1 else 0) * a.width) (a.q * a.width + a.tail)
  alignUp (maxShardElems * a.item) 16

end Args

def STAGING_ERROR : String := "collectives: allreduce staging exceeds the region"
def ONESHOT_ERROR : String := "collectives: one-shot slots exceed the region"
def SPLIT_ERROR : String := "collectives: split push slots exceed the region"

/-- `_launch_allreduce`. -/
def launchAllreduce (amd : Bool) (a : Args) (oneShot : Bool) : Except String Launch :=
  let arena := signalBytes
  let arenaEnd := signalBytes + 2 * a.capBytes
  if oneShot then
    let slot := alignUp (a.numel * a.item) 16
    if a.world * slot > 2 * a.capBytes then .error ONESHOT_ERROR
    else .ok (.oneShot slot arena
      (min (AR_MAX_BLOCKS amd) (max 1 ((a.nvec + BLOCK - 1) / BLOCK))))
  else
    let slot := a.twoShotSlot
    let shardOff := arena + a.world * slot
    let tailSlots := 1
    let last := shardOff + (if amd then max (a.world - 1) 1 else tailSlots) * slot
    if last > arenaEnd then .error STAGING_ERROR
    else
      let capBlocks :=
        if a.numel * a.item ≥ AR_BIG_BYTES then AR_BIG_BLOCKS amd else AR_MAX_BLOCKS amd
      .ok (.twoShot slot arena shardOff
        (min capBlocks (max 1 ((a.q + 1 + BLOCK - 1) / BLOCK))))

/-- `allreduce`: the launch, if there is anything to reduce. -/
def allreduce (amd : Bool) (a : Args) : Except String (Option Launch) :=
  match checkCommon a with
  | .error e => .error e
  | .ok () =>
      let bytes := a.numel * a.item
      let oneShot := decide (bytes ≤ ONESHOT_MAX_BYTES) &&
        decide (a.world * alignUp bytes 16 ≤ 2 * a.capBytes)
      if a.numel = 0 then .ok none
      else if a.numel * a.item > a.capBytes then
        .error "collectives: allreduce message exceeds cap_bytes"
      else if (a.inPtr ||| a.outPtr) % 16 ≠ 0 then
        .error "collectives: allreduce needs 16-byte aligned in_ptr and out_ptr"
      else (launchAllreduce amd a oneShot).map some

/-- The entry points of the split all-reduce. -/
inductive Half where
  | reduceScatter | allgatherFinish
  deriving DecidableEq, Repr

/-- `what` of `_check_split`. -/
def Half.what : Half → String
  | .reduceScatter => "reduce_scatter"
  | .allgatherFinish => "allgather_finish"

/-- `_check_split`, for a buffer at `ptr`: the elements of a shard. -/
def checkSplit (a : Args) (ptr : Nat) (half : Half) : Except String Nat :=
  match checkCommon a with
  | .error e => .error e
  | .ok () =>
      let per := shardPer a.numel a.world a.width
      if a.numel * a.item > a.capBytes then
        .error ("collectives: " ++ half.what ++ " message exceeds cap_bytes")
      else if ptr % 16 ≠ 0 then
        .error ("collectives: " ++ half.what ++ " needs a 16-byte aligned buffer")
      else if (a.world - 1) * per * a.item > a.capBytes then .error SPLIT_ERROR
      else .ok per

/-! ## What is written -/

/-- The ranks other than `owner`. -/
def peers (world owner : Nat) : List Nat := (List.range world).filter (· ≠ owner)

/-- `_gather_slot`. -/
def gatherSlot (writer owner : Nat) : Nat := if writer < owner then writer else writer - 1

/-- The first `len` bytes of slot `i`. -/
def inSlot (base slot i len : Nat) : Span := ⟨base + slot * i, len⟩

namespace Args

variable (a : Args)

/-- The bytes of the shard of rank `s`: its vectors, and after those of the last rank the
elements that fill none. -/
def shardBytes (s : Nat) : Nat :=
  a.vcount s * 16 + (if s = a.world - 1 then a.tail else 0) * a.item

/-- Where a launch of `allreduce` writes in the region of rank `owner`: its peers push their
inputs there; then `owner` leaves its reduced shard for them, or they push theirs. -/
def staged (amd : Bool) (owner : Nat) : Launch → List Span
  | .oneShot slot pushOff _ =>
      (peers a.world owner).map fun p => inSlot pushOff slot p (a.numel * a.item)
  | .twoShot slot pushOff shardOff _ =>
      (peers a.world owner).map (fun p => inSlot pushOff slot p (a.shardBytes owner)) ++
        if amd then
          (peers a.world owner).map fun p =>
            inSlot shardOff slot (gatherSlot p owner) (a.shardBytes p)
        else [⟨shardOff, a.shardBytes owner⟩]

/-- Where the stage of the split all-reduce with shards of `per` elements writes in the
region of rank `owner`. -/
def splitStaged (per owner : Nat) : List Span :=
  let cnt := shardCnt a.numel per owner
  (peers a.world owner).map (fun p =>
      inSlot signalBytes (per * a.item) (gatherSlot p owner) (cnt * a.item)) ++
    [⟨signalBytes + a.capBytes + shardOff a.numel per owner * a.item, cnt * a.item⟩]

end Args

/-- The arena of a region, behind the signal area. -/
def arena (capBytes : Nat) : Span := ⟨signalBytes, 2 * capBytes⟩

/-! ## Slots -/

theorem inSlot_within {base slot i len : Nat} (h : len ≤ slot) :
    (inSlot base slot i len).Within (slotAt base slot i) := by
  refine ⟨?_, ?_⟩
  · exact (congrArg (base + ·) (Nat.mul_comm i slot)).le
  · rw [slotAt_stop, Nat.succ_mul, Nat.mul_comm i slot]
    unfold inSlot Span.stop
    dsimp only
    omega

theorem inSlot_apart {base slot i j li lj : Nat} (hi : li ≤ slot) (hj : lj ≤ slot) (h : i ≠ j) :
    (inSlot base slot i li).Apart (inSlot base slot j lj) :=
  (slotAt_apart h).of_within (inSlot_within hi) (inSlot_within hj)

theorem inSlot_stop_le {base slot i n len : Nat} (hlen : len ≤ slot) (hi : i < n) :
    (inSlot base slot i len).stop ≤ base + n * slot :=
  Nat.le_trans (inSlot_within hlen).2 (slotAt_stop_le base slot hi)

theorem mem_peers {world owner p : Nat} : p ∈ peers world owner ↔ p < world ∧ p ≠ owner := by
  unfold peers
  rw [List.mem_filter, List.mem_range, decide_eq_true_iff]

theorem peers_nodup (world owner : Nat) : (peers world owner).Nodup := List.nodup_range.filter _

/-- The slots of the peers are apart, when different peers use different slots. -/
theorem peers_apart {world owner base slot : Nat} {index len : Nat → Nat}
    (hlen : ∀ p ∈ peers world owner, len p ≤ slot)
    (hindex : ∀ p ∈ peers world owner, ∀ p' ∈ peers world owner, p ≠ p' → index p ≠ index p') :
    ((peers world owner).map fun p => inSlot base slot (index p) (len p)).Pairwise Span.Apart := by
  refine List.pairwise_map.mpr ((peers_nodup world owner).imp_of_mem ?_)
  intro p p' hp hp' hne
  exact inSlot_apart (hlen p hp) (hlen p' hp') (hindex p hp p' hp' hne)

theorem gatherSlot_lt {writer owner world : Nat} (hw : writer < world) (ho : owner < world)
    (hne : writer ≠ owner) : gatherSlot writer owner < world - 1 := by
  unfold gatherSlot
  split <;> omega

theorem gatherSlot_inj {p p' owner : Nat} (hp : p ≠ owner) (hp' : p' ≠ owner) (hne : p ≠ p') :
    gatherSlot p owner ≠ gatherSlot p' owner := by
  unfold gatherSlot
  split <;> split <;> omega

/-! ## The two-shot path -/

namespace Args

variable {a : Args}

/-- The bytes of a message: its vectors, shared out to the ranks, and the rest. -/
theorem bytes_eq (hitem : a.item ∣ 16) :
    a.numel * a.item = a.world * a.q * 16 + a.rem * 16 + a.tail * a.item ∧
      a.tail * a.item < 16 := by
  have hW : 0 < a.width := width_pos hitem
  have hitem16 : a.width * a.item = 16 := mul_width hitem
  have hdiv := Nat.div_add_mod a.numel a.width
  have hmod := Nat.mod_lt a.numel hW
  have hvec := Nat.div_add_mod a.nvec a.world
  have htail : a.tail = a.numel % a.width := by
    unfold tail nvec
    rw [Nat.mul_comm]
    omega
  refine ⟨?_, ?_⟩
  · have hnum : a.numel = a.nvec * a.width + a.tail := by
      rw [htail, Nat.mul_comm]
      exact hdiv.symm
    have hnvec : a.nvec = a.world * a.q + a.rem := hvec.symm
    calc a.numel * a.item = a.nvec * (a.width * a.item) + a.tail * a.item := by
          rw [← Nat.mul_assoc, ← Nat.add_mul, ← hnum]
      _ = _ := by rw [hitem16, hnvec, Nat.add_mul]
  · rw [htail, ← hitem16]
    exact Nat.mul_lt_mul_of_pos_right hmod (item_pos hitem)

/-- The bytes of any shard fit a slot. -/
theorem shardBytes_le (hitem : a.item ∣ 16) {s : Nat} (hs : s < a.world) :
    a.shardBytes s ≤ a.twoShotSlot := by
  have hitem16 : a.width * a.item = 16 := mul_width hitem
  have hrem : a.rem < a.world := Nat.mod_lt _ (by omega)
  unfold twoShotSlot
  dsimp only
  refine Nat.le_trans ?_ (le_alignUp (by decide))
  unfold shardBytes vcount Ccl.vcount
  by_cases hlast : s = a.world - 1
  · have hnot : ¬ s < a.rem := by omega
    rw [if_pos hlast, if_neg hnot, Nat.add_zero, ← hitem16, ← Nat.mul_assoc, ← Nat.add_mul]
    exact Nat.mul_le_mul_right _ (Nat.le_max_right _ _)
  · rw [if_neg hlast, Nat.zero_mul, Nat.add_zero, ← hitem16, ← Nat.mul_assoc]
    refine Nat.mul_le_mul_right _ (Nat.le_trans ?_ (Nat.le_max_left _ _))
    refine Nat.mul_le_mul_right _ (Nat.add_le_add_left ?_ _)
    by_cases hlt : s < a.rem
    · rw [if_pos hlt, if_pos (Nat.lt_of_le_of_lt (Nat.zero_le s) hlt)]
    · rw [if_neg hlt]
      exact Nat.zero_le _

/-- A slot is as large as the vectors every rank has, and one vector more where some are left
over. -/
theorem twoShotSlot_le (hitem : a.item ∣ 16) :
    a.twoShotSlot ≤ 16 * (a.q + 1) ∧
      (a.rem = 0 → a.tail * a.item = 0 → a.twoShotSlot ≤ 16 * a.q) := by
  have hitem16 : a.width * a.item = 16 := mul_width hitem
  have hitem0 : 0 < a.item := item_pos hitem
  have hbytes := (bytes_eq hitem).2
  have htail : a.tail ≤ a.width := by
    refine Nat.le_of_mul_le_mul_right ?_ hitem0
    omega
  have hscale : ∀ m, m * a.width * a.item = 16 * m := fun m => by
    rw [Nat.mul_assoc, hitem16, Nat.mul_comm]
  refine ⟨alignUp_le (Nat.dvd_mul_right 16 _) ?_, fun hrem hzero =>
    alignUp_le (Nat.dvd_mul_right 16 _) ?_⟩
  · rw [← hscale]
    refine Nat.mul_le_mul_right _ (Nat.max_le.mpr ⟨Nat.mul_le_mul_right _ ?_, ?_⟩)
    · split <;> omega
    · rw [Nat.succ_mul]
      omega
  · have hnone : a.tail = 0 := (Nat.mul_eq_zero.mp hzero).resolve_right hitem0.ne'
    rw [← hscale, hrem, hnone, if_neg (Nat.lt_irrefl 0), Nat.add_zero, Nat.add_zero, Nat.max_self]

/-- The staging of a message no larger than half the arena fits the arena. -/
theorem twoShot_fits (hitem : a.item ∣ 16) (hworld : 1 ≤ a.world) (hmax : a.world ≤ 8)
    (hcap : 4096 ∣ a.capBytes) (hpos : 0 < a.capBytes) (hfit : a.numel * a.item ≤ a.capBytes) :
    a.world * a.twoShotSlot + max (a.world - 1) 1 * a.twoShotSlot ≤ 2 * a.capBytes := by
  obtain ⟨hbytes, htail⟩ := bytes_eq hitem
  obtain ⟨hslot, hexact⟩ := twoShotSlot_le hitem
  obtain ⟨k, hk⟩ := hcap
  generalize a.tail * a.item = t at *
  generalize a.twoShotSlot = slot at *
  generalize a.world = w at *
  generalize a.q = q at *
  rw [hbytes, hk] at hfit
  rw [hk] at hpos ⊢
  obtain ⟨v, rfl⟩ : ∃ v, w = v + 1 := ⟨w - 1, by omega⟩
  rw [Nat.add_sub_cancel]
  by_cases hone : v = 0
  · subst hone
    rw [Nat.max_eq_right (Nat.zero_le 1)]
    by_cases hnone : a.rem = 0 ∧ t = 0
    · have hle := hexact hnone.1 hnone.2
      omega
    · omega
  · have hv : v ≤ 7 := by omega
    rw [Nat.max_eq_left (by omega)]
    by_cases hnone : a.rem = 0 ∧ t = 0
    · have hle := hexact hnone.1 hnone.2
      interval_cases v <;> omega
    · interval_cases v <;> omega

end Args

/-! ## Nothing is out of the arena -/

/-- What the checks of `allreduce` let through. -/
structure Args.Checked (a : Args) : Prop where
  item_dvd : a.item ∣ 16
  world_pos : 1 ≤ a.world
  world_le : a.world ≤ MAX_WORLD
  rank_lt : a.rank < a.world
  generation_pos : 1 ≤ a.generation
  cap_pos : 0 < a.capBytes
  page : 4096 ∣ a.capBytes
  fits : a.numel * a.item ≤ a.capBytes

theorem checkCommon_ok {a : Args} (h : a.Checked) : checkCommon a = .ok () := by
  have hworld : ¬ (a.world < 1 ∨ a.world > MAX_WORLD) := by
    have := h.world_pos
    have := h.world_le
    omega
  have hcap : ¬ (a.capBytes = 0 ∨ a.capBytes % 4096 ≠ 0) := by
    have := h.cap_pos
    have := h.page
    omega
  unfold checkCommon
  rw [if_neg hworld, if_neg (Nat.not_le.mpr h.rank_lt), if_neg (Nat.not_lt.mpr h.generation_pos),
    if_neg hcap]

theorem of_checkCommon {a : Args} (hitem : a.item ∣ 16) (hfit : a.numel * a.item ≤ a.capBytes)
    (h : checkCommon a = .ok ()) : a.Checked := by
  unfold checkCommon at h
  split at h
  · cases h
  rename_i hworld
  split at h
  · cases h
  rename_i hrank
  split at h
  · cases h
  rename_i hgeneration
  split at h
  · cases h
  rename_i hcap
  exact ⟨hitem, by omega, by omega, by omega, by omega, by omega, by omega, hfit⟩

/-- What the one-shot path stages for a message that is small enough for it. -/
theorem launch_oneShot {a : Args} (amd : Bool)
    (hslots : a.world * alignUp (a.numel * a.item) 16 ≤ 2 * a.capBytes) :
    ∃ blocks, launchAllreduce amd a true =
      .ok (.oneShot (alignUp (a.numel * a.item) 16) signalBytes blocks) := by
  unfold launchAllreduce
  dsimp only
  rw [if_pos rfl, if_neg (Nat.not_lt.mpr hslots)]
  exact ⟨_, rfl⟩

theorem launch_twoShot {a : Args} (amd : Bool) (h : a.Checked) :
    ∃ blocks, launchAllreduce amd a false =
      .ok (.twoShot a.twoShotSlot signalBytes (signalBytes + a.world * a.twoShotSlot) blocks) := by
  have hfits := a.twoShot_fits h.item_dvd h.world_pos h.world_le h.page h.cap_pos h.fits
  have htail : (if amd then max (a.world - 1) 1 else 1) * a.twoShotSlot ≤
      max (a.world - 1) 1 * a.twoShotSlot := by
    refine Nat.mul_le_mul_right _ ?_
    split
    · exact Nat.le_refl _
    · exact Nat.le_max_right _ _
  unfold launchAllreduce
  dsimp only
  rw [if_neg Bool.false_ne_true, if_neg (by omega)]
  exact ⟨_, rfl⟩

/-- A list of spans that are apart from one another, inside the arena. -/
def Placed (capBytes : Nat) (spans : List Span) : Prop :=
  spans.Pairwise Span.Apart ∧ ∀ s ∈ spans, s.Within (arena capBytes)

/-- The slots of the peers of a rank from `base` on. -/
theorem peers_within {world owner base slot : Nat} {len : Nat → Nat} (index : Nat → Nat)
    (count : Nat)
    (hlen : ∀ p ∈ peers world owner, len p ≤ slot)
    (hindex : ∀ p ∈ peers world owner, index p < count) (hbase : signalBytes ≤ base) :
    ∀ s ∈ (peers world owner).map fun p => inSlot base slot (index p) (len p),
      signalBytes ≤ s.off ∧ s.stop ≤ base + count * slot := by
  intro s hs
  obtain ⟨p, hp, rfl⟩ := List.mem_map.mp hs
  exact ⟨Nat.le_trans hbase (Nat.le_add_right _ _), inSlot_stop_le (hlen p hp) (hindex p hp)⟩

theorem placed_oneShot {a : Args} (amd : Bool) {owner blocks : Nat}
    (hslots : a.world * alignUp (a.numel * a.item) 16 ≤ 2 * a.capBytes) :
    Placed a.capBytes
      (a.staged amd owner (.oneShot (alignUp (a.numel * a.item) 16) signalBytes blocks)) := by
  have hlen : ∀ p ∈ peers a.world owner, a.numel * a.item ≤ alignUp (a.numel * a.item) 16 :=
    fun _ _ => le_alignUp (by decide)
  refine ⟨peers_apart hlen fun p _ p' _ hne => hne, ?_⟩
  intro s hs
  obtain ⟨hoff, hstop⟩ := peers_within (fun p => p) a.world hlen
    (fun p hp => (mem_peers.mp hp).1) (Nat.le_refl _) s hs
  exact ⟨hoff, Nat.le_trans hstop (Nat.add_le_add_left hslots _)⟩

theorem placed_twoShot {a : Args} (amd : Bool) (h : a.Checked) {owner blocks : Nat}
    (howner : owner < a.world) :
    Placed a.capBytes (a.staged amd owner (.twoShot a.twoShotSlot signalBytes
      (signalBytes + a.world * a.twoShotSlot) blocks)) := by
  have hfits := a.twoShot_fits h.item_dvd h.world_pos h.world_le h.page h.cap_pos h.fits
  have hown : ∀ p ∈ peers a.world owner, a.shardBytes owner ≤ a.twoShotSlot := fun _ _ =>
    a.shardBytes_le h.item_dvd howner
  have hlen : ∀ p ∈ peers a.world owner, a.shardBytes p ≤ a.twoShotSlot := fun p hp =>
    a.shardBytes_le h.item_dvd (mem_peers.mp hp).1
  have hpush := peers_within (fun p => p) a.world hown (fun p hp => (mem_peers.mp hp).1) (Nat.le_refl signalBytes)
  have hstart : signalBytes ≤ signalBytes + a.world * a.twoShotSlot := Nat.le_add_right _ _
  have hgather := peers_within (gatherSlot · owner) (a.world - 1) hlen
    (fun p hp => gatherSlot_lt (mem_peers.mp hp).1 howner (mem_peers.mp hp).2) hstart
  unfold Args.staged
  dsimp only
  refine ⟨List.pairwise_append.mpr ⟨peers_apart hown fun p _ p' _ hne => hne, ?_, ?_⟩, ?_⟩
  · split
    · exact peers_apart hlen fun p hp p' hp' hne =>
        gatherSlot_inj (mem_peers.mp hp).2 (mem_peers.mp hp').2 hne
    · exact List.pairwise_singleton _ _
  · intro s hs t ht
    refine .inl (Nat.le_trans (hpush s hs).2 ?_)
    split at ht
    · obtain ⟨p, -, rfl⟩ := List.mem_map.mp ht
      exact Nat.le_add_right _ _
    · obtain rfl := List.mem_singleton.mp ht
      exact Nat.le_refl _
  · intro s hs
    obtain hs | hs := List.mem_append.mp hs
    · obtain ⟨hoff, hstop⟩ := hpush s hs
      refine ⟨hoff, Nat.le_trans hstop ?_⟩
      show _ ≤ signalBytes + 2 * a.capBytes
      omega
    · split at hs
      · obtain ⟨hoff, hstop⟩ := hgather s hs
        refine ⟨hoff, Nat.le_trans hstop ?_⟩
        have : (a.world - 1) * a.twoShotSlot ≤ max (a.world - 1) 1 * a.twoShotSlot :=
          Nat.mul_le_mul_right _ (Nat.le_max_left _ _)
        show _ ≤ signalBytes + 2 * a.capBytes
        omega
      · obtain rfl := List.mem_singleton.mp hs
        refine ⟨hstart, ?_⟩
        have hone : a.twoShotSlot ≤ max (a.world - 1) 1 * a.twoShotSlot :=
          Nat.le_mul_of_pos_left _ (Nat.lt_of_lt_of_le Nat.one_pos (Nat.le_max_right _ _))
        have := a.shardBytes_le h.item_dvd howner
        show signalBytes + a.world * a.twoShotSlot + a.shardBytes owner ≤
          signalBytes + 2 * a.capBytes
        omega

/-- The push slots of the split all-reduce fit half the arena. -/
theorem split_fits {a : Args} (h : a.Checked) :
    (a.world - 1) * shardPer a.numel a.world a.width * a.item ≤ a.capBytes := by
  by_cases hn : a.numel = 0
  · unfold shardPer
    rw [if_pos (.inl hn), Nat.mul_zero, Nat.zero_mul]
    exact Nat.zero_le _
  have hlt := world_mul_shardPer_lt (n := a.numel) h.item_dvd (Nat.pos_of_ne_zero hn) h.world_pos
  have hworld : a.world ≤ 8 := h.world_le
  have hcap : 4096 ≤ a.capBytes := Nat.le_of_dvd h.cap_pos h.page
  have hfit := h.fits
  rw [Nat.mul_assoc, Nat.sub_mul, Nat.one_mul]
  change a.world * (shardPer a.numel a.world a.width * a.item) < _ at hlt
  generalize shardPer a.numel a.world a.width * a.item = slot at *
  by_cases hslot : 32 * a.world ≤ slot
  · omega
  · have : a.world * slot ≤ 8 * slot := Nat.mul_le_mul_right slot hworld
    omega

theorem placed_split {a : Args} (h : a.Checked) {owner : Nat} (howner : owner < a.world) :
    Placed a.capBytes (a.splitStaged (shardPer a.numel a.world a.width) owner) := by
  generalize hper : shardPer a.numel a.world a.width = per
  have hfits := split_fits h
  rw [hper, Nat.mul_assoc] at hfits
  have hcnt : shardCnt a.numel per owner ≤ per := by
    rw [shardCnt_eq]
    exact Nat.min_le_left _ _
  have hstop : shardOff a.numel per owner + shardCnt a.numel per owner ≤ a.numel := by
    rw [shardOff_eq, shardCnt_eq]
    omega
  have hbytes : shardOff a.numel per owner * a.item + shardCnt a.numel per owner * a.item ≤
      a.capBytes := by
    rw [← Nat.add_mul]
    exact Nat.le_trans (Nat.mul_le_mul_right _ hstop) h.fits
  have hlen : ∀ p ∈ peers a.world owner, shardCnt a.numel per owner * a.item ≤ per * a.item :=
    fun _ _ => Nat.mul_le_mul_right _ hcnt
  have hpush := peers_within (gatherSlot · owner) (a.world - 1) hlen
    (fun p hp => gatherSlot_lt (mem_peers.mp hp).1 howner (mem_peers.mp hp).2)
    (Nat.le_refl signalBytes)
  unfold Args.splitStaged
  dsimp only
  refine ⟨List.pairwise_append.mpr ⟨peers_apart hlen ?_, List.pairwise_singleton _ _, ?_⟩, ?_⟩
  · exact fun p hp p' hp' hne => gatherSlot_inj (mem_peers.mp hp).2 (mem_peers.mp hp').2 hne
  · intro s hs t ht
    obtain rfl := List.mem_singleton.mp ht
    refine .inl (Nat.le_trans (hpush s hs).2 ?_)
    show _ ≤ signalBytes + a.capBytes + shardOff a.numel per owner * a.item
    omega
  · intro s hs
    obtain hs | hs := List.mem_append.mp hs
    · obtain ⟨hoff, hstop⟩ := hpush s hs
      refine ⟨hoff, Nat.le_trans hstop ?_⟩
      show _ ≤ signalBytes + 2 * a.capBytes
      omega
    · obtain rfl := List.mem_singleton.mp hs
      refine ⟨?_, ?_⟩
      · show signalBytes ≤ signalBytes + a.capBytes + shardOff a.numel per owner * a.item
        omega
      · show signalBytes + a.capBytes + shardOff a.numel per owner * a.item +
          shardCnt a.numel per owner * a.item ≤ signalBytes + 2 * a.capBytes
        omega

/-- The launch of arguments that pass the checks, and what it stages. -/
theorem launch_placed {a : Args} (amd : Bool) (h : a.Checked) :
    ∃ l, launchAllreduce amd a (decide (a.numel * a.item ≤ ONESHOT_MAX_BYTES) &&
        decide (a.world * alignUp (a.numel * a.item) 16 ≤ 2 * a.capBytes)) = .ok l ∧
      ∀ owner, owner < a.world → Placed a.capBytes (a.staged amd owner l) := by
  by_cases hone : a.numel * a.item ≤ ONESHOT_MAX_BYTES ∧
      a.world * alignUp (a.numel * a.item) 16 ≤ 2 * a.capBytes
  · obtain ⟨blocks, hlaunch⟩ := launch_oneShot amd hone.2
    rw [decide_eq_true hone.1, decide_eq_true hone.2]
    exact ⟨_, hlaunch, fun owner _ => placed_oneShot amd hone.2⟩
  · obtain ⟨blocks, hlaunch⟩ := launch_twoShot amd h
    rw [← Bool.decide_and, decide_eq_false hone]
    exact ⟨_, hlaunch, fun owner howner => placed_twoShot amd h howner⟩

/-- What `allreduce` does behind its first checks. -/
theorem allreduce_checked {a : Args} (amd : Bool) (h : a.Checked) (hn : 0 < a.numel)
    (haligned : (a.inPtr ||| a.outPtr) % 16 = 0) :
    ∃ l, allreduce amd a = .ok (some l) ∧
      ∀ owner, owner < a.world → Placed a.capBytes (a.staged amd owner l) := by
  obtain ⟨l, hlaunch, hplaced⟩ := launch_placed amd h
  refine ⟨l, ?_, hplaced⟩
  unfold allreduce
  rw [checkCommon_ok h]
  dsimp only
  rw [if_neg hn.ne', if_neg (Nat.not_lt.mpr h.fits), if_neg (not_not.mpr haligned), hlaunch]
  rfl

theorem checkSplit_checked {a : Args} (h : a.Checked) {ptr : Nat} (half : Half)
    (haligned : ptr % 16 = 0) :
    checkSplit a ptr half = .ok (shardPer a.numel a.world a.width) := by
  unfold checkSplit
  rw [checkCommon_ok h]
  dsimp only
  rw [if_neg (Nat.not_lt.mpr h.fits), if_neg (not_not.mpr haligned),
    if_neg (Nat.not_lt.mpr (split_fits h))]

/-- The errors of the first checks are none of the staging. -/
theorem checkCommon_error {a : Args} {e : String} (h : checkCommon a = .error e) :
    e ≠ STAGING_ERROR ∧ e ≠ ONESHOT_ERROR ∧ e ≠ SPLIT_ERROR := by
  unfold checkCommon at h
  split at h
  · cases h
    decide
  split at h
  · cases h
    decide
  split at h
  · cases h
    decide
  split at h
  · cases h
    decide
  · cases h

theorem allreduce_error {a : Args} (amd : Bool) (hitem : a.item ∣ 16) {e : String}
    (h : allreduce amd a = .error e) : e ≠ STAGING_ERROR ∧ e ≠ ONESHOT_ERROR := by
  cases hcommon : checkCommon a with
  | error e' =>
      unfold allreduce at h
      rw [hcommon] at h
      cases h
      exact ⟨(checkCommon_error hcommon).1, (checkCommon_error hcommon).2.1⟩
  | ok u =>
      by_cases hn : a.numel = 0
      · unfold allreduce at h
        rw [hcommon] at h
        dsimp only at h
        rw [if_pos hn] at h
        cases h
      by_cases hfit : a.numel * a.item > a.capBytes
      · unfold allreduce at h
        rw [hcommon] at h
        dsimp only at h
        rw [if_neg hn, if_pos hfit] at h
        cases h
        decide
      have hfit := Nat.not_lt.mp hfit
      by_cases haligned : (a.inPtr ||| a.outPtr) % 16 = 0
      · obtain ⟨l, hok, -⟩ := allreduce_checked amd (of_checkCommon hitem hfit hcommon)
          (Nat.pos_of_ne_zero hn) haligned
        rw [hok] at h
        cases h
      · unfold allreduce at h
        rw [hcommon] at h
        dsimp only at h
        rw [if_neg hn, if_neg (Nat.not_lt.mpr hfit), if_pos haligned] at h
        cases h
        decide

theorem checkSplit_error {a : Args} (hitem : a.item ∣ 16) {ptr : Nat} {half : Half} {e : String}
    (h : checkSplit a ptr half = .error e) : e ≠ SPLIT_ERROR := by
  cases hcommon : checkCommon a with
  | error e' =>
      unfold checkSplit at h
      rw [hcommon] at h
      cases h
      exact (checkCommon_error hcommon).2.2
  | ok u =>
      by_cases hfit : a.numel * a.item > a.capBytes
      · unfold checkSplit at h
        rw [hcommon] at h
        dsimp only at h
        rw [if_pos hfit] at h
        cases h
        cases half <;> decide
      have hfit := Nat.not_lt.mp hfit
      by_cases haligned : ptr % 16 = 0
      · rw [checkSplit_checked (of_checkCommon hitem hfit hcommon) half haligned] at h
        cases h
      · unfold checkSplit at h
        rw [hcommon] at h
        dsimp only at h
        rw [if_neg (Nat.not_lt.mpr hfit), if_pos haligned] at h
        cases h
        cases half <;> decide

/-- Whatever the arguments, no check of the staging fails, on either kind of device, for the
one-shot path, the two-shot path and the split pair; a message that fits half the arena is
launched, and what the launch writes in any rank's region is in its arena and apart. -/
theorem staging_fits (amd : Bool) (a : Args) (hitem : a.item ∣ 16) :
    allreduce amd a ≠ .error STAGING_ERROR ∧ allreduce amd a ≠ .error ONESHOT_ERROR ∧
    (∀ ptr half, checkSplit a ptr half ≠ .error SPLIT_ERROR) ∧
    (1 ≤ a.world → a.world ≤ MAX_WORLD → a.rank < a.world → 1 ≤ a.generation →
      0 < a.capBytes → 4096 ∣ a.capBytes → a.numel * a.item ≤ a.capBytes →
      (0 < a.numel → (a.inPtr ||| a.outPtr) % 16 = 0 →
        ∃ l, allreduce amd a = .ok (some l) ∧
          ∀ owner, owner < a.world → Placed a.capBytes (a.staged amd owner l)) ∧
      ∀ ptr half, ptr % 16 = 0 → ∃ per, checkSplit a ptr half = .ok per ∧
        ∀ owner, owner < a.world → Placed a.capBytes (a.splitStaged per owner)) := by
  refine ⟨fun h => (allreduce_error amd hitem h).1 rfl, fun h => (allreduce_error amd hitem h).2 rfl,
    fun ptr half h => checkSplit_error hitem h rfl, ?_⟩
  intro hworld hmax hrank hgeneration hcap hpage hfit
  have hchecked : a.Checked := ⟨hitem, hworld, hmax, hrank, hgeneration, hcap, hpage, hfit⟩
  refine ⟨fun hn haligned => allreduce_checked amd hchecked hn haligned, ?_⟩
  intro ptr half haligned
  exact ⟨_, checkSplit_checked hchecked half haligned, fun owner howner =>
    placed_split hchecked howner⟩

/-- A message of 4 KiB less 4 bytes of eight ranks, on the smallest region. -/
theorem staging_fits_smallest :
    4 ∣ 16 ∧ allreduce true ⟨3, 8, 0, 0, 1023, 4, 4096, 1⟩ ≠ .error STAGING_ERROR :=
  ⟨by decide, (staging_fits true ⟨3, 8, 0, 0, 1023, 4, 4096, 1⟩ (by decide)).1⟩

end TorchMojoBackend.Ccl.Symmetric
