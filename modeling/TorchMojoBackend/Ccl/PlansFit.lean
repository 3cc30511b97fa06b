/-
  `Ccl.PlansFit`: every chunk of every plan fits the region.

  The divisions of a plan compose through `alignUp_le`: a payload that fits a
  multiple of the alignment still fits it when rounded up.
-/
import TorchMojoBackend.Ccl.Plans

set_option autoImplicit false

namespace TorchMojoBackend.Ccl

open TorchMojoBackend.Foundation

/-! ## Shards -/

section Shards

variable {n world item : Nat}

/-- An element size `shard_range` accepts. -/
theorem mul_width (hitem : item ∣ 16) : 16 / item * item = 16 := Nat.div_mul_cancel hitem

theorem item_pos (hitem : item ∣ 16) : 0 < item := Nat.pos_of_dvd_of_pos hitem (by omega)

theorem width_pos (hitem : item ∣ 16) : 0 < 16 / item :=
  Nat.div_pos (Nat.le_of_dvd (by omega) hitem) (item_pos hitem)

theorem shardPer_eq (hn : 0 < n) (hworld : 0 < world) (W : Nat) :
    shardPer n world W = alignUp (pieces n world) W := by
  unfold shardPer
  rw [if_neg (by omega)]

theorem pieces_pos {m c : Nat} (hm : 0 < m) (hc : 0 < c) : 0 < pieces m c :=
  (lt_pieces_iff hc).mpr (by omega)

theorem pieces_le {m c : Nat} (hc : 0 < c) : pieces m c ≤ m := by
  obtain rfl | hm := Nat.eq_zero_or_pos m
  · unfold pieces
    rw [Nat.div_eq_of_lt (by omega)]
  · have h := pieces_mul_lt (n := m) hc
    by_contra hlt
    have hle : (m + 1) * c ≤ pieces m c * c := Nat.mul_le_mul_right c (by omega)
    have hm : m * 1 ≤ m * c := Nat.mul_le_mul_left m hc
    rw [Nat.succ_mul] at hle
    omega

theorem shardPer_pos (hn : 0 < n) (hworld : 0 < world) {W : Nat} (hW : 0 < W) :
    0 < shardPer n world W := by
  rw [shardPer_eq hn hworld]
  exact Nat.lt_of_lt_of_le (pieces_pos hn hworld) (le_alignUp hW)

theorem shardRange_eq (hitem : item ∣ 16) (hn : 0 < n) {rank : Nat} (hrank : rank < world) :
    shardRange n world rank item =
      (shardOff n (shardPer n world (16 / item)) rank,
        shardCnt n (shardPer n world (16 / item)) rank) := by
  have hpos := item_pos hitem
  have hle : item ≤ 16 := Nat.le_of_dvd (by omega) hitem
  have hmod : 16 % item = 0 := Nat.mod_eq_zero_of_dvd hitem
  have hper := shardPer_pos hn (Nat.zero_lt_of_lt hrank) (width_pos hitem)
  unfold shardRange
  rw [if_neg (by omega)]
  dsimp only
  rw [if_neg (by omega)]

theorem shardOff_eq (n per s : Nat) : shardOff n per s = min (s * per) n := by
  unfold shardOff
  dsimp only
  split <;> omega

theorem shardCnt_eq (n per s : Nat) : shardCnt n per s = min per (n - s * per) := by
  unfold shardCnt
  rw [shardOff_eq]
  dsimp only
  split <;> omega

/-- The shards of the ranks tile the buffer. -/
theorem tiles_shard (hitem : item ∣ 16) (hn : 0 < n) (hworld : 0 < world) :
    Tiles n world (shard n world item) := by
  have hper := shardPer_pos hn hworld (width_pos hitem)
  have hshard : ∀ r, r < world → shard n world item r =
      ⟨min (r * shardPer n world (16 / item)) n,
        min (shardPer n world (16 / item)) (n - r * shardPer n world (16 / item))⟩ := by
    intro r hr
    unfold shard
    rw [shardRange_eq hitem hn hr, shardOff_eq, shardCnt_eq]
  have hcover : n ≤ world * shardPer n world (16 / item) := by
    rw [shardPer_eq hn hworld]
    calc n ≤ pieces n world * world := le_pieces_mul hworld
      _ = world * pieces n world := Nat.mul_comm _ _
      _ ≤ world * alignUp (pieces n world) (16 / item) :=
          Nat.mul_le_mul_left world (le_alignUp (width_pos hitem))
  generalize shardPer n world (16 / item) = per at *
  refine ⟨?_, ?_⟩
  · intro i
    constructor
    · intro hi
      obtain ⟨r, -, hmem⟩ := ((tiles_chunk hper).cover i).mp hi
      obtain ⟨hlo, hhi, -⟩ := mem_chunk_iff.mp hmem
      have hr : r < world := by
        have : r * per < world * per := by omega
        exact Nat.lt_of_mul_lt_mul_right this
      refine ⟨r, hr, ?_⟩
      rw [hshard r hr, Span.mem_iff, Span.stop]
      rw [Nat.succ_mul] at hhi
      dsimp only
      omega
    · rintro ⟨r, hr, hmem⟩
      rw [hshard r hr, Span.mem_iff, Span.stop] at hmem
      dsimp only at hmem
      omega
  · intro r s hrs hs
    rw [hshard r (by omega), hshard s hs, Span.stop]
    have hle : (r + 1) * per ≤ s * per := Nat.mul_le_mul_right per hrs
    rw [Nat.succ_mul] at hle
    dsimp only
    omega

/-- A shard ends inside its buffer. -/
theorem shard_stop_le (hitem : item ∣ 16) (hn : 0 < n) {rank : Nat} (hrank : rank < world) :
    (shard n world item rank).stop ≤ n := by
  unfold shard Span.stop
  rw [shardRange_eq hitem hn hrank, shardOff_eq, shardCnt_eq]
  dsimp only
  omega

/-- A shard that holds something starts at a multiple of 16 bytes. -/
theorem shard_aligned (hitem : item ∣ 16) (hn : 0 < n) {rank : Nat} (hrank : rank < world)
    (hne : (shard n world item rank).len ≠ 0) : 16 ∣ (shard n world item rank).off * item := by
  unfold shard at hne ⊢
  rw [shardRange_eq hitem hn hrank, shardOff_eq, shardCnt_eq] at *
  dsimp only at hne ⊢
  have hmin : min (rank * shardPer n world (16 / item)) n =
      rank * shardPer n world (16 / item) := by omega
  obtain ⟨b, hb⟩ := dvd_alignUp (pieces n world) (16 / item)
  rw [hmin, shardPer_eq hn (Nat.zero_lt_of_lt hrank), hb, Nat.mul_comm (16 / item) b,
    ← Nat.mul_assoc, Nat.mul_assoc, mul_width hitem]
  exact Nat.dvd_mul_left _ _

/-- The bytes of a push slot: one shard, in whole vectors. -/
theorem shardPer_mul (hitem : item ∣ 16) (hn : 0 < n) (hworld : 0 < world) :
    shardPer n world (16 / item) * item = alignUp (pieces n world * item) 16 := by
  rw [shardPer_eq hn hworld, alignUp_mul (item_pos hitem), mul_width hitem]

theorem shardPer_mul_le {bytes : Nat} (hitem : item ∣ 16) (hn : 0 < n) (hworld : 0 < world)
    (hbytes : 16 ∣ bytes) (hfit : n * item ≤ bytes) :
    shardPer n world (16 / item) * item ≤ bytes := by
  rw [shardPer_mul hitem hn hworld]
  refine alignUp_le hbytes (Nat.le_trans ?_ hfit)
  exact Nat.mul_le_mul_right item (pieces_le hworld)

/-- All push slots together exceed the buffer by less than two vectors a rank. -/
theorem world_mul_shardPer_lt (hitem : item ∣ 16) (hn : 0 < n) (hworld : 0 < world) :
    world * (shardPer n world (16 / item) * item) < n * item + 32 * world := by
  have hslot : shardPer n world (16 / item) * item < pieces n world * item + 16 := by
    rw [shardPer_mul hitem hn hworld]
    exact alignUp_lt (by omega)
  have hpieces : pieces n world * world ≤ n + world := Nat.le_of_lt (pieces_mul_lt hworld)
  have hle : item ≤ 16 := Nat.le_of_dvd (by omega) hitem
  calc world * (shardPer n world (16 / item) * item)
      < world * (pieces n world * item + 16) := Nat.mul_lt_mul_of_pos_left hslot hworld
    _ = pieces n world * world * item + 16 * world := by
        rw [Nat.mul_add, Nat.mul_comm world (pieces n world * item), Nat.mul_right_comm,
          Nat.mul_comm world 16]
    _ ≤ (n + world) * item + 16 * world := by
        exact Nat.add_le_add_right (Nat.mul_le_mul_right item hpieces) _
    _ = n * item + (world * item + 16 * world) := by rw [Nat.add_mul, Nat.add_assoc]
    _ ≤ n * item + 32 * world := by
        have : world * item ≤ world * 16 := Nat.mul_le_mul_left world hle
        omega


theorem dvd_shardPer_mul (hitem : item ∣ 16) (hn : 0 < n) (hworld : 0 < world) :
    16 ∣ shardPer n world (16 / item) * item := by
  rw [shardPer_mul hitem hn hworld]
  exact dvd_alignUp _ _

/-- The peer slot of an exchange is no larger than a push slot. -/
theorem exchangeSlot_le (hitem : item ∣ 16) (hn : 0 < n) {rank : Nat} (hrank : rank < world) :
    exchangeSlot ((shardRange n world rank item).2 * item) ≤
      shardPer n world (16 / item) * item := by
  have hworld : 0 < world := Nat.zero_lt_of_lt hrank
  have hdvd := dvd_shardPer_mul (n := n) hitem hn hworld
  have hpos : 0 < shardPer n world (16 / item) * item :=
    Nat.mul_pos (shardPer_pos hn hworld (width_pos hitem)) (item_pos hitem)
  refine alignUp_le hdvd (Nat.max_le.mpr ⟨?_, Nat.le_of_dvd hpos hdvd⟩)
  rw [shardRange_eq hitem hn hrank, shardCnt_eq]
  exact Nat.mul_le_mul_right item (Nat.min_le_left _ _)

end Shards

/-! ## Chunk sizes -/

theorem pipelineChunkBytes_le {maxChunk : Nat} (localWorld totalBytes splitUnit : Nat)
    (h : 4096 ≤ maxChunk) :
    pipelineChunkBytes maxChunk localWorld totalBytes splitUnit ≤ maxChunk :=
  Nat.max_le.mpr ⟨Nat.min_le_right _ _, h⟩

theorem page_le_pipelineChunkBytes (maxChunk localWorld totalBytes splitUnit : Nat) :
    4096 ≤ pipelineChunkBytes maxChunk localWorld totalBytes splitUnit :=
  Nat.le_max_right _ _

theorem dvd_pipelineChunkBytes {maxChunk : Nat} (localWorld totalBytes splitUnit : Nat)
    (h : 4096 ∣ maxChunk) :
    4096 ∣ pipelineChunkBytes maxChunk localWorld totalBytes splitUnit := by
  have halign : 4096 ∣ alignUp ((totalBytes + pipelineChunks (localWorld * splitUnit) totalBytes 1
      - 1) / pipelineChunks (localWorld * splitUnit) totalBytes 1) 4096 := dvd_alignUp _ _
  unfold pipelineChunkBytes
  dsimp only
  generalize alignUp _ _ = x at *
  omega

namespace Comm

variable (c : Comm)

theorem page_le_arenaCap : 4096 ≤ c.arenaCap := by
  have := c.arenaCap_eq
  have := c.regionMb_pos
  omega

theorem maxChunk_eq :
    c.maxChunk = maxChunkBytes c.capBytes c.arenaCap c.nslots c.localWorld c.nnodes := by
  have := c.multinode
  unfold maxChunk
  rw [if_neg (by omega)]

theorem dvd_maxChunk : 4096 ∣ c.maxChunk := by
  rw [c.maxChunk_eq]
  unfold maxChunkBytes
  dsimp only
  split
  · exact Nat.dvd_refl _
  · exact Nat.dvd_mul_left _ _

theorem page_le_maxChunk : 4096 ≤ c.maxChunk := by
  have hdvd := c.dvd_maxChunk
  have hpos : 0 < c.maxChunk := by
    rw [c.maxChunk_eq]
    unfold maxChunkBytes
    dsimp only
    split <;> omega
  exact Nat.le_of_dvd hpos hdvd

theorem maxChunk_le_arenaCap : c.maxChunk ≤ c.arenaCap := by
  have := c.page_le_arenaCap
  rw [c.maxChunk_eq]
  unfold maxChunkBytes
  dsimp only
  split <;> omega

/-- A chunk is a page, or it leaves two pages of its landing group unused. -/
theorem maxChunk_bound :
    c.maxChunk = 4096 ∨ c.npeers * (c.maxChunk + 2 * 4096) ≤ c.inboxGroup * c.localWorld := by
  have hmul : c.npeers * (c.inboxGroup * c.localWorld / c.npeers) ≤
      c.inboxGroup * c.localWorld := Nat.mul_div_le _ _
  rw [c.maxChunk_eq]
  unfold maxChunkBytes
  dsimp only
  split
  case isTrue => exact .inl rfl
  case isFalse h =>
    refine .inr (Nat.le_trans (Nat.mul_le_mul_left c.npeers ?_) hmul)
    change ¬ min (c.inboxGroup * c.localWorld / c.npeers - 2 * 4096) c.arenaCap < 4096 at h
    change min (c.inboxGroup * c.localWorld / c.npeers - 2 * 4096) c.arenaCap / 4096 * 4096
      + 2 * 4096 ≤ c.inboxGroup * c.localWorld / c.npeers
    omega

/-! ## One chunk -/

/-- What one chunk occupies fits: its slices of an arena are aligned, apart and
inside the arena's staging, and the slots of its peers fit the landing group. -/
structure Fits (slices : List Span) (slot : Nat) : Prop where
  apart : slices.Pairwise Span.Apart
  within : ∀ s ∈ slices, s.stop ≤ 2 * c.arenaCap
  aligned : ∀ s ∈ slices, s.len ≠ 0 → 16 ∣ s.off
  slot_aligned : 16 ∣ slot
  inbox : c.npeers * slot ≤ c.inboxGroup

theorem pairwise_slots (base size n : Nat) :
    ((List.range n).map (slotAt base size)).Pairwise Span.Apart :=
  List.pairwise_map.mpr (List.nodup_range.imp slotAt_apart)

theorem mem_slots {base size n : Nat} {s : Span} (h : s ∈ (List.range n).map (slotAt base size)) :
    ∃ j, j < n ∧ s = slotAt base size j := by
  obtain ⟨j, hj, rfl⟩ := List.mem_map.mp h
  exact ⟨j, List.mem_range.mp hj, rfl⟩

theorem slotAt_aligned {base size : Nat} (j : Nat) (hbase : 16 ∣ base) (hsize : 16 ∣ size) :
    16 ∣ (slotAt base size j).off :=
  Nat.dvd_add hbase (Nat.dvd_trans hsize (Nat.dvd_mul_left _ _))

/-! ### Allreduce -/

section Allreduce

variable {n item : Nat}

/-- The push slots of a chunk no larger than an arena half fit the half. -/
theorem pushSlots_le (hitem : item ∣ 16) (hn : 0 < n) (hfit : n * item ≤ c.arenaCap) :
    (c.localWorld - 1) * (shardPer n c.localWorld (16 / item) * item) ≤ c.arenaCap := by
  have hlt := world_mul_shardPer_lt (n := n) hitem hn c.localWorld_pos
  have hworld := c.localWorld_le
  have hcap := c.page_le_arenaCap
  have hpos := c.localWorld_pos
  generalize shardPer n c.localWorld (16 / item) * item = slot at *
  rw [Nat.sub_mul, Nat.one_mul]
  by_cases hslot : 32 * c.localWorld ≤ slot
  · omega
  · have : c.localWorld * slot ≤ 8 * slot := Nat.mul_le_mul_right slot hworld
    omega

/-- The push slots fit the landing group too. -/
theorem npeers_mul_shardPer_le (hitem : item ∣ 16) (hn : 0 < n)
    (hfit : n * item ≤ c.maxChunk) :
    c.npeers * (shardPer n c.localWorld (16 / item) * item) ≤ c.inboxGroup := by
  obtain hpage | hroom := c.maxChunk_bound
  · have hslot : shardPer n c.localWorld (16 / item) * item ≤ 4096 :=
      shardPer_mul_le hitem hn c.localWorld_pos (by omega : 16 ∣ 4096) (hpage ▸ hfit)
    exact Nat.le_trans (Nat.mul_le_mul_left c.npeers hslot) c.npeers_mul_page_le
  · refine Nat.le_of_mul_le_mul_right (Nat.le_trans ?_ hroom) c.localWorld_pos
    have hlt := world_mul_shardPer_lt (n := n) hitem hn c.localWorld_pos
    have hworld := c.localWorld_le
    rw [Nat.mul_assoc, Nat.mul_comm _ c.localWorld]
    exact Nat.mul_le_mul_left c.npeers (by omega)

theorem allreduce_slot_fits (hitem : item ∣ 16) (hn : 0 < n) (hfit : n * item ≤ c.maxChunk) :
    c.npeers * exchangeSlot ((shardRange n c.localWorld c.localRank item).2 * item) ≤
      c.inboxGroup :=
  Nat.le_trans (Nat.mul_le_mul_left c.npeers (exchangeSlot_le hitem hn c.localRank_lt))
    (c.npeers_mul_shardPer_le hitem hn hfit)

theorem allreduce_fits (hitem : item ∣ 16) (hn : 0 < n) (hfit : n * item ≤ c.maxChunk) :
    c.Fits (c.allreduceSlices n item)
      (exchangeSlot ((shardRange n c.localWorld c.localRank item).2 * item)) := by
  have hcap : n * item ≤ c.arenaCap := Nat.le_trans hfit c.maxChunk_le_arenaCap
  have hpush := c.pushSlots_le hitem hn hcap
  have hstop : (shard n c.localWorld item c.localRank).stop ≤ n :=
    shard_stop_le hitem hn c.localRank_lt
  have hslot : ∀ s ∈ (List.range (c.localWorld - 1)).map
      (slotAt 0 (shardPer n c.localWorld (16 / item) * item)), s.stop ≤ c.arenaCap := by
    intro s hs
    obtain ⟨j, hj, rfl⟩ := mem_slots hs
    have := slotAt_stop_le 0 (shardPer n c.localWorld (16 / item) * item) hj
    omega
  have hbytes : (shard n c.localWorld item c.localRank).off * item +
      (shard n c.localWorld item c.localRank).len * item ≤ c.arenaCap := by
    rw [← Nat.add_mul]
    exact Nat.le_trans (Nat.mul_le_mul_right item hstop) hcap
  refine ⟨?_, ?_, ?_, dvd_alignUp _ _, c.allreduce_slot_fits hitem hn hfit⟩
  · refine List.pairwise_append.mpr ⟨pairwise_slots _ _ _, List.pairwise_singleton _ _, ?_⟩
    intro a ha b hb
    rw [List.mem_singleton.mp hb]
    exact .inl (Nat.le_trans (hslot a ha) (Nat.le_add_right _ _))
  · intro s hs
    obtain hs | hs := List.mem_append.mp hs
    · have := hslot s hs
      omega
    · rw [List.mem_singleton.mp hs]
      show c.arenaCap + (shard n c.localWorld item c.localRank).off * item +
        (shard n c.localWorld item c.localRank).len * item ≤ _
      omega
  · intro s hs hne
    obtain hs | hs := List.mem_append.mp hs
    · obtain ⟨j, -, rfl⟩ := mem_slots hs
      exact slotAt_aligned j (Nat.dvd_zero 16) (dvd_shardPer_mul hitem hn c.localWorld_pos)
    · rw [List.mem_singleton.mp hs] at hne ⊢
      have hlen : (shard n c.localWorld item c.localRank).len ≠ 0 := fun h =>
        hne (by
          show (shard n c.localWorld item c.localRank).len * item = 0
          rw [h, Nat.zero_mul])
      have hcap16 : 16 ∣ c.arenaCap := by
        rw [c.arenaCap_eq]
        omega
      exact Nat.dvd_add hcap16 (shard_aligned hitem hn c.localRank_lt hlen)

end Allreduce

/-! ### Reduce-scatter -/

theorem slots_mul_le {x a b : Nat} (h : x ≤ a / b) : b * x ≤ a :=
  Nat.le_trans (Nat.mul_le_mul_left b h) (Nat.mul_div_le a b)

/-- A slot of a node fits the arena together with those of all ranks and nodes. -/
theorem world_mul_slotCap_le (item : Nat) :
    c.nnodes * c.localWorld * c.reduceScatterSlotCap item ≤ 2 * c.arenaCap := by
  refine slots_mul_le ?_
  unfold reduceScatterSlotCap reduceScatterNodesMaxCount
  dsimp only
  have h1 := Nat.div_mul_le_self (2 * c.arenaCap / (c.nnodes * c.localWorld) / 16 * 16) item
  omega

theorem npeers_mul_slotCap_le (item : Nat) :
    c.npeers * c.reduceScatterSlotCap item ≤ c.inboxGroup := by
  refine slots_mul_le ?_
  unfold reduceScatterSlotCap
  omega

theorem dvd_slotCap (item : Nat) : 16 ∣ c.reduceScatterSlotCap item := Nat.dvd_mul_left _ _

theorem page_le_group_div : 4096 ≤ c.inboxGroup / c.npeers := by
  refine (Nat.le_div_iff_mul_le c.npeers_pos).mpr ?_
  rw [Nat.mul_comm]
  exact c.npeers_mul_page_le

theorem vector_le_slotCap {item : Nat} (hitem : item ∣ 16) : 16 ≤ c.reduceScatterSlotCap item := by
  have hcap := c.arenaCap_eq
  have hmb := c.regionMb_pos
  have hslots : c.nnodes * c.localWorld ≤ 16 * 8 := by
    refine Nat.mul_le_mul ?_ c.localWorld_le
    have := c.npeers_le
    have := c.npeers_add_one
    omega
  have hpos : 0 < c.nnodes * c.localWorld := Nat.mul_pos (by have := c.multinode; omega)
    c.localWorld_pos
  have hpage : 4096 ≤ 2 * c.arenaCap / (c.nnodes * c.localWorld) := by
    refine (Nat.le_div_iff_mul_le hpos).mpr ?_
    omega
  have hle : item ≤ 16 := Nat.le_of_dvd (by omega) hitem
  have hgroup := c.page_le_group_div
  unfold reduceScatterSlotCap reduceScatterNodesMaxCount
  dsimp only
  generalize 2 * c.arenaCap / (c.nnodes * c.localWorld) = x at *
  have hround : x / 16 * 16 < x / 16 * 16 / item * item + item := by
    rw [← Nat.succ_mul, Nat.mul_comm _ item]
    exact Nat.lt_mul_div_succ _ (item_pos hitem)
  omega

/-- A slot of at most `slot_cap` bytes fits the arena and the landing group. -/
theorem reduceScatter_fits {item slot : Nat} (hdvd : 16 ∣ slot)
    (hle : slot ≤ c.reduceScatterSlotCap item) : c.Fits (c.reduceScatterSlices slot) slot := by
  have htotal : (c.localWorld - 1) * c.nnodes * slot + c.nnodes * slot ≤ 2 * c.arenaCap := by
    have hpos := c.localWorld_pos
    calc (c.localWorld - 1) * c.nnodes * slot + c.nnodes * slot
        = c.nnodes * c.localWorld * slot := by
          rw [← Nat.add_mul, Nat.sub_mul, Nat.one_mul, Nat.mul_comm c.localWorld]
          rw [Nat.sub_add_cancel (Nat.le_mul_of_pos_right _ hpos)]
      _ ≤ c.nnodes * c.localWorld * c.reduceScatterSlotCap item := Nat.mul_le_mul_left _ hle
      _ ≤ 2 * c.arenaCap := c.world_mul_slotCap_le item
  have hpush : ∀ s ∈ (List.range ((c.localWorld - 1) * c.nnodes)).map (slotAt 0 slot),
      s.stop ≤ (c.localWorld - 1) * c.nnodes * slot := by
    intro s hs
    obtain ⟨j, hj, rfl⟩ := mem_slots hs
    have := slotAt_stop_le 0 slot hj
    omega
  refine ⟨?_, ?_, ?_, hdvd, ?_⟩
  · refine List.pairwise_append.mpr ⟨pairwise_slots _ _ _, pairwise_slots _ _ _, ?_⟩
    intro a ha b hb
    obtain ⟨j, -, rfl⟩ := mem_slots hb
    exact .inl (Nat.le_trans (hpush a ha) (Nat.le_add_right _ _))
  · intro s hs
    obtain hs | hs := List.mem_append.mp hs
    · have := hpush s hs
      omega
    · obtain ⟨j, hj, rfl⟩ := mem_slots hs
      exact Nat.le_trans (slotAt_stop_le _ _ hj) htotal
  · intro s hs _
    obtain hs | hs := List.mem_append.mp hs
    · obtain ⟨j, -, rfl⟩ := mem_slots hs
      exact slotAt_aligned j (Nat.dvd_zero 16) hdvd
    · obtain ⟨j, -, rfl⟩ := mem_slots hs
      exact slotAt_aligned j (Nat.dvd_trans hdvd (Nat.dvd_mul_left _ _)) hdvd
  · exact Nat.le_trans (Nat.mul_le_mul_left c.npeers hle) (c.npeers_mul_slotCap_le item)

/-- The size of the peer slots for a chunk of `n` elements: the streaming kernel
uses one size for all chunks. -/
def reduceScatterSlot (item : Nat) (plan : RsSchedule × Plan) (n : Nat) : Nat :=
  match plan.1 with
  | .stream => alignUp (plan.2.chunk * item) 16
  | _ => alignUp (n * item) 16

/-! ### Broadcast -/

theorem broadcastPlan_chunk_le (totalBytes : Nat) :
    (c.broadcastPlan totalBytes).chunk ≤ c.arenaCap ∧
      (c.broadcastPlan totalBytes).chunk ≤ netStageBytes c.capBytes ∧
      (c.broadcastPlan totalBytes).chunk ≤ c.inboxGroup / c.npeers := by
  have hcap := c.capBytes_eq
  have hmb := c.regionMb_pos
  have harena := c.page_le_arenaCap
  have hgroup := c.page_le_group_div
  have hstage : 4096 ≤ netStageBytes c.capBytes := by
    unfold netStageBytes CREDIT_AREA_BYTES
    omega
  unfold broadcastPlan
  dsimp only
  omega

theorem dvd_broadcastPlan_chunk (totalBytes : Nat) : 16 ∣ (c.broadcastPlan totalBytes).chunk := by
  unfold broadcastPlan
  dsimp only
  omega

theorem broadcastPlan_chunk_pos (totalBytes : Nat) : 0 < (c.broadcastPlan totalBytes).chunk := by
  unfold broadcastPlan
  dsimp only
  omega

/-- Cutting `nbytes` into one slot a rank costs at most two vectors a rank. -/
theorem broadcast_slots_le (nbytes : Nat) :
    c.localWorld * broadcastSlot nbytes c.localWorld ≤ nbytes + 256 := by
  have hworld := c.localWorld_le
  have hmul := Nat.mul_div_le (nbytes / 16) c.localWorld
  have hcount : vcount 0 (nbytes / 16 / c.localWorld) (nbytes / 16 % c.localWorld) ≤
      nbytes / 16 / c.localWorld + 1 := by
    unfold vcount
    split <;> omega
  have hslot : broadcastSlot nbytes c.localWorld ≤ nbytes / 16 / c.localWorld * 16 + 32 :=
    alignUp_le (by omega) (by omega)
  calc c.localWorld * broadcastSlot nbytes c.localWorld
      ≤ c.localWorld * (nbytes / 16 / c.localWorld * 16 + 32) :=
        Nat.mul_le_mul_left c.localWorld hslot
    _ = c.localWorld * (nbytes / 16 / c.localWorld) * 16 + c.localWorld * 32 := by
        rw [Nat.mul_add, Nat.mul_assoc]
    _ ≤ nbytes + 256 := by omega

theorem broadcast_fits {nbytes : Nat} (hle : nbytes ≤ c.arenaCap) {slot : Nat}
    (hdvd : 16 ∣ slot) (hslot : slot ≤ c.inboxGroup / c.npeers) :
    c.Fits (c.broadcastSlices nbytes) slot := by
  have htotal := c.broadcast_slots_le nbytes
  have hcap := c.page_le_arenaCap
  have hpos := c.localWorld_pos
  have hsslot : 16 ∣ broadcastSlot nbytes c.localWorld := dvd_alignUp _ _
  unfold broadcastSlices
  dsimp only
  generalize broadcastSlot nbytes c.localWorld = sslot at *
  have hgather : ∀ s ∈ (if c.amd then (List.range (c.localWorld - 1)).map (slotAt sslot sslot)
      else []), ∃ j, j < c.localWorld - 1 ∧ s = slotAt sslot sslot j := by
    intro s hs
    split at hs
    · exact mem_slots hs
    · cases hs
  have hone : sslot ≤ c.localWorld * sslot := Nat.le_mul_of_pos_left _ hpos
  refine ⟨?_, ?_, ?_, hdvd, slots_mul_le hslot⟩
  · refine List.pairwise_cons.mpr ⟨?_, ?_⟩
    · intro s hs
      obtain ⟨j, -, rfl⟩ := hgather s hs
      left
      show 0 + sslot ≤ sslot + j * sslot
      omega
    · split
      · exact pairwise_slots _ _ _
      · exact List.Pairwise.nil
  · intro s hs
    obtain rfl | hs := List.mem_cons.mp hs
    · show 0 + sslot ≤ _
      omega
    · obtain ⟨j, hj, rfl⟩ := hgather s hs
      refine Nat.le_trans (slotAt_stop_le _ _ hj) ?_
      rw [Nat.sub_mul, Nat.one_mul]
      omega
  · intro s hs _
    obtain rfl | hs := List.mem_cons.mp hs
    · exact Nat.dvd_zero 16
    · obtain ⟨j, -, rfl⟩ := hgather s hs
      exact slotAt_aligned j hsslot hsslot

/-! ### All-gather -/

theorem dvd_allgatherMappedMaxBytes : 16 ∣ c.allgatherMappedMaxBytes := Nat.dvd_mul_left _ _

theorem allgatherMappedMaxBytes_le : c.allgatherMappedMaxBytes ≤ c.inboxGroup / c.npeers := by
  unfold allgatherMappedMaxBytes
  omega

theorem allgatherMaxBytes_le (amd : Bool) (capBytes world : Nat) :
    allgatherMaxBytes amd capBytes world ≤ capBytes := by
  unfold allgatherMaxBytes
  dsimp only
  split
  · split <;> omega
  · exact Nat.le_refl _

theorem allgatherMappedMaxBytes_le_arenaCap : c.allgatherMappedMaxBytes ≤ c.arenaCap := by
  have := allgatherMaxBytes_le c.amd c.arenaCap c.localWorld
  unfold allgatherMappedMaxBytes
  omega

/-- Where peers push, a slot a peer and the NIC's source fit the arena. -/
theorem world_mul_allgather_le (hamd : c.amd = true) :
    c.localWorld * c.allgatherMappedMaxBytes ≤ 2 * c.arenaCap := by
  have hpos := c.localWorld_pos
  by_cases hone : c.localWorld ≤ 1
  · have heq : c.localWorld = 1 := by omega
    have := c.allgatherMappedMaxBytes_le_arenaCap
    rw [heq]
    omega
  · refine slots_mul_le ?_
    unfold allgatherMappedMaxBytes allgatherMaxBytes
    dsimp only
    rw [if_pos hamd, if_neg hone]
    omega

theorem vector_le_allgatherMappedMaxBytes : 16 ≤ c.allgatherMappedMaxBytes := by
  have hcap := c.page_le_arenaCap
  have hgroup := c.page_le_group_div
  have hworld := c.localWorld_le
  have hslots : 16 ≤ 2 * c.arenaCap / c.localWorld := by
    refine (Nat.le_div_iff_mul_le c.localWorld_pos).mpr ?_
    omega
  have hmax : 16 ≤ allgatherMaxBytes c.amd c.arenaCap c.localWorld := by
    unfold allgatherMaxBytes
    dsimp only
    split
    · split <;> omega
    · omega
  unfold allgatherMappedMaxBytes
  omega

theorem allgatherPlan_chunk (count : Nat) :
    16 ≤ (c.allgatherPlan count).chunk ∧ 16 ∣ (c.allgatherPlan count).chunk ∧
      (c.allgatherPlan count).chunk ≤ c.allgatherMappedMaxBytes := by
  have hmax := c.vector_le_allgatherMappedMaxBytes
  have hdvd := c.dvd_allgatherMappedMaxBytes
  have hpos := c.localWorld_pos
  unfold allgatherPlan
  dsimp only
  split
  case isTrue h =>
    have hcount : 640000 ≤ count := Nat.le_trans (Nat.le_mul_of_pos_right 640000 hpos) h
    have hhalf := le_alignUp (x := (count + 1) / 2) (a := 16) (by omega)
    have halign := dvd_alignUp ((count + 1) / 2) 16
    generalize alignUp _ 16 = half at *
    omega
  case isFalse => exact ⟨hmax, hdvd, Nat.le_refl _⟩

theorem allgather_fits {nbytes : Nat} (hle : nbytes ≤ c.allgatherMappedMaxBytes) :
    c.Fits (c.allgatherSlices nbytes) (alignUp nbytes 16) := by
  have hslot : alignUp nbytes 16 ≤ c.allgatherMappedMaxBytes :=
    alignUp_le c.dvd_allgatherMappedMaxBytes hle
  have hbytes := le_alignUp (x := nbytes) (a := 16) (by omega)
  have hdvd := dvd_alignUp nbytes 16
  have hcap := c.allgatherMappedMaxBytes_le_arenaCap
  have hinbox : c.npeers * alignUp nbytes 16 ≤ c.inboxGroup :=
    slots_mul_le (Nat.le_trans hslot c.allgatherMappedMaxBytes_le)
  cases hamd : c.amd with
  | false =>
      have hslices : c.allgatherSlices nbytes = [⟨0, nbytes⟩] := by
        simp [allgatherSlices, allgatherNicStageOff, hamd]
      rw [hslices]
      refine ⟨List.pairwise_singleton _ _, ?_, ?_, hdvd, hinbox⟩
      · intro s hs
        rw [List.mem_singleton.mp hs]
        show 0 + nbytes ≤ _
        omega
      · intro s hs _
        rw [List.mem_singleton.mp hs]
        exact Nat.dvd_zero 16
  | true =>
      have htotal : c.localWorld * alignUp nbytes 16 ≤ 2 * c.arenaCap :=
        Nat.le_trans (Nat.mul_le_mul_left c.localWorld hslot) (c.world_mul_allgather_le hamd)
      have hlast : (c.localWorld - 1) * alignUp nbytes 16 + alignUp nbytes 16 ≤
          2 * c.arenaCap := by
        have hpos := c.localWorld_pos
        rw [Nat.sub_mul, Nat.one_mul, Nat.sub_add_cancel (Nat.le_mul_of_pos_left _ hpos)]
        exact htotal
      have hslices : c.allgatherSlices nbytes =
          (List.range (c.localWorld - 1)).map (slotAt 0 (alignUp nbytes 16)) ++
            [⟨(c.localWorld - 1) * alignUp nbytes 16, nbytes⟩] := by
        simp [allgatherSlices, allgatherNicStageOff, hamd]
      rw [hslices]
      have hpush : ∀ s ∈ (List.range (c.localWorld - 1)).map (slotAt 0 (alignUp nbytes 16)),
          s.stop ≤ (c.localWorld - 1) * alignUp nbytes 16 := by
        intro s hs
        obtain ⟨j, hj, rfl⟩ := mem_slots hs
        have := slotAt_stop_le 0 (alignUp nbytes 16) hj
        omega
      refine ⟨?_, ?_, ?_, hdvd, hinbox⟩
      · refine List.pairwise_append.mpr ⟨pairwise_slots _ _ _, List.pairwise_singleton _ _, ?_⟩
        intro a ha b hb
        rw [List.mem_singleton.mp hb]
        exact .inl (hpush a ha)
      · intro s hs
        obtain hs | hs := List.mem_append.mp hs
        · have := hpush s hs
          omega
        · rw [List.mem_singleton.mp hs]
          show (c.localWorld - 1) * alignUp nbytes 16 + nbytes ≤ _
          omega
      · intro s hs _
        obtain hs | hs := List.mem_append.mp hs
        · obtain ⟨j, -, rfl⟩ := mem_slots hs
          exact slotAt_aligned j (Nat.dvd_zero 16) hdvd
        · rw [List.mem_singleton.mp hs]
          exact Nat.dvd_trans hdvd (Nat.dvd_mul_left _ _)

/-! ## Plans -/

/-- A plan over `count` elements of `item` bytes whose chunks fit: they tile the
buffer at aligned offsets, no more are in flight than there are arenas, and
`Fits` holds of what each chunk of `n` elements occupies. -/
structure PlanSound (count item : Nat) (p : Plan) (slices : Nat → List Span)
    (slot : Nat → Nat) : Prop where
  tiles : Tiles count p.nchunks (chunk count p.chunk)
  offset_aligned : ∀ k, k < p.nchunks → 16 ∣ k * p.chunk * item
  depth_le : p.depth ≤ c.narenas
  fits : ∀ k, k < p.nchunks →
    c.Fits (slices (chunk count p.chunk k).len) (slot (chunk count p.chunk k).len)

/-- An empty buffer has no chunk. -/
theorem pieces_zero (m : Nat) : pieces 0 m = 0 := by
  unfold pieces
  obtain rfl | hm := Nat.eq_zero_or_pos m
  · rfl
  · exact Nat.div_eq_of_lt (by omega)

theorem tiles_pieces {count m : Nat} (hm : 0 < count → 0 < m) :
    Tiles count (pieces count m) (chunk count m) := by
  obtain rfl | hcount := Nat.eq_zero_or_pos count
  · rw [pieces_zero]
    refine ⟨fun i => ⟨fun hi => by omega, ?_⟩, fun j k _ hk => by omega⟩
    rintro ⟨k, hk, -⟩
    omega
  · exact tiles_chunk (hm hcount)

/-- Only a whole chunk is followed by another. -/
theorem offset_aligned_of_chunk {count m item k : Nat} (hm : 0 < m)
    (h : m < count → 16 ∣ m * item) (hk : k < pieces count m) : 16 ∣ k * m * item := by
  obtain rfl | hk0 := Nat.eq_zero_or_pos k
  · simp
  · have hlt := (lt_pieces_iff hm).mp hk
    have hle : m ≤ k * m := Nat.le_mul_of_pos_left m hk0
    rw [Nat.mul_assoc]
    exact Nat.dvd_trans (h (by omega)) (Nat.dvd_mul_left _ _)

section Allreduce

variable {item : Nat} (count : Nat)

theorem pipelinePlan_chunk (hitem : item ∣ 16) :
    0 < (c.pipelinePlan count item).chunk ∧ 16 ∣ (c.pipelinePlan count item).chunk * item ∧
      (c.pipelinePlan count item).chunk * item ≤ c.maxChunk := by
  have hle := pipelineChunkBytes_le c.localWorld (count * item) PIPE_SPLIT_UNIT c.page_le_maxChunk
  have hpage := page_le_pipelineChunkBytes c.maxChunk c.localWorld (count * item) PIPE_SPLIT_UNIT
  have hdvd := dvd_pipelineChunkBytes c.localWorld (count * item) PIPE_SPLIT_UNIT c.dvd_maxChunk
  unfold pipelinePlan
  dsimp only
  generalize pipelineChunkBytes _ _ _ _ = bytes at *
  have hitem' : item ∣ bytes :=
    Nat.dvd_trans hitem (Nat.dvd_trans (by omega : 16 ∣ 4096) hdvd)
  have hpos : 0 < bytes / item :=
    Nat.div_pos (Nat.le_of_dvd (by omega) hitem') (item_pos hitem)
  rw [Nat.max_eq_right hpos, Nat.div_mul_cancel hitem']
  exact ⟨hpos, Nat.dvd_trans (by omega : 16 ∣ 4096) hdvd, hle⟩

theorem chunk_bytes_le (count item m k : Nat) : (chunk count m k).len * item ≤ m * item :=
  Nat.mul_le_mul_right item (chunk_len_le count m k)

theorem pipelinePlan_sound (hitem : item ∣ 16) :
    c.PlanSound count item (c.pipelinePlan count item) (fun n => c.allreduceSlices n item)
      (fun n => exchangeSlot ((shardRange n c.localWorld c.localRank item).2 * item)) := by
  obtain ⟨hpos, hdvd, hle⟩ := c.pipelinePlan_chunk count hitem
  refine ⟨tiles_chunk hpos, fun k hk => ?_, Nat.min_le_left _ _, fun k hk => ?_⟩
  · exact offset_aligned_of_chunk hpos (fun _ => hdvd) hk
  · exact c.allreduce_fits hitem (chunk_len_pos hpos hk)
      (Nat.le_trans (chunk_bytes_le count item _ k) hle)

end Allreduce

section ReduceScatter

variable {item : Nat} (count : Nat)

/-- A chunk of a reduce-scatter plan is one or all of the buffer, aligned if
another follows, and fits `slot_cap`. -/
structure RsChunk (item count m : Nat) : Prop where
  pos : 0 < count → 0 < m
  aligned : m < count → 16 ∣ m * item
  le : m * item ≤ c.reduceScatterSlotCap item

theorem rsChunk_nodes (hitem : item ∣ 16) :
    c.RsChunk item count (min count (c.reduceScatterSlotCap item / item)) := by
  have hitem' : item ∣ c.reduceScatterSlotCap item := Nat.dvd_trans hitem (c.dvd_slotCap item)
  have hpos : 0 < c.reduceScatterSlotCap item / item := by
    refine Nat.div_pos (Nat.le_of_dvd ?_ hitem') (item_pos hitem)
    have := c.vector_le_slotCap hitem
    omega
  refine ⟨fun h => by omega, fun h => ?_, ?_⟩
  · rw [Nat.min_eq_right (by omega), Nat.div_mul_cancel hitem']
    exact c.dvd_slotCap item
  · calc min count (c.reduceScatterSlotCap item / item) * item
        ≤ c.reduceScatterSlotCap item / item * item :=
          Nat.mul_le_mul_right item (Nat.min_le_right _ _)
      _ ≤ c.reduceScatterSlotCap item := Nat.div_mul_le_self _ _

/-- Cutting a chunk of 4-byte elements at a vector keeps it one. -/
theorem RsChunk.cut {c : Comm} {m target : Nat} (h : c.RsChunk 4 count m) (htarget : 0 < target) :
    c.RsChunk 4 count (min m (alignUp (pieces count target * 4) 16 / 4)) := by
  have hdvd := dvd_alignUp (pieces count target * 4) 16
  have hge := le_alignUp (x := pieces count target * 4) (a := 16) (by omega)
  have hcap := c.dvd_slotCap 4
  have hpieces : 0 < count → 0 < pieces count target := fun hcount =>
    pieces_pos hcount htarget
  generalize alignUp _ 16 = x at *
  refine ⟨fun hcount => ?_, fun hlt => ?_, ?_⟩
  · have := h.pos hcount
    have := hpieces hcount
    omega
  · by_cases hm : m ≤ x / 4
    · rw [Nat.min_eq_left hm] at hlt ⊢
      exact h.aligned hlt
    · rw [Nat.min_eq_right (by omega)]
      omega
  · exact Nat.le_trans (Nat.mul_le_mul_right 4 (Nat.min_le_left _ _)) h.le

theorem rsChunk_plan (hitem : item ∣ 16) {oneKernel : Bool}
    (hkernel : oneKernel = true → item = 4) :
    c.RsChunk item count (c.reduceScatterPlan count item oneKernel).2.chunk := by
  have hnodes := c.rsChunk_nodes count hitem
  unfold reduceScatterPlan
  dsimp only
  split
  case isTrue h =>
    obtain rfl := hkernel h.1
    unfold reduceScatterStreamPlan
    dsimp only
    have hcap : c.RsChunk 4 count (min count (min count (c.reduceScatterSlotCap 4 / 4))) := by
      rwa [← Nat.min_assoc, Nat.min_self]
    split
    · exact hcap.cut count (by decide)
    · exact hcap
  case isFalse =>
    split
    case isTrue h =>
      obtain rfl := hkernel h.1
      unfold reduceScatterFusedPlan
      dsimp only
      have hcap : c.RsChunk 4 count (min count (min count (c.reduceScatterSlotCap 4 / 4))) := by
        rwa [← Nat.min_assoc, Nat.min_self]
      have htarget : 0 < min c.narenas RS_FUSED_TARGET_CHUNKS := by
        rw [c.narenas_eq]
        decide
      split
      · exact hcap.cut count htarget
      · exact hcap
    case isFalse => exact hnodes

theorem reduceScatterPlan_counts (item : Nat) (oneKernel : Bool) :
    (c.reduceScatterPlan count item oneKernel).2.nchunks =
        pieces count (c.reduceScatterPlan count item oneKernel).2.chunk ∧
      (c.reduceScatterPlan count item oneKernel).2.depth ≤ c.narenas := by
  unfold reduceScatterPlan
  dsimp only
  split
  · exact ⟨rfl, Nat.min_le_left _ _⟩
  · split
    · exact ⟨rfl, Nat.min_le_left _ _⟩
    · exact ⟨rfl, Nat.min_le_left _ _⟩

theorem reduceScatterPlan_sound (hitem : item ∣ 16) {oneKernel : Bool}
    (hkernel : oneKernel = true → item = 4) :
    c.PlanSound count item (c.reduceScatterPlan count item oneKernel).2
      (fun n => c.reduceScatterSlices
        (reduceScatterSlot item (c.reduceScatterPlan count item oneKernel) n))
      (reduceScatterSlot item (c.reduceScatterPlan count item oneKernel)) := by
  have hchunk := c.rsChunk_plan count hitem hkernel
  obtain ⟨hnchunks, hdepth⟩ := c.reduceScatterPlan_counts count item oneKernel
  have hslot : ∀ n, n ≤ (c.reduceScatterPlan count item oneKernel).2.chunk →
      reduceScatterSlot item (c.reduceScatterPlan count item oneKernel) n ≤
        c.reduceScatterSlotCap item ∧
      16 ∣ reduceScatterSlot item (c.reduceScatterPlan count item oneKernel) n := by
    intro n hn
    unfold reduceScatterSlot
    split
    · exact ⟨alignUp_le (c.dvd_slotCap item) hchunk.le, dvd_alignUp _ _⟩
    · refine ⟨alignUp_le (c.dvd_slotCap item) ?_, dvd_alignUp _ _⟩
      exact Nat.le_trans (Nat.mul_le_mul_right item hn) hchunk.le
  refine ⟨?_, fun k hk => ?_, hdepth, fun k hk => ?_⟩
  · rw [hnchunks]
    exact tiles_pieces hchunk.pos
  · rw [hnchunks] at hk
    obtain rfl | hcount := Nat.eq_zero_or_pos count
    · rw [pieces_zero] at hk
      omega
    · exact offset_aligned_of_chunk (hchunk.pos hcount) hchunk.aligned hk
  · obtain ⟨hle, hdvd⟩ := hslot _ (chunk_len_le count _ k)
    exact c.reduceScatter_fits hdvd hle

end ReduceScatter

theorem broadcastPlan_sound (totalBytes : Nat) :
    c.PlanSound totalBytes 1 (c.broadcastPlan totalBytes) c.broadcastSlices
      (fun n => alignUp n 16) := by
  obtain ⟨harena, -, hgroup⟩ := c.broadcastPlan_chunk_le totalBytes
  have hdvd := c.dvd_broadcastPlan_chunk totalBytes
  have hpos := c.broadcastPlan_chunk_pos totalBytes
  refine ⟨tiles_chunk hpos, fun k hk => ?_, ?_, fun k _ => ?_⟩
  · exact offset_aligned_of_chunk hpos (fun _ => by rwa [Nat.mul_one]) hk
  · rw [c.narenas_eq]
    show 1 ≤ 4
    omega
  · have hlen := chunk_len_le totalBytes (c.broadcastPlan totalBytes).chunk k
    exact c.broadcast_fits (Nat.le_trans hlen harena) (dvd_alignUp _ _)
      (Nat.le_trans (alignUp_le hdvd hlen) hgroup)

theorem allgatherPlan_sound (count : Nat) :
    c.PlanSound count 1 (c.allgatherPlan count) c.allgatherSlices (fun n => alignUp n 16) := by
  obtain ⟨hpos, hdvd, hle⟩ := c.allgatherPlan_chunk count
  have hpos : 0 < (c.allgatherPlan count).chunk := by omega
  refine ⟨tiles_chunk hpos, fun k hk => ?_, ?_, fun k _ => ?_⟩
  · exact offset_aligned_of_chunk hpos (fun _ => by rwa [Nat.mul_one]) hk
  · rw [c.narenas_eq]
    show min 2 _ ≤ 4
    omega
  · exact c.allgather_fits (Nat.le_trans (chunk_len_le count _ k) hle)

/-! ## The checks never fire -/

theorem inboxCheck_ok {slot : Nat} (h : c.npeers * slot ≤ c.inboxGroup) (message : String) :
    c.inboxCheck slot message = .ok slot := by
  unfold inboxCheck
  rw [if_neg (by omega)]

theorem reduceScatterCheck_ok {item : Nat} (count : Nat) (hitem : item ∣ 16) {oneKernel : Bool}
    (hkernel : oneKernel = true → item = 4) :
    ∃ slot, c.reduceScatterCheck count item (c.reduceScatterPlan count item oneKernel) =
      .ok slot := by
  have hchunk := c.rsChunk_plan count hitem hkernel
  have hvector := c.vector_le_slotCap hitem
  cases hplan : c.reduceScatterPlan count item oneKernel with
  | mk schedule p =>
      rw [hplan] at hchunk
      have hone : schedule ≠ .nodes → item = 4 := by
        intro hne
        refine hkernel ?_
        by_contra hk
        rw [Bool.not_eq_true] at hk
        subst hk
        simp only [reduceScatterPlan, Bool.false_eq_true, false_and, if_false] at hplan
        cases hplan
        exact hne rfl
      have hinbox : item = 4 → c.npeers * alignUp (min p.chunk count * 4) 16 ≤ c.inboxGroup := by
        rintro rfl
        have hle : alignUp (min p.chunk count * 4) 16 ≤ c.reduceScatterSlotCap 4 :=
          alignUp_le (c.dvd_slotCap 4)
            (Nat.le_trans (Nat.mul_le_mul_right 4 (Nat.min_le_left _ _)) hchunk.le)
        exact Nat.le_trans (Nat.mul_le_mul_left c.npeers hle) (c.npeers_mul_slotCap_le 4)
      cases schedule with
      | nodes =>
          refine ⟨c.reduceScatterSlotCap item, ?_⟩
          unfold reduceScatterCheck
          dsimp only
          rw [if_neg (by omega)]
      | fused => exact ⟨_, c.inboxCheck_ok (hinbox (hone (by decide))) _⟩
      | stream => exact ⟨_, c.inboxCheck_ok (hinbox (hone (by decide))) _⟩

/-! ## Region geometry -/

/-- Slices and peer slots that fit are bytes of one arena and of one landing
group of the region. -/
theorem Fits.placed {c : Comm} {slices : List Span} {slot : Nat} (h : c.Fits slices slot) :
    (∀ a s, s ∈ slices → (s.shift (c.arenaData a).off).Within (c.arenaData a)) ∧
    (∀ seq sender, sender < c.npeers →
      (c.peerSlot seq slot sender).Within (c.span (.inbox (seq % c.nslots)))) := by
  refine ⟨fun a s hs => ⟨Nat.le_add_right _ _, ?_⟩, fun seq sender hsender => ?_⟩
  · have := h.within s hs
    unfold Span.shift Span.stop arenaData at *
    dsimp only at *
    omega
  · exact c.peerSlot_within seq h.inbox hsender

/-- **Region geometry never overflows.**  For every communicator over several
nodes that is admitted: the areas of the region are apart and inside it; the plan
of every collective tiles the buffer with chunks whose slices fit one arena and
whose peer slots fit one landing group, all aligned but for the offset of a shard
that holds nothing; and the checks of a release never fail. -/
theorem region_geometry (c : Comm) :
    (∀ x y, c.HasArea x → c.HasArea y → x ≠ y → (c.span x).Apart (c.span y)) ∧
    (∀ x, c.HasArea x → (c.span x).Within ⟨0, c.regionBytes⟩) ∧
    (∀ slices slot, c.Fits slices slot →
      (∀ a s, s ∈ slices → (s.shift (c.arenaData a).off).Within (c.arenaData a)) ∧
      (∀ seq sender, sender < c.npeers →
        (c.peerSlot seq slot sender).Within (c.span (.inbox (seq % c.nslots))))) ∧
    (∀ item count, item ∣ 16 →
      c.PlanSound count item (c.pipelinePlan count item) (fun n => c.allreduceSlices n item)
        (fun n => exchangeSlot ((shardRange n c.localWorld c.localRank item).2 * item)) ∧
      ∀ k, k < (c.pipelinePlan count item).nchunks →
        Tiles (chunk count (c.pipelinePlan count item).chunk k).len c.localWorld
          (shard (chunk count (c.pipelinePlan count item).chunk k).len c.localWorld item) ∧
        (∀ rank, rank < c.localWorld →
          (shard (chunk count (c.pipelinePlan count item).chunk k).len c.localWorld item
            rank).len ≠ 0 →
          16 ∣ (shard (chunk count (c.pipelinePlan count item).chunk k).len c.localWorld item
            rank).off * item) ∧
        ∃ slot, c.exchangeRelease (chunk count (c.pipelinePlan count item).chunk k).len item =
          .ok slot) ∧
    (∀ item count oneKernel, item ∣ 16 → (oneKernel = true → item = 4) →
      c.PlanSound count item (c.reduceScatterPlan count item oneKernel).2
        (fun n => c.reduceScatterSlices
          (reduceScatterSlot item (c.reduceScatterPlan count item oneKernel) n))
        (reduceScatterSlot item (c.reduceScatterPlan count item oneKernel)) ∧
      ∃ slot, c.reduceScatterCheck count item (c.reduceScatterPlan count item oneKernel) =
        .ok slot) ∧
    (∀ totalBytes,
      c.PlanSound totalBytes 1 (c.broadcastPlan totalBytes) c.broadcastSlices
        (fun n => alignUp n 16) ∧
      ∀ k, (chunk totalBytes (c.broadcastPlan totalBytes).chunk k).len ≤
          (c.span .staging).len ∧
        ∃ slot, c.broadcastRelease (chunk totalBytes (c.broadcastPlan totalBytes).chunk k).len =
          .ok slot) ∧
    (∀ count, c.PlanSound count 1 (c.allgatherPlan count) c.allgatherSlices
      (fun n => alignUp n 16)) := by
  refine ⟨fun x y => c.area_apart, fun x => c.area_within, fun slices slot h => h.placed,
    fun item count hitem => ⟨c.pipelinePlan_sound count hitem, fun k hk => ?_⟩,
    fun item count oneKernel hitem hkernel => ⟨c.reduceScatterPlan_sound count hitem hkernel,
      c.reduceScatterCheck_ok count hitem hkernel⟩,
    fun totalBytes => ⟨c.broadcastPlan_sound totalBytes, fun k => ?_⟩, c.allgatherPlan_sound⟩
  · obtain ⟨hpos, -, hle⟩ := c.pipelinePlan_chunk count hitem
    have hn := chunk_len_pos hpos hk
    refine ⟨tiles_shard hitem hn c.localWorld_pos,
      fun rank hrank hne => shard_aligned hitem hn hrank hne, _, c.inboxCheck_ok ?_ _⟩
    exact c.allreduce_slot_fits hitem hn (Nat.le_trans (chunk_bytes_le count item _ k) hle)
  · obtain ⟨-, hstage, hgroup⟩ := c.broadcastPlan_chunk_le totalBytes
    have hlen := chunk_len_le totalBytes (c.broadcastPlan totalBytes).chunk k
    refine ⟨Nat.le_trans hlen hstage, _, c.inboxCheck_ok (slots_mul_le ?_) _⟩
    exact Nat.le_trans (alignUp_le (c.dvd_broadcastPlan_chunk totalBytes) hlen) hgroup

/-- Two nodes of two ranks each with the smallest region. -/
def smallest : Comm where
  regionMb := 1
  localWorld := 2
  nnodes := 2
  localRank := 1
  myNode := 0
  amd := false
  admitted := by decide
  multinode := by decide
  localRank_lt := by decide
  myNode_lt := by decide

theorem region_geometry_smallest :
    Tiles 50000 5 (chunk 50000 12288) ∧
      (smallest.span (.inbox 4)).Within ⟨0, smallest.regionBytes⟩ ∧
      ∃ slot, smallest.exchangeRelease (chunk 50000 12288 4).len 16 = .ok slot := by
  obtain ⟨-, hwithin, -, hallreduce, -⟩ := region_geometry smallest
  have hplan : smallest.pipelinePlan 50000 16 = ⟨12288, 5, 4⟩ := by decide +kernel
  obtain ⟨hsound, hchunks⟩ := hallreduce 16 50000 (by decide)
  rw [hplan] at hsound hchunks
  obtain ⟨-, -, hslot⟩ := hchunks 4 (by decide)
  exact ⟨hsound.tiles, hwithin (.inbox 4) (by decide : 4 < 5), hslot⟩

/-- The shard of the second rank of a one-element buffer holds nothing and starts
at byte 4. -/
theorem shard_offset_unaligned :
    ¬ ∀ (c : Comm) (item count : Nat), item ∣ 16 →
      ∀ k, k < (c.pipelinePlan count item).nchunks → ∀ rank, rank < c.localWorld →
        16 ∣ (shard (chunk count (c.pipelinePlan count item).chunk k).len c.localWorld item
          rank).off * item := by
  intro h
  have hplan : 0 < (smallest.pipelinePlan 1 4).nchunks ∧
      ¬ 16 ∣ (shard (chunk 1 (smallest.pipelinePlan 1 4).chunk 0).len smallest.localWorld 4
        1).off * 4 := by
    decide +kernel
  exact hplan.2 (h smallest 4 1 (by decide) 0 hplan.1 1 (by decide))

end Comm

end TorchMojoBackend.Ccl
