/-
  `Ccl.ShardRange`: the shards of a buffer are a partition of it.

  Source: tmb/ccl/device/symmetric/primitives.mojo (`shard_range`), all_reduce.mojo
  (`_launch_rs_stage`).

  Every rank has `per` elements, a multiple of the vector width; the last shard that is not empty
  may be short, and the ranks past it have none.
-/
import TorchMojoBackend.Ccl.PlansFit

set_option autoImplicit false

namespace TorchMojoBackend.Ccl

open TorchMojoBackend.Foundation

/-- `slot_stride`: the bytes of a push slot, which holds one shard. -/
def slotStride (numel world item : Nat) : Nat := shardPer numel world (16 / item) * item

/-- The shards of the ranks are a partition of the buffer. -/
structure IsPartition (numel world item : Nat) : Prop where
  tiles : Tiles numel world (shard numel world item)
  first : (shard numel world item 0).off = 0
  next : ∀ r, r + 1 < world → (shard numel world item (r + 1)).off = (shard numel world item r).stop
  last : (shard numel world item (world - 1)).stop = numel
  aligned : ∀ r < world, (shard numel world item r).len ≠ 0 → 16 ∣ (shard numel world item r).off * item
  push : ∀ r < world, (shard numel world item r).len * item ≤ slotStride numel world item
  landing : ∀ r < world, (shard numel world item r).len * item ≤
    exchangeSlot ((shard numel world item r).len * item)

section

variable {n world item : Nat}

theorem shard_zero (world item r : Nat) : shard 0 world item r = ⟨0, 0⟩ := by
  have hper : shardPer 0 world (16 / item) = 0 := if_pos (.inl rfl)
  unfold shard shardRange
  dsimp only
  split
  · rfl
  · rw [if_pos (.inl hper)]

theorem shard_eq (hitem : item ∣ 16) (hn : 0 < n) {r : Nat} (hr : r < world) :
    shard n world item r = ⟨min (r * shardPer n world (16 / item)) n,
      min (shardPer n world (16 / item)) (n - r * shardPer n world (16 / item))⟩ := by
  unfold shard
  rw [shardRange_eq hitem hn hr, shardOff_eq, shardCnt_eq]

/-- The last shard ends with the buffer. -/
theorem le_world_mul_shardPer (hitem : item ∣ 16) (hn : 0 < n) (hworld : 0 < world) :
    n ≤ world * shardPer n world (16 / item) := by
  rw [shardPer_eq hn hworld]
  calc n ≤ pieces n world * world := le_pieces_mul hworld
    _ = world * pieces n world := Nat.mul_comm _ _
    _ ≤ world * alignUp (pieces n world) (16 / item) := Nat.mul_le_mul_left world (le_alignUp (width_pos hitem))

theorem le_exchangeSlot (nbytes : Nat) : nbytes ≤ exchangeSlot nbytes :=
  Nat.le_trans (Nat.le_max_left _ _) (le_alignUp (by decide))

theorem isPartition_zero (world item : Nat) : IsPartition 0 world item := by
  have hshard := shard_zero world item
  refine ⟨⟨fun i => ⟨fun h => absurd h (Nat.not_lt_zero i), ?_⟩, fun j k _ _ => ?_⟩, ?_, fun r _ => ?_, ?_,
    fun r _ hne => ?_, fun r _ => ?_, fun r _ => le_exchangeSlot _⟩
  · rintro ⟨k, -, hmem⟩
    rw [hshard, Span.mem_iff] at hmem
    exact absurd hmem.2 (Nat.not_lt_zero i)
  · rw [hshard, hshard]
    exact Nat.le_refl 0
  · rw [hshard]
  · rw [hshard, hshard]
    rfl
  · rw [hshard]
    rfl
  · rw [hshard] at hne
    exact absurd rfl hne
  · rw [hshard, Nat.zero_mul]
    exact Nat.zero_le _

/-- The ranges of `shard_range` are a partition, in vectors, for every item size that divides one. -/
theorem shard_range_partition (n : Nat) (hworld : 0 < world) (hitem : item ∣ 16) : IsPartition n world item := by
  obtain rfl | hn := Nat.eq_zero_or_pos n
  · exact isPartition_zero world item
  · have hcover := le_world_mul_shardPer hitem hn hworld
    refine ⟨tiles_shard hitem hn hworld, ?_, fun r hr => ?_, ?_, fun r hr => shard_aligned hitem hn hr,
      fun r hr => ?_, fun r _ => le_exchangeSlot _⟩
    · rw [shard_eq hitem hn hworld, Nat.zero_mul]
      exact Nat.zero_min n
    · rw [shard_eq hitem hn hr, shard_eq hitem hn (Nat.lt_of_succ_lt hr), Span.stop, Nat.succ_mul]
      dsimp only
      omega
    · have hlast : world * shardPer n world (16 / item) =
          (world - 1) * shardPer n world (16 / item) + shardPer n world (16 / item) := by
        rw [← Nat.succ_mul, Nat.succ_eq_add_one, Nat.sub_add_cancel hworld]
      rw [shard_eq hitem hn (Nat.sub_lt hworld Nat.one_pos), Span.stop]
      dsimp only
      omega
    · rw [shard_eq hitem hn hr]
      exact Nat.mul_le_mul_right item (Nat.min_le_left _ _)

/-- Ten floats for four ranks: the last one has none. -/
theorem shard_range_partition_short : 0 < 4 ∧ 4 ∣ 16 ∧ IsPartition 10 4 4 :=
  ⟨by decide, by decide, shard_range_partition 10 (by decide) (by decide)⟩

/-- Items of 3 bytes: no rank has a shard. -/
theorem shard_range_unsupported : ¬ ∀ n world item : Nat, 0 < world → Tiles n world (shard n world item) :=
  fun h => by
    obtain ⟨k, hk, hmem⟩ := ((h 1 1 3 (by decide)).cover 0).mp (by decide)
    obtain rfl : k = 0 := by omega
    exact absurd hmem.2 (by decide)

end

end TorchMojoBackend.Ccl
