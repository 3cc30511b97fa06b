/-
  `Kernels.FlatLaunch`: the flat elementwise launcher.

  Source: tmb/kernels/common/gpu_elementwise.mojo (`_policy_block`, `_policy_unroll`,
  `_tiny_waves`, `_FlatKernel`, `_launch_one`, `_flat_launch`).

  A thread gives the calls of the body that it makes, in order.  Every number that it
  forms passes through `word`: the code's words wrap, and a checked word ends the thread
  at a number that does not fit.
-/
import Mathlib.Algebra.Order.Ring.Nat
import TorchMojoBackend.Foundation.Partition

set_option autoImplicit false

namespace TorchMojoBackend.Kernels.FlatLaunch

open TorchMojoBackend.Foundation

/-! ## Policy -/

def BIG_PACKED : Nat := 1 <<< 20

inductive Regime where
  | tiny | small | big
  deriving DecidableEq

/-- `_policy_block`. -/
def policyBlock (simdWidth : Nat) (regime : Regime) (heavy : Bool) : Nat :=
  if simdWidth ≤ 2 then (if regime = .tiny then 512 else 256)
  else if simdWidth ≤ 4 then (if regime = .big then 1024 else 256)
  else if simdWidth ≤ 8 then (if regime = .tiny ∧ heavy then 128 else 256)
  else if regime = .big then 512 else 128

/-- `_policy_unroll`. -/
def policyUnroll (simdWidth : Nat) (regime : Regime) : Nat :=
  if regime = .tiny then 1
  else if simdWidth ≤ 2 then 4
  else if simdWidth ≤ 4 then (if regime = .small then 2 else 1)
  else 1

/-- `_tiny_waves`. -/
def tinyWaves (simdWidth : Nat) : Nat := if simdWidth ≤ 2 then 2 else 1

/-- The bits of an index, and the threads of a block with the vectors of each. -/
structure Config where
  bits : Nat
  block : Nat
  unroll : Nat
  deriving DecidableEq, Repr

def Config.tile (c : Config) : Nat := c.block * c.unroll

/-- What a launch depends on besides its length. -/
structure Target where
  simdWidth : Nat
  heavy : Bool
  smCount : Nat
  threadsPerMultiprocessor : Nat

/-- The configuration of a regime. -/
def Target.config (t : Target) (bits : Nat) (regime : Regime) : Config :=
  ⟨bits, policyBlock t.simdWidth regime t.heavy, policyUnroll t.simdWidth regime⟩

def Target.maxTile (t : Target) : Nat :=
  max (t.config 32 .tiny).tile (max (t.config 32 .small).tile (t.config 32 .big).tile)

def Target.tinyMax (t : Target) : Nat :=
  t.smCount * t.threadsPerMultiprocessor * tinyWaves t.simdWidth

/-- The instantiation that `_flat_launch` picks. -/
def Target.pick (t : Target) (length : Nat) : Config :=
  let numPacked := length / t.simdWidth
  if length + 2 * t.maxTile * t.simdWidth > (1 <<< 31) - 1 then t.config 64 .big
  else if t.config 32 .tiny ≠ t.config 32 .small ∧ numPacked ≤ t.tinyMax then t.config 32 .tiny
  else if t.config 32 .big ≠ t.config 32 .small ∧ numPacked ≥ BIG_PACKED then t.config 32 .big
  else t.config 32 .small

/-! ## Kernel -/

/-- A call of the body. -/
structure Call where
  width : Nat
  index : Nat
  deriving DecidableEq, Repr

section
variable {m : Type → Type} [Monad m] (word : Nat → m Nat)

/-- The vector at packed index `p`. -/
def vectorCall (W p : Nat) : m Call := do
  let i ← word (p * W)
  return ⟨W, i⟩

/-- The vectors of a thread: a full tile is not checked. -/
def vectorCalls (W : Nat) (c : Config) (numPacked tileStart tile first : Nat) : m (List Call) :=
  if c.unroll = 1 then
    if first < numPacked then (do
      let call ← vectorCall word W first
      return [call])
    else return []
  else do
    let stop ← word (tileStart + tile)
    if stop ≤ numPacked then
      (List.range c.unroll).mapM fun u : Nat => do
        let p ← word (first + u * c.block)
        vectorCall word W p
    else
      let calls ← (List.range c.unroll).mapM fun u : Nat => do
        let p ← word (first + u * c.block)
        if p < numPacked then (do
          let call ← vectorCall word W p
          return [call])
        else return []
      return calls.flatten

/-- The elements after the vectors, in the last block. -/
def tailCalls (W numPacked tail gridDim block tid : Nat) : m (List Call) :=
  if W > 1 then do
    let last ← word (gridDim - 1)
    if block = last ∧ tid < tail then (do
      let base ← word (numPacked * W)
      let i ← word (base + tid)
      return [⟨1, i⟩])
    else return []
  else return []

/-- `_FlatKernel` in a thread. -/
def flatKernel (W : Nat) (c : Config) (numPacked tail gridDim blockIdx threadIdx : Nat) :
    m (List Call) := do
  let numPacked ← word numPacked
  let tail ← word tail
  let tid ← word threadIdx
  let width ← word W
  let tile ← word c.tile
  let block ← word blockIdx
  let tileStart ← word (block * tile)
  let first ← word (tileStart + tid)
  let vectors ← vectorCalls word width c numPacked tileStart tile first
  let scalars ← tailCalls word width numPacked tail gridDim block tid
  return vectors ++ scalars

end

/-- The code's words. -/
def wrapping (bits v : Nat) : Id Nat := pure (v % 2 ^ bits)

/-- Words that may not wrap. -/
def checked (bits v : Nat) : Option Nat := if v < 2 ^ bits then some v else none

/-- The blocks of `_launch_one`. -/
def blocks (c : Config) (numPacked : Nat) : Nat := max 1 ((numPacked + c.tile - 1) / c.tile)

/-- The calls of a thread of `_flat_launch`, with the given words. -/
def Target.thread {m : Type → Type} [Monad m] (t : Target) (word : Nat → m Nat)
    (length blockIdx threadIdx : Nat) : m (List Call) :=
  let numPacked := length / t.simdWidth
  let c := t.pick length
  flatKernel word t.simdWidth c numPacked (length - numPacked * t.simdWidth) (blocks c numPacked)
    blockIdx threadIdx

/-- The calls that a launch of `_flat_launch` makes. -/
def Target.flatLaunch (t : Target) (length : Nat) : Multiset Call :=
  if length = 0 then 0
  else
    let c := t.pick length
    (Multiset.range (blocks c (length / t.simdWidth))).bind fun b =>
      (Multiset.range c.block).bind fun tid =>
        ((t.thread (wrapping c.bits) length b tid).run : Multiset Call)

/-! ## What a thread does -/

/-- The vectors of a thread over unbounded numbers. -/
def exactVectors (W : Nat) (c : Config) (numPacked b tid : Nat) : List Call :=
  (List.range c.unroll).flatMap fun u =>
    if b * c.tile + (u * c.block + tid) < numPacked then
      [⟨W, (b * c.tile + (u * c.block + tid)) * W⟩] else []

/-- The other elements of a thread. -/
def exactTail (W numPacked tail gridDim b tid : Nat) : List Call :=
  if W > 1 ∧ b = gridDim - 1 ∧ tid < tail then [⟨1, numPacked * W + tid⟩] else []

theorem mapM_eq_pure {m : Type → Type} [Monad m] [LawfulMonad m] {α β : Type} {f : α → m β}
    {g : α → β} {l : List α} (h : ∀ a ∈ l, f a = pure (g a)) : l.mapM f = pure (l.map g) := by
  induction l with
  | nil => rfl
  | cons a l ih =>
      rw [List.mapM_cons, h a List.mem_cons_self, ih fun b hb => h b (List.mem_cons_of_mem _ hb)]
      simp

section
variable {m : Type → Type} [Monad m] [LawfulMonad m] {word : Nat → m Nat} {W : Nat} {c : Config}
  {numPacked tail gridDim b tid : Nat}

theorem vectorCall_eq {p : Nat} (h : word (p * W) = pure (p * W)) :
    vectorCall word W p = pure ⟨W, p * W⟩ := by
  rw [vectorCall, h, pure_bind]

/-- The numbers of a thread stay below its elements and a tile. -/
theorem vectorCalls_eq (hW : 0 < W) (htid : tid < c.block)
    (hb : b * c.tile ≤ numPacked)
    (hword : ∀ v, v ≤ numPacked * W + tail + c.tile → word v = pure v) :
    vectorCalls word W c numPacked (b * c.tile) c.tile (b * c.tile + tid) =
      pure (exactVectors W c numPacked b tid) := by
  have hpacked : numPacked ≤ numPacked * W := Nat.le_mul_of_pos_right _ hW
  have hlane : ∀ u, u < c.unroll → u * c.block + tid < c.tile := by
    intro u hu
    rw [Config.tile, Nat.mul_comm c.block]
    exact row_major_lt hu htid
  have hcall : ∀ p, p < numPacked → vectorCall word W p = pure ⟨W, p * W⟩ := by
    intro p hp
    refine vectorCall_eq (hword _ ?_)
    have := Nat.mul_le_mul_right W hp.le
    omega
  have hindex : ∀ u, u ∈ List.range c.unroll →
      word (b * c.tile + tid + u * c.block) = pure (b * c.tile + (u * c.block + tid)) := by
    intro u hu
    have := hlane u (List.mem_range.mp hu)
    rw [Nat.add_assoc, Nat.add_comm tid]
    exact hword _ (by omega)
  unfold vectorCalls exactVectors
  split
  · rename_i hone
    rw [hone, List.range_one, List.flatMap_singleton, Nat.zero_mul, Nat.zero_add]
    split
    · rename_i hlt
      rw [hcall _ hlt, pure_bind]
    · rfl
  · rw [hword _ (by omega), pure_bind]
    split
    · -- a full tile
      rename_i hfull
      rw [mapM_eq_pure (g := fun u : Nat => (⟨W, (b * c.tile + (u * c.block + tid)) * W⟩ : Call))
        fun u hu => ?_]
      · rw [List.map_eq_flatMap]
        refine congrArg pure (List.flatMap_congr fun u hu => (if_pos ?_).symm)
        have := hlane u (List.mem_range.mp hu)
        omega
      · have := hlane u (List.mem_range.mp hu)
        rw [hindex u hu, pure_bind, hcall _ (by omega)]
    · rw [mapM_eq_pure (g := fun u : Nat =>
        if b * c.tile + (u * c.block + tid) < numPacked then
          [(⟨W, (b * c.tile + (u * c.block + tid)) * W⟩ : Call)] else []) fun u hu => ?_]
      · rw [pure_bind, List.flatMap_def]
      · rw [hindex u hu, pure_bind]
        split
        · rename_i hlt
          rw [hcall _ hlt, pure_bind]
        · rfl

theorem tailCalls_eq (hgrid : gridDim - 1 ≤ numPacked)
    (hword : ∀ v, v ≤ numPacked * W + tail → word v = pure v) :
    tailCalls word W numPacked tail gridDim b tid =
      pure (exactTail W numPacked tail gridDim b tid) := by
  unfold tailCalls exactTail
  by_cases hW : W > 1
  · have hpacked : numPacked ≤ numPacked * W := Nat.le_mul_of_pos_right _ (by omega)
    rw [if_pos hW, hword _ (by omega), pure_bind]
    by_cases hin : b = gridDim - 1 ∧ tid < tail
    · rw [if_pos hin, if_pos ⟨hW, hin⟩, hword _ (by omega), pure_bind, hword _ (by omega),
        pure_bind]
    · rw [if_neg hin, if_neg fun h => hin h.2]
  · rw [if_neg hW, if_neg fun h => hW h.1]

theorem flatKernel_eq (hW : 0 < W) (hunroll : 0 < c.unroll) (htid : tid < c.block)
    (hb : b * c.tile ≤ numPacked) (hgrid : gridDim - 1 ≤ numPacked)
    (hword : ∀ v, v ≤ numPacked * W + tail + c.tile → word v = pure v) (hwidth : word W = pure W) :
    flatKernel word W c numPacked tail gridDim b tid =
      pure (exactVectors W c numPacked b tid ++ exactTail W numPacked tail gridDim b tid) := by
  have hpacked : numPacked ≤ numPacked * W := Nat.le_mul_of_pos_right _ hW
  have htile : tid < c.tile := htid.trans_le (Nat.le_mul_of_pos_right _ hunroll)
  have hblock : b ≤ numPacked := (Nat.le_mul_of_pos_right b (by omega)).trans hb
  unfold flatKernel
  rw [hword numPacked (by omega), pure_bind, hword tail (by omega), pure_bind,
    hword tid (by omega), pure_bind, hwidth, pure_bind, hword c.tile (by omega), pure_bind,
    hword b (by omega), pure_bind, hword (b * c.tile) (by omega), pure_bind,
    hword (b * c.tile + tid) (by omega), pure_bind,
    vectorCalls_eq hW htid hb hword, pure_bind,
    tailCalls_eq hgrid fun v hv => hword v (by omega), pure_bind]

end

/-! ## What a launch does -/

section
variable {W : Nat} {c : Config} {numPacked : Nat}

theorem le_blocks (htile : 0 < c.tile) : numPacked ≤ blocks c numPacked * c.tile := by
  have hdiv := Nat.lt_mul_div_succ (numPacked + c.tile - 1) htile
  rw [Nat.mul_comm, Nat.succ_mul] at hdiv
  have hmax := Nat.mul_le_mul_right c.tile
    (Nat.le_max_right 1 ((numPacked + c.tile - 1) / c.tile))
  unfold blocks
  omega

theorem block_start_le (htile : 0 < c.tile) {b : Nat} (hb : b < blocks c numPacked) :
    b * c.tile ≤ numPacked := by
  unfold blocks at hb
  by_cases hzero : b = 0
  · subst hzero
    rw [Nat.zero_mul]
    exact Nat.zero_le _
  · have hlt : b < (numPacked + c.tile - 1) / c.tile := by omega
    have hmul := (Nat.lt_div_iff_mul_lt htile).mp hlt
    omega

theorem last_block_le (htile : 0 < c.tile) : blocks c numPacked - 1 ≤ numPacked := by
  have hpos : 0 < blocks c numPacked := Nat.lt_of_lt_of_le Nat.one_pos (Nat.le_max_left _ _)
  have hstart : (blocks c numPacked - 1) * c.tile ≤ numPacked := block_start_le htile (by omega)
  exact (Nat.le_mul_of_pos_right _ htile).trans hstart

/-- The threads' vectors are all vectors, each once. -/
theorem bind_exactVectors (htile : 0 < c.tile) :
    ((Multiset.range (blocks c numPacked)).bind fun b => (Multiset.range c.block).bind fun tid =>
      (exactVectors W c numPacked b tid : Multiset Call)) =
      (Multiset.range numPacked).map fun p => ⟨W, p * W⟩ := by
  let g : Nat → Multiset Call := fun p => if p < numPacked then {⟨W, p * W⟩} else 0
  have hthread : ∀ b tid, (exactVectors W c numPacked b tid : Multiset Call) =
      (Multiset.range c.unroll).bind fun u => g (b * c.tile + (u * c.block + tid)) := by
    intro b tid
    rw [exactVectors, ← Multiset.coe_bind, Multiset.coe_range]
    refine Multiset.bind_congr fun u _ => ?_
    dsimp only [g]
    split <;> rfl
  have hblock : ∀ b, ((Multiset.range c.block).bind fun tid =>
      (exactVectors W c numPacked b tid : Multiset Call)) =
      (Multiset.range c.tile).bind fun x => g (b * c.tile + x) := by
    intro b
    rw [Config.tile, Nat.mul_comm c.block, bind_range_mul', Multiset.bind_congr]
    exact fun tid _ => by rw [hthread, Config.tile, Nat.mul_comm c.block]
  rw [Multiset.bind_congr fun b _ => hblock b, ← bind_range_mul, bind_range_lanes (le_blocks htile)]
  exact Multiset.bind_singleton _ _

/-- The other elements go to the first threads of the last block. -/
theorem bind_exactTail {tail gridDim : Nat} (hW : W ≤ 1 → tail = 0) (hgrid : 0 < gridDim) :
    ((Multiset.range gridDim).bind fun b => (Multiset.range c.block).bind fun tid =>
      (exactTail W numPacked tail gridDim b tid : Multiset Call)) =
      (Multiset.range (min tail c.block)).map fun t => ⟨1, numPacked * W + t⟩ := by
  let s : Multiset Call := (Multiset.range (min tail c.block)).map fun t => ⟨1, numPacked * W + t⟩
  have hblock : ∀ b, ((Multiset.range c.block).bind fun tid =>
      (exactTail W numPacked tail gridDim b tid : Multiset Call)) =
      if b = gridDim - 1 then s else 0 := by
    intro b
    by_cases hb : b = gridDim - 1
    · rw [if_pos hb]
      have hlane : ∀ tid ∈ Multiset.range c.block,
          (exactTail W numPacked tail gridDim b tid : Multiset Call) =
            if tid < min tail c.block then {⟨1, numPacked * W + tid⟩} else 0 := by
        intro tid htid
        rw [Multiset.mem_range] at htid
        unfold exactTail
        by_cases hin : tid < tail
        · rw [if_pos ⟨by omega, hb, hin⟩, if_pos (by omega)]
          rfl
        · rw [if_neg fun h => hin h.2.2, if_neg (by omega)]
          rfl
      rw [Multiset.bind_congr hlane, bind_range_lanes (Nat.min_le_right _ _)]
      exact Multiset.bind_singleton _ _
    · rw [if_neg hb]
      refine (Multiset.bind_congr fun tid _ => ?_).trans (Multiset.bind_zero _)
      rw [exactTail, if_neg fun h => hb h.2.1]
      rfl
  rw [Multiset.bind_congr fun b _ => hblock b]
  exact bind_range_last hgrid s

end

/-! ## The launcher -/

section
variable (t : Target) (length : Nat)

theorem Target.unroll_pos (bits : Nat) (regime : Regime) : 0 < (t.config bits regime).unroll := by
  unfold Target.config policyUnroll
  dsimp only
  split_ifs <;> decide

theorem Target.block_ge (bits : Nat) (regime : Regime) : 128 ≤ (t.config bits regime).block := by
  unfold Target.config policyBlock
  dsimp only
  split_ifs <;> decide

/-- The tiles of the 32-bit instantiations. -/
theorem Target.tile_le (regime : Regime) : (t.config 32 regime).tile ≤ t.maxTile := by
  unfold Target.maxTile
  cases regime <;> omega

/-- What it picks is the configuration of a regime, and has 32 bits only for short lengths. -/
theorem Target.pick_cases : (t.pick length = t.config 64 .big) ∨
    ∃ regime, t.pick length = t.config 32 regime ∧
      length + 2 * t.maxTile * t.simdWidth ≤ 2 ^ 31 - 1 := by
  unfold Target.pick
  dsimp only
  split_ifs with hlong
  · exact Or.inl rfl
  all_goals exact Or.inr ⟨_, rfl, by omega⟩

theorem Target.tile_le_1024 (bits : Nat) (regime : Regime) :
    (t.config bits regime).tile ≤ 1024 := by
  unfold Target.config Config.tile policyBlock policyUnroll
  cases regime <;> dsimp only <;> split_ifs <;> simp at *

theorem Target.pick_block_ge : 128 ≤ (t.pick length).block := by
  obtain h | ⟨regime, h, -⟩ := t.pick_cases length <;> rw [h]
  · exact t.block_ge 64 .big
  · exact t.block_ge 32 regime

theorem Target.pick_unroll_pos : 0 < (t.pick length).unroll := by
  obtain h | ⟨regime, h, -⟩ := t.pick_cases length <;> rw [h]
  · exact t.unroll_pos 64 .big
  · exact t.unroll_pos 32 regime

theorem Target.pick_tile_pos : 0 < (t.pick length).tile :=
  Nat.mul_pos (Nat.lt_of_lt_of_le (by decide) (t.pick_block_ge length)) (t.pick_unroll_pos length)

variable {t length}

/-- The words that an instantiation uses hold all its numbers. -/
theorem Target.pick_fits (hW : 0 < t.simdWidth) (hW64 : t.simdWidth < 2 ^ 63)
    (hlen64 : length < 2 ^ 63) : length + (t.pick length).tile < 2 ^ (t.pick length).bits ∧
      t.simdWidth < 2 ^ (t.pick length).bits := by
  obtain h | ⟨regime, h, hshort⟩ := t.pick_cases length <;> rw [h]
  · have := t.tile_le_1024 64 .big
    change length + (t.config 64 .big).tile < 2 ^ 64 ∧ t.simdWidth < 2 ^ 64
    omega
  · have htile := t.tile_le regime
    have hpos : 0 < (t.config 32 regime).tile :=
      Nat.mul_pos (Nat.lt_of_lt_of_le (by decide) (t.block_ge 32 regime)) (t.unroll_pos 32 regime)
    have hmul : t.maxTile ≤ t.maxTile * t.simdWidth := Nat.le_mul_of_pos_right _ hW
    have hmul' : t.simdWidth ≤ t.maxTile * t.simdWidth :=
      Nat.le_mul_of_pos_left _ (by omega)
    rw [Nat.mul_assoc] at hshort
    change length + (t.config 32 regime).tile < 2 ^ 32 ∧ t.simdWidth < 2 ^ 32
    omega

/-- What a thread does with words that hold its numbers. -/
theorem Target.thread_eq {m : Type → Type} [Monad m] [LawfulMonad m] {word : Nat → m Nat}
    (hW : 0 < t.simdWidth) {b tid : Nat}
    (hb : b < blocks (t.pick length) (length / t.simdWidth)) (htid : tid < (t.pick length).block)
    (hword : ∀ v, v ≤ length + (t.pick length).tile → word v = pure v)
    (hwidth : word t.simdWidth = pure t.simdWidth) :
    t.thread word length b tid =
      pure (exactVectors t.simdWidth (t.pick length) (length / t.simdWidth) b tid ++
        exactTail t.simdWidth (length / t.simdWidth) (length % t.simdWidth)
          (blocks (t.pick length) (length / t.simdWidth)) b tid) := by
  have hdiv := Nat.div_add_mod length t.simdWidth
  rw [Nat.mul_comm] at hdiv
  have htail : length - length / t.simdWidth * t.simdWidth = length % t.simdWidth := by omega
  unfold Target.thread
  dsimp only
  rw [htail]
  refine flatKernel_eq hW (t.pick_unroll_pos length) htid
    (block_start_le (t.pick_tile_pos length) hb) (last_block_le (t.pick_tile_pos length))
    (fun v hv => hword v (by omega)) hwidth

theorem wrapping_eq {bits v : Nat} (h : v < 2 ^ bits) : wrapping bits v = pure v :=
  congrArg pure (Nat.mod_eq_of_lt h)

theorem checked_eq {bits v : Nat} (h : v < 2 ^ bits) : checked bits v = pure v := if_pos h

/-- The launch makes every vector call, and a call for each other element that the last block has a
thread for. -/
theorem Target.flatLaunch_eq (hW : 0 < t.simdWidth) (hW64 : t.simdWidth < 2 ^ 63)
    (hlen : 0 < length) (hlen64 : length < 2 ^ 63) :
    t.flatLaunch length =
      (Multiset.range (length / t.simdWidth)).map (fun p => ⟨t.simdWidth, p * t.simdWidth⟩) +
      (Multiset.range (min (length % t.simdWidth) (t.pick length).block)).map fun k =>
        ⟨1, length / t.simdWidth * t.simdWidth + k⟩ := by
  obtain ⟨hfit, hwidth⟩ := t.pick_fits hW hW64 hlen64
  have hthread : ∀ b ∈ Multiset.range (blocks (t.pick length) (length / t.simdWidth)),
      ((Multiset.range (t.pick length).block).bind fun tid =>
        ((t.thread (wrapping (t.pick length).bits) length b tid).run : Multiset Call)) =
      ((Multiset.range (t.pick length).block).bind fun tid => (exactVectors t.simdWidth
        (t.pick length) (length / t.simdWidth) b tid : Multiset Call)) +
      (Multiset.range (t.pick length).block).bind fun tid => (exactTail t.simdWidth
        (length / t.simdWidth) (length % t.simdWidth)
        (blocks (t.pick length) (length / t.simdWidth)) b tid : Multiset Call) := by
    intro b hb
    rw [← Multiset.bind_add]
    refine Multiset.bind_congr fun tid htid => ?_
    rw [t.thread_eq hW (Multiset.mem_range.mp hb) (Multiset.mem_range.mp htid)
      (fun v hv => wrapping_eq (by omega)) (wrapping_eq hwidth)]
    rfl
  unfold Target.flatLaunch
  dsimp only
  rw [if_neg (by omega), Multiset.bind_congr hthread, Multiset.bind_add,
    bind_exactVectors (t.pick_tile_pos length), bind_exactTail ?_ ?_]
  · intro hone
    rw [show t.simdWidth = 1 by omega, Nat.mod_one]
  · exact Nat.lt_of_lt_of_le Nat.one_pos (Nat.le_max_left _ _)

end

end TorchMojoBackend.Kernels.FlatLaunch
