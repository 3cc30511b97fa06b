/-
  `Kernels.WelfordFolds`: which elements the kernels fold into which state.

  A kind of state that keeps what it stands for through every operation keeps it through
  the kernels, whatever the states are.  A thread's interleaved states, its group and the
  lanes of a column add up to the shard of a line.
-/
import TorchMojoBackend.Foundation.ThreadSums
import TorchMojoBackend.Kernels.Welford

set_option autoImplicit false

namespace TorchMojoBackend.Kernels.Welford

open TorchMojoBackend.Foundation
open TorchMojoBackend.Kernels.OpUtils

universe u

/-- States that stand for the offsets folded into them. -/
structure Folds {S V : Type u} (o : WelfordOps S V) (width : Nat) (Loadable : Nat → Prop)
    (stands : S → Multiset Nat → Prop) (vecStands : V → Multiset Nat → Prop) : Prop where
  zero : stands o.zero 0
  combine : ∀ {a b A B}, stands a A → stands b B → stands (o.combine a b) (A + B)
  update : ∀ {s A} off, stands s A → stands (o.update off s) (A + {off})
  vecZero : vecStands o.vecZero 0
  vecUpdate : ∀ {v A off}, Loadable off → vecStands v A →
    vecStands (o.vecUpdate off v) (A + (Multiset.range width).map (off + ·))
  lanes : ∀ {v A}, vecStands v A → stands (o.lanes v) A

namespace Folds

variable {S V : Type u} {o : WelfordOps S V} {width : Nat} {Loadable : Nat → Prop}
  {stands : S → Multiset Nat → Prop} {vecStands : V → Multiset Nat → Prop}
  (h : Folds o width Loadable stands vecStands)
include h

/-! ## Merges -/

theorem mergeInto {first : S} {states : Nat → S} {A : Nat → Multiset Nat} {count : Nat}
    (hcount : 0 < count) (hfirst : stands first (A 0))
    (hstates : ∀ k, 0 < k → k < count → stands (states k) (A k)) :
    stands (o.mergeInto first states count) (∑ k ∈ Finset.range count, A k) := by
  obtain ⟨n, rfl⟩ : ∃ n, count = n + 1 := ⟨count - 1, by omega⟩
  have hsum : ((List.range' 1 n).map A).sum = ∑ k ∈ Finset.range n, A (k + 1) := by
    rw [List.range'_eq_map_range, List.map_map, sum_map_range]
    exact Finset.sum_congr rfl fun k _ => congrArg A (Nat.add_comm 1 k)
  rw [Finset.sum_range_succ', ← hsum, add_comm _ (A 0)]
  change stands ((List.range' 1 n).foldl (fun t k => o.combine t (states k)) first) _
  refine foldl_stands (fun k hk _ _ hs => h.combine hs ?_) hfirst
  obtain ⟨hpos, hlt⟩ := List.mem_range'_1.mp hk
  exact hstates k hpos (by omega)

/-- A warp's run of `2 ^ k` lanes, at a multiple of its length. -/
theorem warp {warpBits k b : Nat} (hk : k ≤ warpBits) {lanes : Nat → S} {A : Nat → Multiset Nat}
    (hlanes : ∀ l < 2 ^ k, stands (lanes (b * 2 ^ k + l)) (A l)) :
    stands (stages (shuffleDown o.combine (WelfordOps.shuffleSource warpBits)) k lanes (b * 2 ^ k))
      (∑ l ∈ Finset.range (2 ^ k), A l) := by
  refine shuffle_merge h.combine (fun m hm l hl => ?_) hlanes
  -- the run ends within its warp
  have hwarp : 2 ^ warpBits = 2 ^ (warpBits - k) * 2 ^ k := by
    rw [← Nat.pow_add, Nat.sub_add_cancel hk]
  have hend : b * 2 ^ k % 2 ^ warpBits + 2 ^ k ≤ 2 ^ warpBits := by
    rw [hwarp, Nat.mul_mod_mul_right, ← Nat.succ_mul]
    exact Nat.mul_le_mul_right _ (Nat.mod_lt b (Nat.two_pow_pos _))
  have hhalf : 2 ^ m + 2 ^ m ≤ 2 ^ k := by
    rw [← Nat.mul_two, ← Nat.pow_succ]
    exact Nat.pow_le_pow_right Nat.two_pos hm
  have hmod : (b * 2 ^ k + l) % 2 ^ warpBits = b * 2 ^ k % 2 ^ warpBits + l := by
    rw [Nat.add_mod, Nat.mod_eq_of_lt (by omega : l < 2 ^ warpBits), Nat.mod_eq_of_lt (by omega)]
  unfold WelfordOps.shuffleSource
  rw [hmod, if_pos (by omega)]

/-- A group of `2 ^ t` threads, narrower or wider than a warp. -/
theorem group {warpBits t g : Nat} {lanes : Nat → S} {A : Nat → Multiset Nat}
    (hlanes : ∀ l < 2 ^ t, stands (lanes (g * 2 ^ t + l)) (A l)) :
    stands (o.welfordGroup warpBits (2 ^ t) lanes (g * 2 ^ t))
      (∑ l ∈ Finset.range (2 ^ t), A l) := by
  have hwarps : o.welfordWarp warpBits (2 ^ t) lanes =
      stages (shuffleDown o.combine (WelfordOps.shuffleSource warpBits)) (min t warpBits) lanes :=
    stages_skip _ t
  unfold WelfordOps.welfordGroup
  dsimp only
  rw [hwarps]
  by_cases hle : t ≤ warpBits
  · have hwpg : 2 ^ t / 2 ^ warpBits ≤ 1 := by
      refine Nat.div_le_of_le_mul ?_
      rw [Nat.mul_one]
      exact Nat.pow_le_pow_right Nat.two_pos hle
    rw [if_pos hwpg, Nat.min_eq_left hle]
    exact h.warp hle hlanes
  · -- the first thread merges its group's warps
    have hlt : warpBits < t := Nat.lt_of_not_le hle
    have hpow : 2 ^ t = 2 ^ (t - warpBits) * 2 ^ warpBits := by
      rw [← Nat.pow_add, Nat.sub_add_cancel hlt.le]
    have hwpg : 2 ^ t / 2 ^ warpBits = 2 ^ (t - warpBits) := by
      rw [hpow, Nat.mul_div_cancel _ (Nat.two_pow_pos _)]
    have hmany : 1 < 2 ^ (t - warpBits) := Nat.one_lt_two_pow (by omega)
    have hfirst : g * 2 ^ t / 2 ^ warpBits = g * 2 ^ (t - warpBits) := by
      rw [hpow, ← Nat.mul_assoc, Nat.mul_div_cancel _ (Nat.two_pow_pos _)]
    have hwarp : ∀ k < 2 ^ (t - warpBits), stands
        (stages (shuffleDown o.combine (WelfordOps.shuffleSource warpBits)) warpBits lanes
          ((g * 2 ^ (t - warpBits) + k) * 2 ^ warpBits))
        (∑ l ∈ Finset.range (2 ^ warpBits), A (k * 2 ^ warpBits + l)) := by
      intro k hk
      refine h.warp (Nat.le_refl _) fun l hl => ?_
      have hin : k * 2 ^ warpBits + l < 2 ^ t := hpow ▸ row_major_lt hk hl
      rw [Nat.add_mul, Nat.mul_assoc, ← hpow, Nat.add_assoc]
      exact hlanes _ hin
    rw [hwpg, if_neg (by omega), if_pos (Nat.mul_mod_left _ _), Nat.min_eq_right hlt.le, hfirst]
    conv => arg 2; rw [hpow, sum_runs]
    refine h.mergeInto (Nat.two_pow_pos _) ?_ fun k _ hk => hwarp k hk
    have hzero := hwarp 0 (Nat.two_pow_pos _)
    rwa [Nat.add_zero, Nat.mul_assoc, ← hpow] at hzero

end Folds

/-! ## Rows -/

/-- The units of one state. -/
theorem interleaved_eq {T : Type u} (unit : Nat → T → T) (ilp tpr first u1 : Nat) (start : T)
    (k : Nat) : WelfordOps.interleaved unit ilp tpr first u1 start k =
      (strided u1 (tpr * ilp) u1 (first + k * tpr)).foldl (fun s j => unit j s) start := by
  unfold WelfordOps.interleaved
  rw [foldl_states fun j k s => if j + k * tpr < u1 then unit (j + k * tpr) s else s,
    ← strided_ahead, List.foldl_filterMap]
  congr 1
  funext s j
  split <;> rfl

theorem interleaved_stands {T : Type u} {stands : T → Multiset Nat → Prop} {unit : Nat → T → T}
    {f : Nat → Multiset Nat} {start : T} {ilp tpr u1 : Nat} (hstep : 0 < tpr * ilp)
    (hstart : stands start 0)
    (hunit : ∀ j < u1, ∀ {s A}, stands s A → stands (unit j s) (A + f j)) (first k : Nat) :
    stands (WelfordOps.interleaved unit ilp tpr first u1 start k)
      ((strided u1 (tpr * ilp) u1 (first + k * tpr)).map f).sum := by
  rw [interleaved_eq, ← zero_add (List.sum _)]
  refine foldl_stands (fun j hj _ _ hs => hunit j ?_ hs) hstart
  exact ((mem_strided hstep (Nat.le_add_left _ _)).mp hj).2.1

namespace WelfordOps.RowsArgs

variable (a : RowsArgs)

/-- The states of a thread. -/
def ilp : Nat := if a.vec then welfordVecIlp else welfordIlp

/-- The elements of a unit. -/
def unitFolds (r jj : Nat) : Multiset Nat :=
  (Multiset.range a.width).map (a.unitOffset r jj * a.width + ·)

/-- The elements of a row in a split. -/
def shard (r split : Nat) : Multiset Nat :=
  ∑ i ∈ Finset.range (a.stop split - a.start split), a.unitFolds r (a.start split + i)

theorem ilp_pos : 0 < a.ilp := by
  unfold ilp
  split <;> decide

theorem width_pos : 0 < a.width := by
  unfold width
  split
  · exact welfordVec_pos a.dt
  · exact Nat.one_pos

/-- The threads of a group take the units of the shard. -/
theorem sum_group (r split : Nat) (htpr : 0 < a.tpr) :
    ∑ l ∈ Finset.range a.tpr, ∑ k ∈ Finset.range a.ilp,
      ((strided (a.stop split) (a.tpr * a.ilp) (a.stop split)
        (a.start split + l + k * a.tpr)).map (a.unitFolds r)).sum = a.shard r split := by
  have hplace : ∀ l k, a.start split + l + k * a.tpr = a.start split + (k * a.tpr + l) :=
    fun l k => by omega
  simp only [hplace]
  rw [Finset.sum_comm, ← sum_runs fun t => ((strided (a.stop split) (a.tpr * a.ilp) (a.stop split)
    (a.start split + t)).map (a.unitFolds r)).sum, Nat.mul_comm a.ilp]
  exact sum_threads_from _ (Nat.mul_pos htpr a.ilp_pos) (Nat.le_refl _)

end WelfordOps.RowsArgs

namespace WelfordOps.ColsArgs

variable (a : ColsArgs)

/-- The elements of an output in a split. -/
def shard (r split : Nat) : Multiset Nat :=
  ∑ i ∈ Finset.range (a.stop split - a.start split),
    {r / a.inner * a.n * a.inner + r % a.inner + (a.start split + i) * a.inner}

theorem ilp_pos : 0 < a.ilp := by
  unfold ilp
  split <;> decide

end WelfordOps.ColsArgs

/-- The bodies and the tail take a thread's rows. -/
theorem colsBodies_stands {S : Type u} {stands : S → Multiset Nat → Prop}
    {row : Nat → S → S} {f : Nat → Multiset Nat} {ilp lanes r1 : Nat}
    (hilp : 0 < ilp) (hlanes : 0 < lanes)
    (hrow : ∀ r, ∀ {s A}, stands s A → stands (row r s) (A + f r)) (fuel : Nat) :
    ∀ {r : Nat} {states : Nat → S} {A : Nat → Multiset Nat}, (∀ u < ilp, stands (states u) (A u)) →
      ∃ B : Nat → Multiset Nat,
        (∀ u < ilp, stands ((WelfordOps.colsBodies row ilp lanes r1 fuel r states).1 u) (B u)) ∧
        ∑ u ∈ Finset.range ilp, B u +
            ((strided r1 lanes r1 (WelfordOps.colsBodies row ilp lanes r1 fuel r states).2).map f).sum =
          ∑ u ∈ Finset.range ilp, A u + ((strided r1 lanes r1 r).map f).sum := by
  induction fuel with
  | zero => exact fun {r states A} hA => ⟨A, hA, rfl⟩
  | succ fuel ih =>
      intro r states A hA
      rw [WelfordOps.colsBodies]
      split
      · rename_i hin
        obtain ⟨B, hB, hsum⟩ := ih (r := r + lanes * ilp) (A := fun u => A u + f (r + u * lanes))
          fun u hu => hrow (r + u * lanes) (hA u hu)
        refine ⟨B, hB, hsum.trans ?_⟩
        -- a body takes the next `ilp` rows of the loop
        have hunroll := @strided_unroll r1 lanes r1 (ilp - 1) r hin
        rw [Nat.sub_add_cancel hilp] at hunroll
        rw [strided_fuel hlanes (Nat.le_add_left r1 r) (by omega : r1 ≤ r + (ilp + r1)), hunroll,
          List.map_append, List.sum_append, List.map_map, sum_map_range, Finset.sum_add_distrib,
          add_assoc, Nat.mul_comm ilp]
        rfl
      · exact ⟨A, hA, rfl⟩

/-- The partials of a kernel: one for each output and split, of its shard. -/
structure Shards {S : Type u} (stands : S → Multiset Nat → Prop) (shard : Nat → Nat → Multiset Nat)
    (rows splits : Nat) (partials : List ((Nat × Nat) × S)) : Prop where
  stands : ∀ p ∈ partials, stands p.2 (shard p.1.1 p.1.2)
  keys : (partials.map fun p => ({p.1} : Multiset (Nat × Nat))).sum =
    ∑ r ∈ Finset.range rows, ∑ split ∈ Finset.range splits, {(r, split)}

section
variable {S V : Type u} {o : WelfordOps S V} {Loadable : Nat → Prop}
  {stands : S → Multiset Nat → Prop} {vecStands : V → Multiset Nat → Prop}

namespace Folds

open WelfordOps

section
variable {a : RowsArgs} (h : Folds o (welfordVec a.dt) Loadable stands vecStands)
include h

theorem rowsThread {r : Nat} (hr : r < a.rows) (htpr : 0 < a.tpr)
    (hload : a.vec = true → ∀ jj < a.units, Loadable (a.unitOffset r jj * welfordVec a.dt))
    (split tid : Nat) : stands (o.rowsThread a split r tid)
      (∑ k ∈ Finset.range a.ilp, ((strided (a.stop split) (a.tpr * a.ilp) (a.stop split)
        (a.start split + tid % a.tpr + k * a.tpr)).map (a.unitFolds r)).sum) := by
  have hstep := Nat.mul_pos htpr a.ilp_pos
  have hstop : ∀ {jj}, jj < a.stop split → jj < a.units := fun hjj =>
    Nat.lt_of_lt_of_le hjj (Nat.min_le_left _ _)
  unfold WelfordOps.rowsThread
  dsimp only
  rw [if_pos hr, ← sum_map_range, ← zero_add (List.sum _)]
  by_cases hvec : a.vec = true
  · have hilp : a.ilp = welfordVecIlp := if_pos hvec
    have hwidth : a.width = welfordVec a.dt := if_pos hvec
    rw [if_pos hvec, hilp]
    rw [hilp] at hstep
    refine foldl_stands (fun k _ _ _ hs => h.combine hs (h.lanes ?_)) h.zero
    refine interleaved_stands hstep h.vecZero (fun jj hjj _ _ hs => ?_) _ k
    unfold RowsArgs.unitFolds
    rw [hwidth]
    exact h.vecUpdate (hload hvec jj (hstop hjj)) hs
  · have hilp : a.ilp = welfordIlp := if_neg hvec
    have hwidth : a.width = 1 := if_neg hvec
    rw [if_neg hvec, hilp]
    rw [hilp] at hstep
    refine foldl_stands (fun k _ _ _ hs => h.combine hs ?_) h.zero
    refine interleaved_stands hstep h.zero (fun jj _ _ _ hs => ?_) _ k
    unfold RowsArgs.unitFolds
    rw [hwidth, Nat.mul_one]
    exact h.update _ hs

/-- The rows kernel, for groups of any power of two. -/
theorem rowsPartials {warpBits grid t groups : Nat} (htpr : a.tpr = 2 ^ t)
    (hgroups : welfordThreads = groups * 2 ^ t) (hgrid : 0 < grid)
    (hload : a.vec = true → ∀ r < a.rows, ∀ jj < a.units,
      Loadable (a.unitOffset r jj * welfordVec a.dt)) :
    Shards stands a.shard a.rows a.splits (o.rowsPartials warpBits grid a) := by
  have hpos : 0 < a.tpr := htpr ▸ Nat.two_pow_pos t
  have hdiv : welfordThreads / a.tpr = groups := by
    rw [hgroups, htpr, Nat.mul_div_cancel _ (Nat.two_pow_pos t)]
  have hsome : 0 < groups := by
    refine Nat.pos_of_ne_zero fun hzero => ?_
    rw [hzero, Nat.zero_mul] at hgroups
    exact absurd hgroups (by decide)
  refine ⟨fun p hp => ?_, ?_⟩
  · simp only [WelfordOps.rowsPartials, List.mem_flatMap, List.mem_filterMap] at hp
    obtain ⟨bx, -, split, -, r0, -, tid, -, hp⟩ := hp
    by_cases hlive : r0 + tid / a.tpr < a.rows ∧ tid % a.tpr = 0
    · rw [if_pos hlive] at hp
      obtain rfl := Option.some.inj hp
      have htid : tid = tid / a.tpr * 2 ^ t := by
        have := Nat.div_add_mod' tid a.tpr
        rw [← htpr]
        omega
      dsimp only
      rw [← a.sum_group _ _ hpos]
      conv => arg 1; rw [htid]
      rw [htpr]
      refine h.group fun l hl => ?_
      have hrow : (tid / a.tpr * 2 ^ t + l) / a.tpr = tid / a.tpr := by rw [htpr, row_div hl]
      have hlane : (tid / a.tpr * 2 ^ t + l) % a.tpr = l := by rw [htpr, Nat.mul_add_mod_of_lt hl]
      have hthread := h.rowsThread hlive.1 hpos (fun hvec => hload hvec _ hlive.1) split
        (tid / a.tpr * 2 ^ t + l)
      rw [hlane] at hthread
      rw [htpr] at hthread hrow
      rw [hrow]
      exact hthread
    · rw [if_neg hlive] at hp
      exact nomatch hp
  · unfold WelfordOps.rowsPartials
    dsimp only
    rw [hdiv, sum_map_flatMap, sum_map_range]
    simp only [sum_map_flatMap, sum_map_filterMap, sum_map_range]
    rw [Finset.sum_comm]
    conv_rhs => rw [Finset.sum_comm]
    refine Finset.sum_congr rfl fun split _ => ?_
    rw [← sum_rounds (fun r => ({(r, split)} : Multiset (Nat × Nat))) a.rows hgrid hsome hpos,
      htpr, ← hgroups]
    refine Finset.sum_congr rfl fun bx _ => congrArg List.sum (List.map_congr_left fun r0 _ => ?_)
    refine Finset.sum_congr rfl fun tid _ => ?_
    split <;> rfl

end

/-! ## Columns -/

section
variable {width : Nat} (h : Folds o width Loadable stands vecStands)
include h

theorem colsThread {a : ColsArgs} (hlanes : 0 < a.lanes) {blk tid : Nat}
    (hlive : a.column blk tid < a.inner) (split : Nat) : stands (o.colsThread a blk split tid)
      ((strided (a.stop split) a.lanes (a.stop split) (a.start split + tid / a.cw)).map fun r =>
        ({a.base blk tid + r * a.inner} : Multiset Nat)).sum := by
  unfold WelfordOps.colsThread
  dsimp only
  rw [if_pos hlive]
  obtain ⟨B, hB, hsum⟩ := colsBodies_stands a.ilp_pos hlanes
    (fun r _ _ hs => h.update (a.base blk tid + r * a.inner) hs) (a.stop split)
    fun _ _ => h.zero
  rw [Finset.sum_const_zero, zero_add] at hsum
  rw [← hsum]
  refine foldl_stands (fun r _ _ _ hs => h.update _ hs) ?_
  exact h.mergeInto a.ilp_pos (hB 0 a.ilp_pos) fun k _ hk => hB k hk

end

/-- The columns kernel, for tiles of any width that divides the block. -/
theorem colsPartials {a : ColsArgs} {width outer : Nat}
    (h : Folds o width Loadable stands vecStands) (hcw : 0 < a.cw)
    (hthreads : welfordThreads = a.lanes * a.cw) :
    Shards stands a.shard (outer * a.inner) a.splits (o.colsPartials (outer * a.tiles) a) := by
  have hlanes : 0 < a.lanes := by
    refine Nat.pos_of_ne_zero fun hzero => ?_
    rw [hzero, Nat.zero_mul] at hthreads
    exact absurd hthreads (by decide)
  refine ⟨fun p hp => ?_, ?_⟩
  · simp only [WelfordOps.colsPartials, List.mem_flatMap, List.mem_filterMap] at hp
    obtain ⟨blk, -, split, -, tid, -, hp⟩ := hp
    by_cases hlive : a.column blk tid < a.inner ∧ tid / a.cw = 0
    · rw [if_pos hlive] at hp
      obtain rfl := Option.some.inj hp
      have hcol : tid % a.cw < a.cw := Nat.mod_lt _ hcw
      have htid : tid = tid % a.cw := by
        have := Nat.div_add_mod' tid a.cw
        rw [hlive.2] at this
        omega
      -- a column's lanes share its base
      have hlane : ∀ l, stands (o.colsThread a blk split (l * a.cw + tid % a.cw))
          ((strided (a.stop split) a.lanes (a.stop split) (a.start split + l)).map fun r =>
            ({a.base blk tid + r * a.inner} : Multiset Nat)).sum := by
        intro l
        have hmod : (l * a.cw + tid % a.cw) % a.cw = tid % a.cw := Nat.mul_add_mod_of_lt hcol
        have hcolumn : a.column blk (l * a.cw + tid % a.cw) = a.column blk tid := by
          unfold ColsArgs.column
          rw [hmod]
        have hbase : a.base blk (l * a.cw + tid % a.cw) = a.base blk tid := by
          unfold ColsArgs.base
          rw [hcolumn]
        have hthread := h.colsThread hlanes (hcolumn ▸ hlive.1) split
        rwa [hbase, row_div hcol] at hthread
      have hrow : (a.outerOf blk * a.inner + a.column blk tid) / a.inner = a.outerOf blk :=
        row_div hlive.1
      have hinner : (a.outerOf blk * a.inner + a.column blk tid) % a.inner = a.column blk tid :=
        Nat.mul_add_mod_of_lt hlive.1
      dsimp only
      unfold ColsArgs.shard
      rw [hrow, hinner]
      change stands _ (∑ i ∈ Finset.range (a.stop split - a.start split),
        {a.base blk tid + (a.start split + i) * a.inner})
      rw [← sum_threads_from (fun r =>
        ({a.base blk tid + r * a.inner} : Multiset Nat)) hlanes (Nat.le_refl _)]
      have hfirst := hlane 0
      rw [Nat.zero_mul, Nat.zero_add, ← htid] at hfirst
      exact h.mergeInto hlanes hfirst fun l _ _ => hlane l
    · rw [if_neg hlive] at hp
      exact nomatch hp
  · unfold WelfordOps.colsPartials
    simp only [sum_map_flatMap, sum_map_filterMap, sum_map_range]
    rw [Finset.sum_comm]
    conv_rhs => rw [Finset.sum_comm]
    refine Finset.sum_congr rfl fun split _ => ?_
    rw [sum_runs, sum_runs]
    refine Finset.sum_congr rfl fun o _ => ?_
    have hcover : a.inner ≤ a.tiles * a.cw := ceildiv_mul_ge hcw
    rw [← sum_tiles (fun i => ({(o * a.inner + i, split)} : Multiset (Nat × Nat))) hlanes hcover,
      ← hthreads]
    refine Finset.sum_congr rfl fun tile htile => Finset.sum_congr rfl fun tid _ => ?_
    have hlt := Finset.mem_range.mp htile
    unfold ColsArgs.column ColsArgs.outerOf
    rw [row_div hlt, Nat.mul_add_mod_of_lt hlt]
    split <;> rfl

/-! ## Partials -/

section
variable {width : Nat} (h : Folds o width Loadable stands vecStands)
include h

theorem mergeThread {shard : Nat → Nat → Multiset Nat} {rows splits tpr r : Nat} {ws : Nat → S}
    (hws : ∀ k < splits, stands (ws (partialAddr splits r k)) (shard r k)) (hr : r < rows)
    (htpr : 0 < tpr) (tid : Nat) : stands (o.mergeThread rows splits tpr ws r tid)
      ((strided splits tpr splits (tid % tpr)).map (shard r)).sum := by
  unfold WelfordOps.mergeThread mergeReads
  rw [if_pos hr, List.foldl_map, ← zero_add (List.sum _)]
  refine foldl_stands (fun k hk _ _ hs => h.combine hs (hws k ?_)) h.zero
  exact ((mem_strided htpr (Nat.le_add_left _ _)).mp hk).2.1

/-- The merge kernel, for groups of any power of two. -/
theorem mergeResults {shard : Nat → Nat → Multiset Nat} {warpBits grid rows splits t groups : Nat}
    {ws : Nat → S} (hgroups : welfordThreads = groups * 2 ^ t) (hgrid : 0 < grid)
    (hws : ∀ r < rows, ∀ k < splits, stands (ws (partialAddr splits r k)) (shard r k)) :
    (∀ p ∈ o.mergeResults warpBits grid rows splits (2 ^ t) ws,
      stands p.2 (∑ k ∈ Finset.range splits, shard p.1 k)) ∧
      ((o.mergeResults warpBits grid rows splits (2 ^ t) ws).map fun p =>
        ({p.1} : Multiset Nat)).sum = ∑ r ∈ Finset.range rows, {r} := by
  have hpos := Nat.two_pow_pos t
  have hdiv : welfordThreads / 2 ^ t = groups := by rw [hgroups, Nat.mul_div_cancel _ hpos]
  have hsome : 0 < groups := by
    refine Nat.pos_of_ne_zero fun hzero => ?_
    rw [hzero, Nat.zero_mul] at hgroups
    exact absurd hgroups (by decide)
  refine ⟨fun p hp => ?_, ?_⟩
  · simp only [WelfordOps.mergeResults, List.mem_flatMap, List.mem_filterMap] at hp
    obtain ⟨bx, -, r0, -, tid, -, hp⟩ := hp
    by_cases hlive : r0 + tid / 2 ^ t < rows ∧ tid % 2 ^ t = 0
    · rw [if_pos hlive] at hp
      obtain rfl := Option.some.inj hp
      have htid : tid = tid / 2 ^ t * 2 ^ t := by
        have := Nat.div_add_mod' tid (2 ^ t)
        omega
      have hthread : ∀ l < 2 ^ t, stands (o.mergeThread rows splits (2 ^ t) ws
          (r0 + (tid / 2 ^ t * 2 ^ t + l) / 2 ^ t) (tid / 2 ^ t * 2 ^ t + l))
          ((strided splits (2 ^ t) splits l).map (shard (r0 + tid / 2 ^ t))).sum := by
        intro l hl
        have hstate := h.mergeThread (hws _ hlive.1) hlive.1 hpos (tid / 2 ^ t * 2 ^ t + l)
        rw [Nat.mul_add_mod_of_lt hl] at hstate
        rwa [row_div hl]
      dsimp only
      rw [← sum_threads _ splits hpos]
      by_cases hmany : 1 < 2 ^ t
      · rw [if_pos hmany]
        conv => arg 1; rw [htid]
        exact h.group hthread
      · -- one thread to an output
        have hone : 2 ^ t = 1 := by omega
        have hfirst := hthread 0 hpos
        rw [Nat.add_zero, ← htid] at hfirst
        rw [if_neg hmany]
        rw [hone] at hfirst ⊢
        rw [Finset.sum_range_one]
        exact hfirst
    · rw [if_neg hlive] at hp
      exact nomatch hp
  · unfold WelfordOps.mergeResults
    dsimp only
    rw [hdiv, sum_map_flatMap, sum_map_range]
    simp only [sum_map_flatMap, sum_map_filterMap, sum_map_range]
    rw [← sum_rounds (fun r => ({r} : Multiset Nat)) rows hgrid hsome hpos, ← hgroups]
    refine Finset.sum_congr rfl fun bx _ => congrArg List.sum (List.map_congr_left fun r0 _ => ?_)
    refine Finset.sum_congr rfl fun tid _ => ?_
    split <;> rfl

end

end Folds

end

end TorchMojoBackend.Kernels.Welford
