/-
  `Kernels.ArgReduceFirst`: every route returns the first extremum.

  A candidate is ranked by its scalar, NaN before the numbers and the extremum before
  the rest, and then by its index; no candidate ranks last.  On rising indices the
  scan's rule compares ranks, and the merges' rule does without the order.  So whatever
  meets in lanes, trees, chunks and workspaces, the least rank of the line is left.
-/
import Mathlib.Data.Prod.Lex
import Mathlib.Order.WithBot
import TorchMojoBackend.Kernels.ArgReduce

set_option autoImplicit false

namespace TorchMojoBackend.Kernels.ArgReduce

open TorchMojoBackend.Foundation

universe u v

variable {α : Type u} {V : Type v}

/-! ## Ranks -/

/-- The values, the extremum first. -/
def Toward (isMin : Bool) (V : Type v) : Type v :=
  match isMin with
  | true => V
  | false => Vᵒᵈ

section
variable [LinearOrder V]

instance (isMin : Bool) : LinearOrder (Toward isMin V) :=
  match isMin with
  | true => inferInstanceAs (LinearOrder V)
  | false => inferInstanceAs (LinearOrder Vᵒᵈ)

def toward (isMin : Bool) (x : V) : Toward isMin V :=
  match isMin with
  | true => x
  | false => OrderDual.toDual x

theorem toward_lt {isMin : Bool} {x y : V} :
    toward isMin x < toward isMin y ↔ if isMin then x < y else y < x := by
  cases isMin <;> exact Iff.rfl

omit [LinearOrder V] in
theorem toward_inj {isMin : Bool} {x y : V} : toward isMin x = toward isMin y ↔ x = y := by
  cases isMin <;> exact Iff.rfl

variable [Scalar α V]

/-- A scalar, NaN first. -/
def scalarRank (isMin : Bool) (a : α) : WithBot (Toward isMin V) :=
  match Scalar.value a with
  | none => ⊥
  | some x => (toward isMin x : Toward isMin V)

/-- A scalar and its index. -/
def rank (isMin : Bool) (a : α) (i : Nat) : WithBot (Toward isMin V) ×ₗ Nat :=
  toLex (scalarRank isMin a, i)

theorem rank_lt_iff {isMin : Bool} {a b : α} {i j : Nat} : rank isMin a i < rank isMin b j ↔
    scalarRank isMin a < scalarRank isMin b ∨
      scalarRank isMin a = scalarRank isMin b ∧ i < j := Prod.Lex.toLex_lt_toLex

/-- A candidate; none is last. -/
def key (isMin : Bool) (c : Best α) : WithTop (WithBot (Toward isMin V) ×ₗ Nat) :=
  if c.idx < 0 then ⊤ else (rank isMin c.val c.idx.toNat : WithTop _)

omit [LinearOrder V] in
theorem key_natCast (isMin : Bool) (a : α) (i : Nat) :
    key isMin ⟨a, i⟩ = (rank isMin a i : WithTop _) := by
  unfold key
  rw [if_neg (Int.not_lt.mpr (Int.natCast_nonneg i)), Int.toNat_natCast]

/-! ## Comparisons -/

theorem scalarRank_lt_iff {isMin : Bool} {a b : α} : scalarRank isMin a < scalarRank isMin b ↔
    (Scalar.isNaN b = false ∧ (Scalar.isNaN a = true ∨
      (if isMin then Scalar.lt a b else Scalar.gt a b) = true)) := by
  unfold scalarRank Scalar.isNaN Scalar.gt Scalar.lt
  cases ha : Scalar.value a <;> cases hb : Scalar.value b <;> simp [toward_lt]

theorem scalarRank_eq_iff {isMin : Bool} {a b : α} : scalarRank isMin a = scalarRank isMin b ↔
    (Scalar.isNaN a = true ∧ Scalar.isNaN b = true ∨ Scalar.eq a b = true) := by
  unfold scalarRank Scalar.isNaN Scalar.eq
  cases ha : Scalar.value a <;> cases hb : Scalar.value b <;> simp [toward_inj]

/-- On rising indices the scan's rule compares ranks. -/
theorem arTakeNext_iff {isMin : Bool} {v best : α} {i j : Nat} (hij : i < j) :
    arTakeNext isMin v best = true ↔ rank isMin v j < rank isMin best i := by
  rw [rank_lt_iff, scalarRank_lt_iff, or_iff_left (fun h => by omega)]
  unfold arTakeNext
  cases hb : Scalar.isNaN best <;> cases hv : Scalar.isNaN v <;> cases isMin <;> simp

/-- The merges' rule compares ranks. -/
theorem arBetter_iff {isMin : Bool} (cand cur : Best α) :
    arBetter isMin cand cur = true ↔ key isMin cand < key isMin cur := by
  unfold arBetter key
  by_cases hcand : cand.idx < 0
  · simp [hcand]
  · by_cases hcur : cur.idx < 0
    · simp [hcand, hcur]
    · have hidx : cand.idx < cur.idx ↔ cand.idx.toNat < cur.idx.toNat := by omega
      rw [if_neg hcand, if_neg hcur, if_neg hcand, if_neg hcur, WithTop.coe_lt_coe, rank_lt_iff,
        scalarRank_lt_iff, scalarRank_eq_iff, ← hidx]
      unfold Scalar.isNaN Scalar.gt Scalar.lt Scalar.eq
      cases ha : Scalar.value cand.val <;> cases hb : Scalar.value cur.val <;> cases isMin <;>
        simp

/-! ## Scans -/

/-- The rank of an element of a line. -/
def lineRank (isMin : Bool) (line : Nat → α) (i : Nat) :
    WithTop (WithBot (Toward isMin V) ×ₗ Nat) := (rank isMin (line i) i : WithTop _)

/-- A candidate holds an element of the line. -/
def Holds (line : Nat → α) (c : Best α) : Prop :=
  c.idx < 0 ∨ ∃ i : Nat, c.idx = i ∧ c.val = line i

variable {isMin : Bool} {data : Nat → α} {base : Nat}

theorem scanNext_spec {best : Best α} {j : Nat} (hrise : best.idx < j)
    (hbest : Holds (fun off => data (base + off)) best) :
    key isMin (scanNext isMin data base best j) =
        key isMin best ⊓ lineRank isMin (fun off => data (base + off)) j ∧
      Holds (fun off => data (base + off)) (scanNext isMin data base best j) ∧
      (scanNext isMin data base best j).idx ≤ j := by
  have hnew : key isMin (⟨data (base + j), j⟩ : Best α) =
      lineRank isMin (fun off => data (base + off)) j := key_natCast isMin _ j
  unfold scanNext
  by_cases hneg : best.idx < 0
  · rw [if_pos (.inl hneg), hnew]
    refine ⟨?_, .inr ⟨j, rfl, rfl⟩, le_refl _⟩
    unfold key
    rw [if_pos hneg, top_inf_eq]
  · obtain ⟨i, hi⟩ := Int.eq_ofNat_of_zero_le (Int.not_lt.mp hneg)
    have hij : i < j := by omega
    have hkey : key isMin best = (rank isMin best.val i : WithTop _) := by
      unfold key
      rw [if_neg hneg, hi]
      rfl
    have htake := @arTakeNext_iff α V _ _ isMin (data (base + j)) best.val i j hij
    by_cases ht : arTakeNext isMin (data (base + j)) best.val = true
    · rw [if_pos (.inr ht), hnew, hkey]
      exact ⟨(inf_eq_right.mpr (WithTop.coe_le_coe.mpr (le_of_lt (htake.mp ht)))).symm,
        .inr ⟨j, rfl, rfl⟩, le_refl _⟩
    · rw [if_neg (fun h => h.elim hneg ht), hkey]
      refine ⟨(inf_eq_left.mpr (WithTop.coe_le_coe.mpr ?_)).symm, hbest, le_of_lt hrise⟩
      exact not_lt.mp fun hlt => ht (htake.mpr hlt)

/-- A scan of rising offsets. -/
theorem foldl_scanNext {offs : List Nat} (hoffs : offs.Pairwise (· < ·)) {best : Best α}
    (hrise : ∀ j ∈ offs, best.idx < j) (hbest : Holds (fun off => data (base + off)) best) :
    key isMin (offs.foldl (scanNext isMin data base) best) =
        key isMin best ⊓ offs.toFinset.inf (lineRank isMin fun off => data (base + off)) ∧
      Holds (fun off => data (base + off)) (offs.foldl (scanNext isMin data base) best) := by
  induction offs generalizing best with
  | nil => exact ⟨by simp, hbest⟩
  | cons j offs ih =>
      obtain ⟨hlow, hrest⟩ := List.pairwise_cons.mp hoffs
      obtain ⟨hkey, hholds, hle⟩ :=
        @scanNext_spec α V _ _ isMin data base best j (hrise j List.mem_cons_self) hbest
      obtain ⟨hfold, hend⟩ := ih hrest
        (fun k hk => lt_of_le_of_lt hle (Int.ofNat_lt.mpr (hlow k hk))) hholds
      rw [List.foldl_cons]
      refine ⟨?_, hend⟩
      rw [hfold, hkey, List.toFinset_cons, Finset.inf_insert, inf_assoc]

/-- A walk is a scan of its column from an element on. -/
theorem foldl_walkNext {inner : Nat} (offs : List Nat) {best : Best α} (hbest : 0 ≤ best.idx) :
    offs.foldl (walkNext isMin data base inner) best =
      offs.foldl (scanNext isMin (fun r => data (base + r * inner)) 0) best := by
  induction offs generalizing best with
  | nil => rfl
  | cons j offs ih =>
      have hstep : scanNext isMin (fun r => data (base + r * inner)) 0 best j =
          walkNext isMin data base inner best j := by
        unfold scanNext walkNext
        simp only [Nat.zero_add, not_lt.mpr hbest, false_or]
      have hnonneg : 0 ≤ (walkNext isMin data base inner best j).idx := by
        unfold walkNext
        split
        · exact Int.natCast_nonneg _
        · exact hbest
      rw [List.foldl_cons, List.foldl_cons, hstep, ih hnonneg]

theorem walkCol_spec {inner start stop : Nat} (h : start < stop) :
    key isMin (walkCol isMin data base inner start stop) =
        (Finset.Ico start stop).inf (lineRank isMin fun r => data (base + r * inner)) ∧
      Holds (fun r => data (base + r * inner)) (walkCol isMin data base inner start stop) := by
  have hoffs : (List.range' (start + 1) (stop - (start + 1))).Pairwise (· < ·) :=
    List.pairwise_lt_range'
  have hspec := @foldl_scanNext α V _ _ isMin (fun r => data (base + r * inner)) 0
    (List.range' (start + 1) (stop - (start + 1))) hoffs ⟨data (base + start * inner), start⟩
    (fun j hj => by
      rw [List.mem_range'_1] at hj
      exact Int.ofNat_lt.mpr (by omega))
    (.inr ⟨start, rfl, by simp only [Nat.zero_add]⟩)
  simp only [Nat.zero_add] at hspec
  unfold walkCol
  rw [foldl_walkNext _ (Int.natCast_nonneg start)]
  refine ⟨?_, hspec.2⟩
  rw [hspec.1, key_natCast]
  change lineRank isMin (fun r => data (base + r * inner)) start ⊓ _ = _
  rw [← Finset.inf_insert]
  refine Finset.inf_congr (Finset.ext fun x => ?_) fun _ _ => rfl
  rw [Finset.mem_insert, List.mem_toFinset, List.mem_range'_1, Finset.mem_Ico]
  omega

end

/-! ## Lanes -/

/-- The offsets that a lane scans. -/
def scanOffsets (vec base start stop tid : Nat) : List Nat :=
  (scanLoads vec base start stop tid).flatMap Load.offsets

theorem mem_scanOffsets {vec base start stop tid x : Nat} : x ∈ scanOffsets vec base start stop tid ↔
    (∃ k, (tid ≤ k ∧ k < (stop - start) / vec ∧ k % AR_THREADS = tid % AR_THREADS) ∧
        start + k * vec ≤ x ∧ x < start + k * vec + vec) ∨
      (start + (stop - start) / vec * vec + tid ≤ x ∧ x < stop ∧
        x % AR_THREADS = (start + (stop - start) / vec * vec + tid) % AR_THREADS) := by
  have hthreads : 0 < AR_THREADS := by decide
  unfold scanOffsets scanLoads
  rw [List.flatMap_append, List.mem_append, List.flatMap_map, List.flatMap_map]
  simp only [List.mem_flatMap, Load.offsets, List.mem_map, List.mem_range,
    mem_strided hthreads (Nat.le_add_left _ _)]
  refine or_congr (exists_congr fun k => and_congr_right fun _ => ?_) ?_
  · constructor
    · rintro ⟨lane, hlane, rfl⟩
      omega
    · rintro ⟨hle, hlt⟩
      exact ⟨x - (start + k * vec), by omega, by omega⟩
  · constructor
    · rintro ⟨j, hj, lane, hlane, rfl⟩
      rw [Nat.lt_one_iff.mp hlane, Nat.add_zero]
      exact hj
    · intro hx
      exact ⟨x, hx, 0, Nat.one_pos, Nat.add_zero x⟩

/-- A lane's offsets rise: its accesses do, and the leftover elements come after them. -/
theorem scanOffsets_pairwise (vec base start stop tid : Nat) :
    (scanOffsets vec base start stop tid).Pairwise (· < ·) := by
  have hthreads : 0 < AR_THREADS := by decide
  unfold scanOffsets scanLoads
  rw [List.flatMap_append, List.flatMap_map, List.flatMap_map, List.pairwise_append]
  refine ⟨?_, ?_, ?_⟩
  · refine List.pairwise_flatMap.mpr ⟨fun k _ => ?_, ?_⟩
    · exact List.Pairwise.map _ (fun a b h => Nat.add_lt_add_left h _) List.pairwise_lt_range
    · refine (strided_pairwise hthreads).imp fun {k k'} hlt x hx y hy => ?_
      obtain ⟨lane, hlane, rfl⟩ := List.mem_map.mp hx
      obtain ⟨lane', -, rfl⟩ := List.mem_map.mp hy
      have hmul := Nat.mul_le_mul_right vec (Nat.succ_le_of_lt hlt)
      rw [Nat.succ_mul] at hmul
      rw [List.mem_range] at hlane
      dsimp only at hlane ⊢
      omega
  · refine List.pairwise_flatMap.mpr ⟨fun k _ => ?_, ?_⟩
    · exact List.pairwise_singleton _ _
    · refine (strided_pairwise hthreads).imp fun {k k'} hlt x hx y hy => ?_
      obtain ⟨lane, hlane, rfl⟩ := List.mem_map.mp hx
      obtain ⟨lane', -, rfl⟩ := List.mem_map.mp hy
      rw [List.mem_range] at hlane
      dsimp only at hlane ⊢
      omega
  · intro x hx y hy
    obtain ⟨k, hk, hx⟩ := List.mem_flatMap.mp hx
    obtain ⟨lane, hlane, rfl⟩ := List.mem_map.mp hx
    obtain ⟨j, hj, hy⟩ := List.mem_flatMap.mp hy
    obtain ⟨lane', -, rfl⟩ := List.mem_map.mp hy
    have hk := ((mem_strided hthreads (Nat.le_add_left _ _)).mp hk).2.1
    have hj := ((mem_strided hthreads (Nat.le_add_left _ _)).mp hj).1
    have hmul := Nat.mul_le_mul_right vec (Nat.succ_le_of_lt hk)
    rw [Nat.succ_mul] at hmul
    rw [List.mem_range] at hlane
    dsimp only at hlane ⊢
    omega

/-- The lanes of a block scan its chunk. -/
theorem biUnion_scanOffsets {vec : Nat} (hvec : 0 < vec) (base : Nat) {start stop : Nat}
    (hle : start ≤ stop) :
    ((Finset.range AR_THREADS).biUnion fun tid => (scanOffsets vec base start stop tid).toFinset) =
      Finset.Ico start stop := by
  have hthreads : 0 < AR_THREADS := by decide
  have hslots : (stop - start) / vec * vec ≤ stop - start := Nat.div_mul_le_self _ _
  ext x
  simp only [Finset.mem_biUnion, Finset.mem_range, List.mem_toFinset, mem_scanOffsets,
    Finset.mem_Ico]
  constructor
  · rintro ⟨tid, -, ⟨k, ⟨-, hk, -⟩, hlow, hhigh⟩ | ⟨hlow, hhigh, -⟩⟩
    · have hmul := Nat.mul_le_mul_right vec (Nat.succ_le_of_lt hk)
      rw [Nat.succ_mul] at hmul
      omega
    · omega
  · rintro ⟨hlow, hhigh⟩
    by_cases hslot : x < start + (stop - start) / vec * vec
    · have hdiv := Nat.div_add_mod' (x - start) vec
      have hmod := Nat.mod_lt (x - start) hvec
      refine ⟨(x - start) / vec % AR_THREADS, Nat.mod_lt _ hthreads,
        .inl ⟨(x - start) / vec, ⟨Nat.mod_le _ _, ?_, (Nat.mod_mod _ _).symm⟩, ?_⟩⟩
      · exact Nat.div_lt_of_lt_mul (by rw [Nat.mul_comm]; omega)
      · omega
    · obtain ⟨d, rfl⟩ := Nat.exists_eq_add_of_le (Nat.not_lt.mp hslot)
      refine ⟨d % AR_THREADS, Nat.mod_lt _ hthreads, .inr ⟨?_, hhigh, ?_⟩⟩
      · have := Nat.mod_le d AR_THREADS
        omega
      · rw [Nat.add_mod_mod]

/-! ## Winners -/

section
variable [LinearOrder V] [Scalar α V]

/-- A candidate that has the least rank of some indices of a line, or is none. -/
structure Wins (isMin : Bool) (line : Nat → α) (s : Finset Nat) (c : Best α) : Prop where
  key : key isMin c = s.inf (lineRank isMin line)
  holds : Holds line c

variable {isMin : Bool} {line : Nat → α} {data : Nat → α}

theorem Wins.none {zero : α} : Wins isMin line ∅ ⟨zero, -1⟩ :=
  ⟨by unfold ArgReduce.key; simp, .inl (show (-1 : Int) < 0 by decide)⟩

/-- A block whose lanes have the winners of some indices has the winner of all. -/
theorem Wins.blockMerge {lanes : Nat → Best α} {s : Nat → Finset Nat}
    (h : ∀ tid, Wins isMin line (s tid) (lanes tid)) :
    Wins isMin line ((Finset.range AR_THREADS).biUnion s) (arBlockMerge isMin lanes) := by
  refine ⟨?_, tree_of _ _ (fun tid => (h tid).holds) 0⟩
  rw [Finset.inf_biUnion]
  refine (key_tree arBetter_iff 8 lanes).trans ?_
  exact Finset.inf_congr rfl fun tid _ => (h tid).key

/-- A merge of partial winners. -/
theorem Wins.foldl {ws : Nat → Best α} {s : Nat → Finset Nat} {l : List Nat}
    (h : ∀ i ∈ l, Wins isMin line (s i) (ws i)) {zero : α} :
    Wins isMin line (l.toFinset.biUnion s)
      (l.foldl (fun best i => keep (arBetter isMin) best (ws i)) ⟨zero, -1⟩) := by
  have hnone : Wins isMin line ∅ ⟨zero, -1⟩ := Wins.none
  refine ⟨?_, foldl_keep_of hnone.holds fun i hi => (h i hi).holds⟩
  refine (key_foldl_keep arBetter_iff l ws _).trans ?_
  rw [hnone.key, Finset.inf_empty, top_inf_eq, Finset.inf_biUnion]
  exact Finset.inf_congr rfl fun i hi => (h i (List.mem_toFinset.mp hi)).key

section
variable [Zero α]

theorem arScanRow_wins (vec base start stop tid : Nat) :
    Wins isMin (fun off => data (base + off)) (scanOffsets vec base start stop tid).toFinset
      (arScanRow isMin vec data base start stop tid) := by
  have hnone : Wins isMin (fun off => data (base + off)) ∅ ⟨0, -1⟩ := Wins.none
  have hrise : ∀ j ∈ scanOffsets vec base start stop tid, (-1 : Int) < j := fun j _ =>
    Int.lt_of_lt_of_le (by decide) (Int.natCast_nonneg j)
  obtain ⟨hkey, hholds⟩ :=
    foldl_scanNext (scanOffsets_pairwise vec base start stop tid) hrise hnone.holds
  refine ⟨hkey.trans ?_, hholds⟩
  rw [hnone.key, Finset.inf_empty, top_inf_eq]

/-- A block that scans a chunk of a row. -/
theorem scanBlock_wins {vec : Nat} (hvec : 0 < vec) (base : Nat) {start stop : Nat}
    (hle : start ≤ stop) : Wins isMin (fun off => data (base + off)) (Finset.Ico start stop)
      (arBlockMerge isMin fun tid => arScanRow isMin vec data base start stop tid) := by
  rw [← biUnion_scanOffsets hvec base hle]
  exact Wins.blockMerge fun tid => arScanRow_wins vec base start stop tid

/-- A thread that walks a chunk of a column. -/
theorem colsSplitThread_wins (reduce inner chunk o i s : Nat) :
    Wins isMin (fun r => data (o * reduce * inner + i + r * inner))
      (Finset.Ico (chunkStart reduce chunk s) (chunkStop reduce chunk s))
      (colsSplitThread isMin data reduce inner chunk o i s) := by
  unfold colsSplitThread
  split
  · rename_i hlt
    exact ⟨(walkCol_spec hlt).1, (walkCol_spec hlt).2⟩
  · rename_i hnot
    rw [Finset.Ico_eq_empty hnot]
    exact Wins.none

/-- The block of an output merges the winners of its splits. -/
theorem mergeBlock_wins {ws : Nat → Best α} {splits p : Nat} {s : Nat → Finset Nat}
    (h : ∀ i, i < splits → Wins isMin line (s i) (ws (p * splits + i))) :
    Wins isMin line ((Finset.range splits).biUnion s) (mergeBlock isMin ws splits p) := by
  have hthreads : 0 < AR_THREADS := by decide
  have hlane : ∀ tid, Wins isMin line
      ((strided splits AR_THREADS splits tid).toFinset.biUnion s)
      (mergeLane isMin ws splits p tid) := fun tid =>
    Wins.foldl fun i hi => h i ((mem_strided hthreads (Nat.le_add_left _ _)).mp hi).2.1
  have hcover : ((Finset.range AR_THREADS).biUnion fun tid =>
      (strided splits AR_THREADS splits tid).toFinset.biUnion s) =
      (Finset.range splits).biUnion s := by
    rw [← Finset.biUnion_biUnion]
    refine congrArg (Finset.biUnion · s) (Finset.ext fun i => ?_)
    simp only [Finset.mem_biUnion, Finset.mem_range, List.mem_toFinset]
    rw [← mem_gridItems hthreads]
    simp only [gridItems, List.mem_flatMap, List.mem_range]
  rw [← hcover]
  exact Wins.blockMerge hlane

end

/-! ## The first extremum -/

/-- `w` is the index of the first NaN of a line, and where there is none the first index of the
extremum. -/
def FirstExtremum (isMin : Bool) (line : Nat → α) (n w : Nat) : Prop :=
  w < n ∧
    ((Scalar.isNaN (line w) = true ∧ ∀ j, j < w → Scalar.isNaN (line j) = false) ∨
      (∀ j, j < n → Scalar.isNaN (line j) = false) ∧
        (∀ j, j < n → (if isMin then Scalar.lt (line j) (line w)
          else Scalar.gt (line j) (line w)) = false) ∧
        ∀ j, j < w → Scalar.eq (line j) (line w) = false)

/-- The winner of a line is its first extremum. -/
theorem Wins.first {n : Nat} {c : Best α} (h : Wins isMin line (Finset.range n) c) (hn : 0 < n) :
    ∃ w : Nat, c.idx = w ∧ c.val = line w ∧ FirstExtremum isMin line n w := by
  obtain ⟨j, hj, heq⟩ := Finset.exists_mem_eq_inf (Finset.range n)
    ⟨0, Finset.mem_range.mpr hn⟩ (lineRank isMin line)
  have hkey := h.key.trans heq
  have hidx : ¬ c.idx < 0 := fun hneg => by
    unfold ArgReduce.key at hkey
    rw [if_pos hneg] at hkey
    exact WithTop.top_ne_coe hkey
  obtain hneg | ⟨w, hw, hval⟩ := h.holds
  · exact absurd hneg hidx
  have hc : c = ⟨line w, w⟩ := by
    rw [← hw, ← hval]
  rw [hc, key_natCast] at hkey
  have hrank : rank isMin (line w) w = rank isMin (line j) j := WithTop.coe_inj.mp hkey
  have hwj : w = j := (Prod.mk.inj (toLex.injective hrank)).2
  subst hwj
  have hleast : ∀ k, k < n → ¬ rank isMin (line k) k < rank isMin (line w) w := fun k hk hlt => by
    have hle : (Finset.range n).inf (lineRank isMin line) ≤ lineRank isMin line k :=
      Finset.inf_le (Finset.mem_range.mpr hk)
    rw [heq] at hle
    exact absurd (WithTop.coe_le_coe.mp hle) (not_le.mpr hlt)
  refine ⟨w, hw, hval, Finset.mem_range.mp hj, ?_⟩
  simp only [rank_lt_iff, scalarRank_lt_iff, scalarRank_eq_iff] at hleast
  have hwn := Finset.mem_range.mp hj
  cases hnan : Scalar.isNaN (line w) with
  | true =>
      refine .inl ⟨rfl, fun k hk => ?_⟩
      have hk' := hleast k (Nat.lt_trans hk hwn)
      by_contra hne
      exact hk' (.inr ⟨.inl ⟨Bool.not_eq_false _ ▸ hne, hnan⟩, hk⟩)
  | false =>
      refine .inr ⟨fun k hk => ?_, fun k hk => ?_, fun k hk => ?_⟩
      · by_contra hne
        exact hleast k hk (.inl ⟨hnan, .inl (Bool.not_eq_false _ ▸ hne)⟩)
      · by_contra hne
        exact hleast k hk (.inl ⟨hnan, .inr (Bool.not_eq_false _ ▸ hne)⟩)
      · by_contra hne
        exact hleast k (Nat.lt_trans hk hwn) (.inr ⟨.inr (Bool.not_eq_false _ ▸ hne), hk⟩)

end

end TorchMojoBackend.Kernels.ArgReduce
