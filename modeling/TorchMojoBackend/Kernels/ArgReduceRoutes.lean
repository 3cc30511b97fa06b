/-
  `Kernels.ArgReduceRoutes`: the routes of a reduction with an index.

  Chunks cover the reduce axis without gap or overlap, each output has one block or
  thread and each partial winner one place in the workspace.  Accesses of one width are
  aligned because rows, chunks and slots start at multiples of it.  So all four routes
  leave the first extremum of each line.
-/
import Mathlib.Tactic.IntervalCases
import Mathlib.Tactic.Ring
import TorchMojoBackend.Kernels.ArgReduceFirst

set_option autoImplicit false

namespace TorchMojoBackend.Kernels.ArgReduce

open TorchMojoBackend.Foundation

universe u v

/-! ## Chunks -/

theorem chunk_mem_iff {n chunk s r : Nat} :
    chunkStart n chunk s ≤ r ∧ r < chunkStop n chunk s ↔
      s * chunk ≤ r ∧ r < (s + 1) * chunk ∧ r < n := by
  unfold chunkStop chunkStart
  rw [Nat.succ_mul]
  omega

theorem chunkStart_le_stop (n chunk s : Nat) : chunkStart n chunk s ≤ chunkStop n chunk s := by
  unfold chunkStop chunkStart
  omega

/-- Chunks cover an axis without gap or overlap. -/
theorem chunk_exists_unique {n chunk r : Nat} (hchunk : 0 < chunk) (hr : r < n) :
    ∃! s, s < pieces n chunk ∧ chunkStart n chunk s ≤ r ∧ r < chunkStop n chunk s := by
  refine ⟨r / chunk, ⟨?_, chunk_mem_iff.mpr ⟨Nat.div_mul_le_self _ _, ?_, hr⟩⟩, ?_⟩
  · exact (lt_pieces_iff hchunk).mpr (Nat.lt_of_le_of_lt (Nat.div_mul_le_self _ _) hr)
  · rw [Nat.mul_comm]
    exact Nat.lt_mul_div_succ r hchunk
  · rintro s ⟨-, hs⟩
    obtain ⟨hlow, hhigh, -⟩ := chunk_mem_iff.mp hs
    exact (Nat.div_eq_of_lt_le hlow hhigh).symm

theorem biUnion_chunks {n chunk : Nat} (hchunk : 0 < chunk) :
    ((Finset.range (pieces n chunk)).biUnion fun s =>
      Finset.Ico (chunkStart n chunk s) (chunkStop n chunk s)) = Finset.range n := by
  ext r
  simp only [Finset.mem_biUnion, Finset.mem_range, Finset.mem_Ico]
  constructor
  · rintro ⟨s, -, hs⟩
    exact (chunk_mem_iff.mp hs).2.2
  · intro hr
    obtain ⟨s, ⟨hs, hmem⟩, -⟩ := chunk_exists_unique hchunk hr
    exact ⟨s, hs, hmem⟩

/-! ## Grids -/

theorem mem_splitGrid {β : Type*} {l : List β} {splits : Nat} {b : β × Nat} :
    b ∈ splitGrid l splits ↔ b.1 ∈ l ∧ b.2 < splits := by
  unfold splitGrid
  simp only [List.mem_flatMap, List.mem_map, List.mem_range]
  constructor
  · rintro ⟨x, hx, s, hs, rfl⟩
    exact ⟨hx, hs⟩
  · rintro ⟨hx, hs⟩
    exact ⟨b.1, hx, b.2, hs, rfl⟩

theorem mem_colsGrid {outer inner : Nat} {t : Nat × Nat} :
    t ∈ colsGrid outer inner ↔ t.1 < outer ∧ t.2 < inner := by
  obtain ⟨o, i⟩ := t
  have hthreads : 0 < AR_THREADS := by decide
  unfold colsGrid
  simp only [List.mem_flatMap, List.mem_filterMap, List.mem_range]
  constructor
  · rintro ⟨block, hblock, thread, -, hsome⟩
    split at hsome
    · rename_i hin
      obtain ⟨rfl, rfl⟩ := Prod.mk.inj (Option.some.inj hsome)
      exact ⟨Nat.div_lt_of_lt_mul hblock, hin⟩
    · cases hsome
  · rintro ⟨ho, hi⟩
    have hlane : i / AR_THREADS < pieces inner AR_THREADS :=
      (lt_pieces_iff hthreads).mpr (Nat.lt_of_le_of_lt (Nat.div_mul_le_self _ _) hi)
    have hdiv : (pieces inner AR_THREADS * o + i / AR_THREADS) / pieces inner AR_THREADS = o := by
      rw [Nat.mul_add_div (Nat.zero_lt_of_lt hlane), Nat.div_eq_of_lt hlane, Nat.add_zero]
    have hmod : (pieces inner AR_THREADS * o + i / AR_THREADS) % pieces inner AR_THREADS =
        i / AR_THREADS := by
      rw [Nat.mul_add_mod, Nat.mod_eq_of_lt hlane]
    refine ⟨pieces inner AR_THREADS * o + i / AR_THREADS, ?_, i % AR_THREADS,
      Nat.mod_lt _ hthreads, ?_⟩
    · have hmul := Nat.mul_le_mul_left (pieces inner AR_THREADS) (Nat.succ_le_of_lt ho)
      rw [Nat.mul_succ] at hmul
      omega
    · rw [hdiv, hmod, Nat.div_add_mod', if_pos hi]

/-! ## Stores -/

section
variable {α : Type u} {ι : Type*} {items : List ι} {addr : ι → Nat} {best : ι → Best α}
  {m m' : Memory α}

theorem StoresOut.at {withValues : Bool}
    (h : StoresOut withValues (items.map fun i => (addr i, best i)) m m')
    (hinj : ∀ i ∈ items, ∀ j ∈ items, addr i = addr j → i = j) {i : ι} (hi : i ∈ items) :
    m'.out (addr i) = (best i).idx ∧ (withValues = true → m'.val (addr i) = (best i).val) := by
  obtain ⟨hout, hval⟩ := h
  rw [List.map_map] at hout
  refine ⟨hout.map_at hinj hi, fun hvalues => ?_⟩
  rw [if_pos hvalues, List.map_map] at hval
  exact hval.map_at hinj hi

theorem StoresWs.at (h : StoresWs (items.map fun i => (addr i, best i)) m m')
    (hinj : ∀ i ∈ items, ∀ j ∈ items, addr i = addr j → i = j) {i : ι} (hi : i ∈ items) :
    m'.candidate (addr i) = best i := by
  obtain ⟨hval, hidx, -, -⟩ := h
  rw [List.map_map] at hval hidx
  unfold Memory.candidate
  rw [hval.map_at hinj hi, hidx.map_at hinj hi]

end

/-! ## Plans -/

theorem size_cases (size : Size) : size.1 = 1 ∨ size.1 = 2 ∨ size.1 = 4 ∨ size.1 = 8 := by
  obtain ⟨n, hn⟩ := size
  have hle := Nat.le_of_dvd (by decide) hn
  dsimp only
  interval_cases n
  all_goals revert hn; decide

theorem widest_mul (size : Size) : widest size * size.1 = 16 := by
  unfold widest
  obtain h | h | h | h := size_cases size <;> rw [h] <;> rfl

/-- An access of a width that divides the widest one is aligned to its bytes. -/
theorem align_eq {size : Size} {vec : Nat} (h : vec ∣ widest size) :
    align size vec = vec * size.1 := by
  have hle : vec * size.1 ≤ widest size * size.1 := Nat.mul_le_mul_right _
    (Nat.le_of_dvd (Nat.lt_of_lt_of_le Nat.one_pos (le_max_left _ _)) h)
  rw [widest_mul] at hle
  exact Nat.min_eq_right hle

theorem launches_iff {size : Size} {inAddr rows cols vec : Nat} :
    launches size inAddr rows cols vec = true ↔ align size vec ∣ inAddr ∧
      (rows ≤ 1 ∨ align size vec ∣ cols * size.1) := by
  unfold launches
  simp only [Bool.and_eq_true, Bool.or_eq_true, decide_eq_true_eq, Nat.dvd_iff_mod_eq_zero]

/-- An operand at the address of an element has a width that launches. -/
theorem rowsVec_spec {size : Size} {inAddr : Nat} (haddr : size.1 ∣ inAddr) (rows cols : Nat) :
    ∃ vec, rowsVec size inAddr rows cols = some vec ∧ 0 < vec ∧ vec ∣ widest size ∧
      launches size inAddr rows cols vec = true := by
  have hone : launches size inAddr rows cols 1 = true := by
    rw [launches_iff, align_eq (Nat.one_dvd _), Nat.one_mul]
    exact ⟨haddr, .inr (Nat.dvd_mul_left _ _)⟩
  have hwide : ∀ vec ∈ [8, 4, 2], widest size ≥ vec → 0 < vec ∧ vec ∣ widest size := by
    unfold widest
    obtain h | h | h | h := size_cases size <;> rw [h] <;> decide
  cases hvec : rowsVec size inAddr rows cols with
  | none =>
      have hnone := List.find?_eq_none.mp hvec 1
        (List.mem_append.mpr (.inr (List.mem_singleton.mpr rfl)))
      exact absurd hone hnone
  | some vec =>
      refine ⟨vec, rfl, ?_⟩
      have hlaunch := List.find?_some hvec
      obtain hmem | hmem := List.mem_append.mp (List.mem_of_find?_eq_some hvec)
      · obtain ⟨hmem, hle⟩ := List.mem_filter.mp hmem
        obtain ⟨hpos, hdvd⟩ := hwide vec hmem (of_decide_eq_true hle)
        exact ⟨hpos, hdvd, hlaunch⟩
      · rw [List.mem_singleton.mp hmem] at hlaunch ⊢
        exact ⟨Nat.one_pos, Nat.one_dvd _, hlaunch⟩

/-- Chunks of rows start at multiples of the widest access. -/
theorem rowsPlan_split {size : Size} {sms rows cols : Nat} (hcols : 0 < cols)
    (hsplit : 1 < (rowsPlan size sms rows cols).2) :
    0 < (rowsPlan size sms rows cols).1 ∧ widest size ∣ (rowsPlan size sms rows cols).1 ∧
      (rowsPlan size sms rows cols).2 = pieces cols (rowsPlan size sms rows cols).1 := by
  have hwide : 0 < widest size := Nat.lt_of_lt_of_le Nat.one_pos (le_max_left _ _)
  unfold rowsPlan at hsplit ⊢
  dsimp only at hsplit ⊢
  split
  · rename_i hmany
    dsimp only
    have hinner : 0 < pieces cols (arSplits sms rows cols AR_MIN_CHUNK) :=
      (lt_pieces_iff (by omega)).mpr (by rw [Nat.zero_mul]; exact hcols)
    have hpieces : 0 < pieces (pieces cols (arSplits sms rows cols AR_MIN_CHUNK)) (widest size) :=
      (lt_pieces_iff hwide).mpr (by rw [Nat.zero_mul]; exact hinner)
    exact ⟨Nat.mul_pos hpieces hwide, Nat.dvd_mul_left _ _, rfl⟩
  · rename_i hone
    rw [if_neg hone] at hsplit
    exact absurd hsplit hone

theorem colsPlan_split {sms outer reduce inner chunk splits : Nat} (hreduce : 0 < reduce)
    (hplan : colsPlan sms outer reduce inner = some (chunk, splits)) :
    0 < chunk ∧ splits = pieces reduce chunk := by
  unfold colsPlan at hplan
  dsimp only at hplan
  split at hplan
  · cases hplan
  · rename_i hmany
    obtain ⟨rfl, rfl⟩ := Prod.mk.inj (Option.some.inj hplan)
    exact ⟨(lt_pieces_iff (by omega)).mpr (by rw [Nat.zero_mul]; exact hreduce), rfl⟩

/-! ## Routes -/

section
variable {α : Type u} {V : Type v} [LinearOrder V] [Scalar α V] [Zero α]
variable {isMin withValues : Bool} {size : Size} {sms inAddr : Nat} {data : Nat → α}
variable {m m' : Memory α}

/-- An output and its line. -/
def Answers (isMin withValues : Bool) (line : Nat → α) (n : Nat) (m' : Memory α) (p : Nat) : Prop :=
  ∃ w : Nat, m'.out p = w ∧ FirstExtremum isMin line n w ∧ (withValues = true → m'.val p = line w)

omit [Zero α] in
theorem answers_of_wins {line : Nat → α} {n p : Nat} {c : Best α}
    (hout : m'.out p = c.idx ∧ (withValues = true → m'.val p = c.val))
    (hc : Wins isMin line (Finset.range n) c) (hn : 0 < n) :
    Answers isMin withValues line n m' p := by
  obtain ⟨w, hidx, hval, hfirst⟩ := hc.first hn
  exact ⟨w, hout.1.trans hidx, hfirst, fun hvalues => (hout.2 hvalues).trans hval⟩

/-- The merge of the partial winners of an output. -/
theorem mergeLaunch_answers {line : Nat → α} {n chunk outputs p : Nat} (hchunk : 0 < chunk)
    (h : MergeLaunch isMin withValues outputs (pieces n chunk) m m') (hp : p < outputs)
    (hws : ∀ s, s < pieces n chunk → Wins isMin line
      (Finset.Ico (chunkStart n chunk s) (chunkStop n chunk s))
      (m.candidate (p * pieces n chunk + s))) (hn : 0 < n) :
    Answers isMin withValues line n m' p := by
  have hwins := mergeBlock_wins hws
  rw [biUnion_chunks hchunk] at hwins
  refine answers_of_wins (StoresOut.at h ?_ (List.mem_range.mpr hp)) hwins hn
  exact fun i _ j _ hij => hij

theorem argreduceRows_answers {rows cols : Nat} (haddr : size.1 ∣ inAddr) (hcols : 0 < cols)
    (h : ArgreduceRows isMin withValues size sms inAddr data rows cols m m') {r : Nat}
    (hr : r < rows) : Answers isMin withValues (fun c => data (r * cols + c)) cols m' r := by
  obtain ⟨vec, hvec, hpos, -, -⟩ := rowsVec_spec haddr rows cols
  unfold ArgreduceRows at h
  dsimp only at h
  rw [hvec] at h
  dsimp only at h
  split at h
  · have hwins := @scanBlock_wins α V _ _ isMin data _ vec hpos (r * cols) 0 cols (Nat.zero_le cols)
    rw [Nat.Ico_zero_eq_range] at hwins
    refine answers_of_wins (h.at ?_ (List.mem_range.mpr hr)) hwins hcols
    exact fun i _ j _ hij => hij
  · rename_i hsplit
    obtain ⟨mid, hws, hmerge⟩ := h
    obtain ⟨hchunk, -, hsplits⟩ := rowsPlan_split hcols (Nat.not_le.mp hsplit)
    have hinj : ∀ b ∈ splitGrid (List.range rows) (rowsPlan size sms rows cols).2,
        ∀ b' ∈ splitGrid (List.range rows) (rowsPlan size sms rows cols).2,
        b.1 * (rowsPlan size sms rows cols).2 + b.2 =
          b'.1 * (rowsPlan size sms rows cols).2 + b'.2 → b = b' := by
      intro b hb b' hb' heq
      obtain ⟨h1, h2⟩ := flat_inj (mem_splitGrid.mp hb).2 (mem_splitGrid.mp hb').2 heq
      exact Prod.ext h1 h2
    rw [hsplits] at hmerge
    refine mergeLaunch_answers hchunk hmerge hr (fun s hs => ?_) hcols
    rw [← hsplits] at hs
    have hat := hws.at hinj (mem_splitGrid.mpr ⟨List.mem_range.mpr hr, hs⟩ :
      (r, s) ∈ splitGrid (List.range rows) (rowsPlan size sms rows cols).2)
    rw [← hsplits, hat]
    exact scanBlock_wins hpos (r * cols) (chunkStart_le_stop _ _ _)

theorem argreduceCols_answers {outer reduce inner : Nat} (hreduce : 0 < reduce)
    (h : ArgreduceCols isMin withValues sms data outer reduce inner m m') {o i : Nat}
    (ho : o < outer) (hi : i < inner) : Answers isMin withValues
      (fun r => data (o * reduce * inner + i + r * inner)) reduce m' (o * inner + i) := by
  have hgrid : (o, i) ∈ colsGrid outer inner := mem_colsGrid.mpr ⟨ho, hi⟩
  unfold ArgreduceCols at h
  split at h
  · obtain ⟨hkey, hholds⟩ := @walkCol_spec α V _ _ isMin data
      (o * reduce * inner + i) inner 0 reduce hreduce
    rw [Nat.Ico_zero_eq_range] at hkey
    refine answers_of_wins (h.at ?_ hgrid) ⟨hkey, hholds⟩ hreduce
    intro t ht t' ht' heq
    obtain ⟨h1, h2⟩ := flat_inj (mem_colsGrid.mp ht).2 (mem_colsGrid.mp ht').2 heq
    exact Prod.ext h1 h2
  · rename_i chunk splits hplan
    obtain ⟨mid, hws, hmerge⟩ := h
    obtain ⟨hchunk, rfl⟩ := colsPlan_split hreduce hplan
    have hp : o * inner + i < outer * inner := by
      have hmul := Nat.mul_le_mul_right inner (Nat.succ_le_of_lt ho)
      rw [Nat.succ_mul] at hmul
      omega
    refine mergeLaunch_answers hchunk hmerge hp (fun s hs => ?_) hreduce
    have hat := hws.at ?_ (mem_splitGrid.mpr ⟨hgrid, hs⟩ :
      ((o, i), s) ∈ splitGrid (colsGrid outer inner) (pieces reduce chunk))
    · rw [hat]
      exact colsSplitThread_wins reduce inner chunk o i s
    · intro b hb b' hb' heq
      obtain ⟨hb, hs⟩ := mem_splitGrid.mp hb
      obtain ⟨hb', hs'⟩ := mem_splitGrid.mp hb'
      obtain ⟨h1, h2⟩ := flat_inj hs hs' heq
      obtain ⟨h3, h4⟩ := flat_inj (mem_colsGrid.mp hb).2 (mem_colsGrid.mp hb').2 h1
      exact Prod.ext (Prod.ext h3 h4) h2

end

/-! ## Loads -/

/-- A load at a multiple of its alignment and within the operand. -/
structure Load.Sound (size : Size) (inAddr numel : Nat) (l : Load) : Prop where
  aligned : align size l.width ∣ inAddr + (l.base + l.off) * size.1
  inBounds : l.base + l.off + l.width ≤ numel

theorem mem_scanLoads {vec base start stop tid : Nat} (hle : start ≤ stop) {l : Load}
    (hl : l ∈ scanLoads vec base start stop tid) : l.base = base ∧ l.off + l.width ≤ stop ∧
      (l.width = 1 ∨ l.width = vec ∧ ∃ k, l.off = start + k * vec) := by
  have hthreads : 0 < AR_THREADS := by decide
  obtain hl | hl := List.mem_append.mp hl
  · obtain ⟨k, hk, rfl⟩ := List.mem_map.mp hl
    have hlt := ((mem_strided hthreads (Nat.le_add_left _ _)).mp hk).2.1
    have hslots : (stop - start) / vec * vec ≤ stop - start := Nat.div_mul_le_self _ _
    have hmul := Nat.mul_le_mul_right vec (Nat.succ_le_of_lt hlt)
    rw [Nat.succ_mul] at hmul
    dsimp only
    exact ⟨rfl, by omega, .inr ⟨rfl, k, rfl⟩⟩
  · obtain ⟨j, hj, rfl⟩ := List.mem_map.mp hl
    exact ⟨rfl, ((mem_strided hthreads (Nat.le_add_left _ _)).mp hj).2.1, .inl rfl⟩

theorem mem_blockLoads {vec base start stop : Nat} {l : Load}
    (hl : l ∈ blockLoads vec base start stop) : ∃ tid, l ∈ scanLoads vec base start stop tid := by
  obtain ⟨tid, -, hl⟩ := List.mem_flatMap.mp hl
  exact ⟨tid, hl⟩

/-- The loads of a chunk of a row. -/
theorem scanLoads_sound {size : Size} {inAddr rows cols vec r start stop tid : Nat}
    (haddr : size.1 ∣ inAddr) (hvec : vec ∣ widest size)
    (hlaunch : launches size inAddr rows cols vec = true) (hr : r < rows) (hle : start ≤ stop)
    (hstop : stop ≤ cols) (hstart : vec ∣ start) {l : Load}
    (hl : l ∈ scanLoads vec (r * cols) start stop tid) : l.Sound size inAddr (rows * cols) := by
  obtain ⟨hbase, hend, hwidth⟩ := mem_scanLoads hle hl
  have hmul := Nat.mul_le_mul_right cols (Nat.succ_le_of_lt hr)
  rw [Nat.succ_mul] at hmul
  refine ⟨?_, by rw [hbase]; omega⟩
  obtain hone | ⟨hwide, k, hoff⟩ := hwidth
  · rw [hone, align_eq (Nat.one_dvd _), Nat.one_mul]
    exact Nat.dvd_add haddr (Nat.dvd_mul_left _ _)
  · obtain ⟨hdvd, hrows⟩ := launches_iff.mp hlaunch
    rw [align_eq hvec] at hdvd hrows
    have hrow : vec * size.1 ∣ r * cols * size.1 := by
      obtain hrows | hrows := hrows
      · have hr0 : r = 0 := by omega
        rw [hr0, Nat.zero_mul, Nat.zero_mul]
        exact Nat.dvd_zero _
      · rw [Nat.mul_assoc]
        exact Nat.dvd_mul_left_of_dvd hrows r
    have hcol : vec * size.1 ∣ (start + k * vec) * size.1 :=
      Nat.mul_dvd_mul_right (Nat.dvd_add hstart (Nat.dvd_mul_left _ _)) _
    rw [hwide, align_eq hvec, hbase, hoff, Nat.add_mul]
    exact Nat.dvd_add hdvd (Nat.dvd_add hrow hcol)

theorem rowsLoads_sound {size : Size} {sms inAddr rows cols : Nat} (haddr : size.1 ∣ inAddr)
    (hcols : 0 < cols) {l : Load} (hl : l ∈ rowsLoads size sms inAddr rows cols) :
    l.Sound size inAddr (rows * cols) := by
  obtain ⟨vec, hsome, -, hvec, hlaunch⟩ := rowsVec_spec haddr rows cols
  unfold rowsLoads at hl
  dsimp only at hl
  rw [hsome] at hl
  dsimp only at hl
  split at hl
  · obtain ⟨r, hr, hl⟩ := List.mem_flatMap.mp hl
    obtain ⟨tid, hl⟩ := mem_blockLoads hl
    exact scanLoads_sound haddr hvec hlaunch (List.mem_range.mp hr) (Nat.zero_le _)
      (Nat.le_refl _) (Nat.dvd_zero _) hl
  · rename_i hsplit
    obtain ⟨hpos, hchunk, hsplits⟩ := rowsPlan_split hcols (Nat.not_le.mp hsplit)
    obtain ⟨b, hb, hl⟩ := List.mem_flatMap.mp hl
    obtain ⟨tid, hl⟩ := mem_blockLoads hl
    have hr := List.mem_range.mp (mem_splitGrid.mp hb).1
    have hstop : chunkStop cols (rowsPlan size sms rows cols).1 b.2 ≤ cols := Nat.min_le_right _ _
    have hs := (mem_splitGrid.mp hb).2
    rw [hsplits, lt_pieces_iff hpos] at hs
    refine scanLoads_sound haddr hvec hlaunch hr (chunkStart_le_stop _ _ _) hstop ?_ hl
    unfold chunkStart
    rw [Nat.min_eq_left (Nat.le_of_lt hs)]
    exact Nat.dvd_mul_left_of_dvd (hvec.trans hchunk) _

theorem colsLoads_sound {size : Size} {sms inAddr outer reduce inner : Nat}
    (haddr : size.1 ∣ inAddr) {l : Load} (hl : l ∈ colsLoads sms outer reduce inner) :
    l.Sound size inAddr (outer * reduce * inner) := by
  have hwalk : ∀ t ∈ colsGrid outer inner, ∀ start stop, stop ≤ reduce →
      l ∈ walkLoads (t.1 * reduce * inner + t.2) inner start stop →
      l.Sound size inAddr (outer * reduce * inner) := by
    intro t ht start stop hstop hl
    obtain ⟨ho, hi⟩ := mem_colsGrid.mp ht
    obtain ⟨r, hr, rfl⟩ := List.mem_map.mp hl
    rw [List.mem_range'_1] at hr
    refine ⟨?_, ?_⟩
    · dsimp only
      rw [align_eq (Nat.one_dvd _), Nat.one_mul]
      exact Nat.dvd_add haddr (Nat.dvd_mul_left _ _)
    · dsimp only
      have hflat : t.1 * reduce + r + 1 ≤ outer * reduce := by
        have hmul := Nat.mul_le_mul_right reduce (Nat.succ_le_of_lt ho)
        rw [Nat.succ_mul] at hmul
        omega
      calc t.1 * reduce * inner + t.2 + r * inner + 1
        _ = (t.1 * reduce + r) * inner + (t.2 + 1) := by ring
        _ ≤ (t.1 * reduce + r) * inner + inner := by omega
        _ = (t.1 * reduce + r + 1) * inner := by ring
        _ ≤ outer * reduce * inner := Nat.mul_le_mul_right _ hflat
  unfold colsLoads at hl
  split at hl
  · obtain ⟨t, ht, hl⟩ := List.mem_flatMap.mp hl
    exact hwalk t ht 0 reduce (Nat.le_refl _) hl
  · obtain ⟨b, hb, hl⟩ := List.mem_flatMap.mp hl
    exact hwalk b.1 (mem_splitGrid.mp hb).1 _ _ (Nat.min_le_right _ _) hl

/-! ## Every route -/

/-- The chunk and the number of splits when an axis is split. -/
def splitPlan (size : Size) (sms outer reduce inner : Nat) : Option (Nat × Nat) :=
  if inner = 1 then
    let plan := rowsPlan size sms outer reduce
    if plan.2 ≤ 1 then none else some plan
  else colsPlan sms outer reduce inner

/-- The loads from the operand. -/
def specLoads (size : Size) (sms inAddr outer reduce inner : Nat) : List Load :=
  if inner = 1 then rowsLoads size sms inAddr outer reduce else colsLoads sms outer reduce inner

theorem splitPlan_spec {size : Size} {sms outer reduce inner chunk splits : Nat}
    (hreduce : 0 < reduce) (h : splitPlan size sms outer reduce inner = some (chunk, splits)) :
    0 < chunk ∧ splits = pieces reduce chunk := by
  unfold splitPlan at h
  dsimp only at h
  split at h
  · split at h
    · cases h
    · rename_i hsplit
      have hplan := Option.some.inj h
      obtain ⟨hpos, -, hsplits⟩ := rowsPlan_split hreduce (Nat.not_le.mp hsplit)
      rw [hplan] at hpos hsplits
      exact ⟨hpos, hsplits⟩
  · exact colsPlan_split hreduce h

section
variable {α : Type u} {V : Type v} [LinearOrder V] [Scalar α V] [Zero α]

omit [LinearOrder V] [Scalar α V] [Zero α] in
theorem storesOut_exists (withValues : Bool) (stores : List (Nat × Best α)) (m : Memory α) :
    ∃ m', StoresOut withValues stores m m' :=
  ⟨{ m with
      out := storeAll (stores.map fun w => (w.1, w.2.idx)) m.out
      val := storeAll (if withValues then stores.map fun w => (w.1, w.2.val) else []) m.val },
    Stores.inOrder _ _, Stores.inOrder _ _⟩

omit [LinearOrder V] [Scalar α V] [Zero α] in
theorem storesWs_exists (stores : List (Nat × Best α)) (m : Memory α) :
    ∃ m', StoresWs stores m m' :=
  ⟨{ m with
      wsVal := storeAll (stores.map fun w => (w.1, w.2.val)) m.wsVal
      wsIdx := storeAll (stores.map fun w => (w.1, w.2.idx)) m.wsIdx },
    Stores.inOrder _ _, Stores.inOrder _ _, rfl, rfl⟩

theorem argreduceSpecInto_exists (isMin withValues : Bool) (size : Size) (sms inAddr : Nat)
    (data : Nat → α) (outer reduce inner : Nat) (m : Memory α) :
    ∃ m', ArgreduceSpecInto isMin withValues size sms inAddr data outer reduce inner m m' := by
  unfold ArgreduceSpecInto
  split
  · exact ⟨m, rfl⟩
  · split
    · unfold ArgreduceRows
      dsimp only
      split
      · exact ⟨m, rfl⟩
      · split
        · exact storesOut_exists _ _ m
        · obtain ⟨mid, hmid⟩ := storesWs_exists _ m
          obtain ⟨m', hm'⟩ := storesOut_exists _ _ mid
          exact ⟨m', mid, hmid, hm'⟩
    · unfold ArgreduceCols
      split
      · exact storesOut_exists _ _ m
      · obtain ⟨mid, hmid⟩ := storesWs_exists _ m
        obtain ⟨m', hm'⟩ := storesOut_exists _ _ mid
        exact ⟨m', mid, hmid, hm'⟩

/-- Every route returns the first extremum of each line, its chunks cover the reduce axis once
and its loads are aligned and in bounds. -/
theorem argreduce_first (isMin withValues : Bool) (size : Size) (sms : Nat) {inAddr : Nat}
    (data : Nat → α) {outer reduce inner : Nat} (m : Memory α) (haddr : size.1 ∣ inAddr)
    (houter : 0 < outer) (hreduce : 0 < reduce) (hinner : 0 < inner) :
    (∃ m', ArgreduceSpecInto isMin withValues size sms inAddr data outer reduce inner m m') ∧
    (∀ m', ArgreduceSpecInto isMin withValues size sms inAddr data outer reduce inner m m' →
      ∀ o, o < outer → ∀ i, i < inner → Answers isMin withValues
        (fun r => data ((o * reduce + r) * inner + i)) reduce m' (o * inner + i)) ∧
    (∀ chunk splits, splitPlan size sms outer reduce inner = some (chunk, splits) →
      ∀ r, r < reduce →
        ∃! s, s < splits ∧ chunkStart reduce chunk s ≤ r ∧ r < chunkStop reduce chunk s) ∧
    ∀ l ∈ specLoads size sms inAddr outer reduce inner,
      l.Sound size inAddr (outer * reduce * inner) := by
  refine ⟨argreduceSpecInto_exists .., fun m' h o ho i hi => ?_, fun chunk splits hplan r hr => ?_,
    fun l hl => ?_⟩
  · have hsome : ¬ (outer * inner ≤ 0 ∨ reduce ≤ 0) := by
      have := Nat.mul_pos houter hinner
      omega
    unfold ArgreduceSpecInto at h
    rw [if_neg hsome] at h
    split at h
    · rename_i hone
      subst hone
      have hi0 : i = 0 := by omega
      subst hi0
      simp only [Nat.mul_one, Nat.add_zero]
      exact argreduceRows_answers haddr hreduce h ho
    · have hline : (fun r => data ((o * reduce + r) * inner + i)) =
          fun r => data (o * reduce * inner + i + r * inner) := by
        funext r
        congr 1
        ring
      rw [hline]
      exact argreduceCols_answers hreduce h ho hi
  · obtain ⟨hchunk, rfl⟩ := splitPlan_spec hreduce hplan
    exact chunk_exists_unique hchunk hr
  · unfold specLoads at hl
    split at hl
    · rename_i hone
      rw [hone, Nat.mul_one]
      exact rowsLoads_sound haddr hreduce hl
    · exact colsLoads_sound haddr hl

end

instance zeroRow : Zero (Option Int) := ⟨some 0⟩

/-- A row with two NaN. -/
theorem argreduce_first_row :
    ∃ m' : Memory (Option Int), ArgreduceSpecInto true true ⟨4, by decide⟩ 1 16
        (fun i => ([some 3, none, some 1, none] : List (Option Int)).getD i none) 1 4 1
        ⟨fun _ => 0, fun _ => none, fun _ => none, fun _ => 0⟩ m' ∧
      Answers true true (fun r => ([some 3, none, some 1, none] : List (Option Int)).getD
        ((0 * 4 + r) * 1 + 0) none) 4 m' (0 * 1 + 0) := by
  obtain ⟨⟨m', hrun⟩, hfirst, -, -⟩ := argreduce_first true true ⟨4, by decide⟩ 1
    (fun i => ([some 3, none, some 1, none] : List (Option Int)).getD i none)
    ⟨fun _ => 0, fun _ => none, fun _ => none, fun _ => 0⟩ (show 4 ∣ 16 by decide)
    (show 0 < 1 by decide) (show 0 < 4 by decide) (show 0 < 1 by decide)
  exact ⟨m', hrun, hfirst m' hrun 0 (by decide) 0 (by decide)⟩

end TorchMojoBackend.Kernels.ArgReduce
