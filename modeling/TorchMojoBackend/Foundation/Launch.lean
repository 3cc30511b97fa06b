/-
  `Foundation.Launch`: what a launch of independent threads leaves in memory.

  Everything in this file is independent of the modelled program.  The threads of a
  launch share a range of items by strides, and store to memory in any order: at an
  address that several stores hit, any of them may come last.  Running the threads one
  after the other is one such order.
-/
import Mathlib.Data.List.Range
import Mathlib.Data.List.Perm.Lattice
import Mathlib.Data.Multiset.Bind
import Mathlib.Data.Nat.ModEq
import Mathlib.Tactic.Ring
import TorchMojoBackend.Foundation.SeqLock

set_option autoImplicit false

namespace TorchMojoBackend.Foundation

universe u v

/-! ## Strided loops -/

/-- The values of `i` in `while i < n: ...; i += step`; `fuel` bounds their number. -/
def strided (n step : Nat) : Nat → Nat → List Nat
  | 0, _ => []
  | fuel + 1, i => if i < n then i :: strided n step fuel (i + step) else []

theorem mem_strided {n step fuel i x : Nat} (hstep : 0 < step) (hfuel : n ≤ i + fuel) :
    x ∈ strided n step fuel i ↔ i ≤ x ∧ x < n ∧ x % step = i % step := by
  induction fuel generalizing i with
  | zero =>
      refine iff_of_false List.not_mem_nil ?_
      rintro ⟨hle, hlt, -⟩
      omega
  | succ fuel ih =>
      unfold strided
      split
      · rename_i hin
        rw [List.mem_cons, ih (by omega), Nat.add_mod_right]
        constructor
        · rintro (rfl | ⟨hle, hlt, hmod⟩)
          · exact ⟨Nat.le_refl _, hin, rfl⟩
          · exact ⟨by omega, hlt, hmod⟩
        · rintro ⟨hle, hlt, hmod⟩
          by_cases heq : x = i
          · exact .inl heq
          · refine .inr ⟨?_, hlt, hmod⟩
            -- the next value with this remainder is a step away
            have hdvd : step ∣ x - i := (Nat.modEq_iff_dvd' hle).mp hmod.symm
            have := Nat.le_of_dvd (by omega) hdvd
            omega
      · rename_i hout
        refine iff_of_false List.not_mem_nil ?_
        rintro ⟨hle, hlt, -⟩
        omega

theorem strided_nodup {n step fuel i : Nat} (hstep : 0 < step) (hfuel : n ≤ i + fuel) :
    (strided n step fuel i).Nodup := by
  induction fuel generalizing i with
  | zero => exact List.nodup_nil
  | succ fuel ih =>
      unfold strided
      split
      · refine List.nodup_cons.mpr ⟨fun hmem => ?_, ih (by omega)⟩
        have hle := ((mem_strided hstep (by omega)).mp hmem).1
        omega
      · exact List.nodup_nil

/-- The values rise. -/
theorem strided_pairwise {n step fuel i : Nat} (hstep : 0 < step) :
    (strided n step fuel i).Pairwise (· < ·) := by
  have hlow : ∀ fuel i x, x ∈ strided n step fuel i → i ≤ x := by
    intro fuel
    induction fuel with
    | zero => exact fun i x hx => absurd hx List.not_mem_nil
    | succ fuel ih =>
        intro i x hx
        unfold strided at hx
        split at hx
        · obtain rfl | hx := List.mem_cons.mp hx
          · exact Nat.le_refl _
          · exact Nat.le_trans (Nat.le_add_right _ _) (ih _ _ hx)
        · exact absurd hx List.not_mem_nil
  induction fuel generalizing i with
  | zero => exact List.Pairwise.nil
  | succ fuel ih =>
      unfold strided
      split
      · refine List.pairwise_cons.mpr ⟨fun x hx => ?_, ih⟩
        exact Nat.lt_of_lt_of_le (Nat.lt_add_of_pos_right hstep) (hlow _ _ _ hx)
      · exact List.Pairwise.nil

/-- With enough fuel the loop runs to its end. -/
theorem strided_fuel {n step : Nat} (hstep : 0 < step) {fuel fuel' : Nat} :
    ∀ {i : Nat}, n ≤ i + fuel → n ≤ i + fuel' →
      strided n step fuel i = strided n step fuel' i := by
  induction fuel generalizing fuel' with
  | zero =>
      intro i hfuel _
      cases fuel' with
      | zero => rfl
      | succ fuel' =>
          unfold strided
          rw [if_neg (by omega)]
  | succ fuel ih =>
      intro i hfuel hfuel'
      cases fuel' with
      | zero =>
          unfold strided
          rw [if_neg (by omega)]
      | succ fuel' =>
          unfold strided
          have hnext : strided n step fuel (i + step) = strided n step fuel' (i + step) :=
            ih (by omega) (by omega)
          rw [hnext]

/-- A loop over multiples counts them. -/
theorem strided_scaled {n q T : Nat} (step : Nat) (hq : ∀ k, k * T < n ↔ k < q) {fuel i : Nat} :
    strided n (step * T) fuel (i * T) = (strided q step fuel i).map (· * T) := by
  induction fuel generalizing i with
  | zero => rfl
  | succ fuel ih =>
      unfold strided
      by_cases hi : i < q
      · rw [if_pos hi, if_pos ((hq i).mpr hi), List.map_cons, ← ih, Nat.add_mul]
      · rw [if_neg hi, if_neg fun h => hi ((hq i).mp h), List.map_nil]

/-- Several steps of the loop at once. -/
theorem strided_unroll {n step fuel : Nat} (k : Nat) {i : Nat} (hin : i + k * step < n) :
    strided n step (k + 1 + fuel) i =
      (List.range (k + 1)).map (fun u => i + u * step) ++
        strided n step fuel (i + (k + 1) * step) := by
  induction k generalizing fuel with
  | zero =>
      rw [Nat.add_comm (0 + 1), strided, if_pos (by omega), Nat.zero_add, Nat.one_mul,
        List.range_one, List.map_singleton, Nat.zero_mul, Nat.add_zero, List.singleton_append]
  | succ k ih =>
      have hlt : i + k * step < n := by
        rw [Nat.succ_mul] at hin
        omega
      have hfuel : k + 1 + 1 + fuel = k + 1 + (fuel + 1) := by omega
      rw [hfuel, ih hlt, List.range_succ (n := k + 1), List.map_append, List.append_assoc,
        strided, if_pos hin, List.map_singleton, List.singleton_append, Nat.add_assoc i,
        ← Nat.succ_mul]

/-- The steps of a loop that ends within `k` of them. -/
theorem strided_short {n step : Nat} (k : Nat) {fuel : Nat} :
    ∀ {i : Nat}, n ≤ i + k * step → n ≤ i + fuel →
      strided n step fuel i =
        ((List.range k).filter fun u => i + u * step < n).map fun u => i + u * step := by
  induction k generalizing fuel with
  | zero =>
      intro i hend _
      cases fuel with
      | zero => rfl
      | succ fuel =>
          rw [strided, if_neg (by omega)]
          rfl
  | succ k ih =>
      intro i hend hfuel
      rw [Nat.succ_mul] at hend
      by_cases hin : i < n
      · obtain ⟨fuel, rfl⟩ : ∃ f, fuel = f + 1 := ⟨fuel - 1, by omega⟩
        have hstep : 0 < step := by
          refine Nat.pos_of_ne_zero fun hzero => ?_
          rw [hzero, Nat.mul_zero] at hend
          omega
        have hnext : ∀ u, i + step + u * step = i + (u + 1) * step := fun u => by
          rw [Nat.succ_mul]
          omega
        have hfirst : decide (i + 0 * step < n) = true := decide_eq_true (by omega)
        rw [strided, if_pos hin, ih (by omega) (by omega), List.range_succ_eq_map,
          List.filter_cons_of_pos (p := fun u => decide (i + u * step < n)) hfirst, List.filter_map,
          List.map_cons, List.map_map, Nat.zero_mul, Nat.add_zero]
        simp only [hnext, Function.comp_def, Nat.succ_eq_add_one]
      · have hnone : strided n step fuel i = [] := by
          cases fuel with
          | zero => rfl
          | succ fuel => rw [strided, if_neg hin]
        rw [hnone, List.filter_eq_nil_iff.mpr, List.map_nil]
        intro u _
        rw [decide_eq_true_iff]
        omega

/-- The items of a grid of `threads`: thread `t` has `t`, `t + threads`, ... below `n`. -/
def gridItems (threads n : Nat) : List Nat :=
  (List.range threads).flatMap fun t => strided n threads n t

theorem mem_gridItems {threads n x : Nat} (hthreads : 0 < threads) :
    x ∈ gridItems threads n ↔ x < n := by
  simp only [gridItems, List.mem_flatMap, List.mem_range]
  constructor
  · rintro ⟨t, -, hmem⟩
    exact ((mem_strided hthreads (Nat.le_add_left _ _)).mp hmem).2.1
  · intro hlt
    refine ⟨x % threads, Nat.mod_lt _ hthreads, ?_⟩
    exact (mem_strided hthreads (Nat.le_add_left _ _)).mpr
      ⟨Nat.mod_le _ _, hlt, (Nat.mod_mod _ _).symm⟩

/-- Each item belongs to one thread and comes once. -/
theorem gridItems_nodup {threads n : Nat} (hthreads : 0 < threads) :
    (gridItems threads n).Nodup := by
  refine List.nodup_flatMap.mpr ⟨fun t _ => strided_nodup hthreads (Nat.le_add_left _ _), ?_⟩
  refine List.Pairwise.imp_of_mem ?_ List.nodup_range
  intro t t' ht ht' hne x hx hx'
  have hmod := ((mem_strided hthreads (Nat.le_add_left _ _)).mp hx).2.2
  have hmod' := ((mem_strided hthreads (Nat.le_add_left _ _)).mp hx').2.2
  rw [Nat.mod_eq_of_lt (List.mem_range.mp ht)] at hmod
  rw [Nat.mod_eq_of_lt (List.mem_range.mp ht')] at hmod'
  exact hne (hmod.symm.trans hmod')

theorem gridItems_perm {threads : Nat} (n : Nat) (hthreads : 0 < threads) :
    (gridItems threads n).Perm (List.range n) :=
  (List.perm_ext_iff_of_nodup (gridItems_nodup hthreads) List.nodup_range).mpr fun _ =>
    (mem_gridItems hthreads).trans List.mem_range.symm

/-- The threads of a grid share the items from `base` on. -/
theorem strided_from_perm {threads base n fuel : Nat} (hthreads : 0 < threads) (hfuel : n ≤ fuel) :
    ((List.range threads).flatMap fun t => strided n threads fuel (base + t)).Perm
      ((List.range (n - base)).map (base + ·)) := by
  have hmem : ∀ {t x}, x ∈ strided n threads fuel (base + t) ↔
      base + t ≤ x ∧ x < n ∧ x % threads = (base + t) % threads :=
    mem_strided hthreads (by omega)
  refine (List.perm_ext_iff_of_nodup ?_ ?_).mpr fun x => ?_
  · refine List.nodup_flatMap.mpr ⟨fun t _ => strided_nodup hthreads (by omega), ?_⟩
    refine List.Pairwise.imp_of_mem ?_ List.nodup_range
    intro t t' ht ht' hne x hx hx'
    have hmod := (hmem.mp hx).2.2.symm.trans (hmem.mp hx').2.2
    have heq : t % threads = t' % threads := Nat.ModEq.add_left_cancel' base hmod
    rw [Nat.mod_eq_of_lt (List.mem_range.mp ht), Nat.mod_eq_of_lt (List.mem_range.mp ht')] at heq
    exact hne heq
  · exact List.nodup_range.map fun i j heq => Nat.add_left_cancel heq
  · simp only [List.mem_flatMap, List.mem_range, hmem, List.mem_map]
    constructor
    · rintro ⟨t, -, hle, hlt, -⟩
      exact ⟨x - base, by omega, by omega⟩
    · rintro ⟨i, hi, rfl⟩
      have hle := Nat.mod_le i threads
      have hmod : (base + i) % threads = (base + i % threads) % threads :=
        (Nat.ModEq.add_left base (Nat.mod_modEq i threads)).symm
      exact ⟨i % threads, Nat.mod_lt _ hthreads, by omega, by omega, hmod⟩

/-- The row of a flat index. -/
theorem row_div {n a i : Nat} (hi : i < n) : (a * n + i) / n = a := by
  rw [Nat.mul_comm, Nat.mul_add_div (Nat.zero_lt_of_lt hi), Nat.div_eq_of_lt hi, Nat.add_zero]

/-- A flat index has one row and one column. -/
theorem flat_inj {n a b i j : Nat} (hi : i < n) (hj : j < n) (h : a * n + i = b * n + j) :
    a = b ∧ i = j := by
  have hdiv := congrArg (· / n) h
  have hmod := congrArg (· % n) h
  simp only [row_div hi, row_div hj, Nat.mul_add_mod_of_lt hi, Nat.mul_add_mod_of_lt hj] at hdiv hmod
  exact ⟨hdiv, hmod⟩

/-- The flat index of a row and a column. -/
theorem row_major_lt {rows width row j : Nat} (hrow : row < rows) (hj : j < width) :
    row * width + j < rows * width := by
  have hmul := Nat.mul_le_mul_right width (Nat.succ_le_of_lt hrow)
  rw [Nat.succ_mul] at hmul
  omega

/-! ## Items by rows -/

/-- A range in rows of one length. -/
theorem range_mul (n k : Nat) :
    List.range (n * k) = (List.range n).flatMap fun i => (List.range k).map fun j => i * k + j := by
  induction n with
  | zero => rw [Nat.zero_mul]; rfl
  | succ n ih => rw [Nat.succ_mul, List.range_add, ih, List.range_succ, List.flatMap_append,
      List.flatMap_singleton]

/-- What a grid does with its items, in rows. -/
theorem gridItems_flatMap_perm {β : Type*} {threads : Nat} (n k : Nat) (hthreads : 0 < threads)
    (f : Nat → List β) : ((gridItems threads (n * k)).flatMap f).Perm
      ((List.range n).flatMap fun i => (List.range k).flatMap fun j => f (i * k + j)) := by
  refine ((gridItems_perm (n * k) hthreads).flatMap_right f).trans (List.Perm.of_eq ?_)
  rw [range_mul, List.flatMap_assoc]
  refine List.flatMap_congr fun i _ => ?_
  rw [List.flatMap_map]

/-- Loops in the other order. -/
theorem flatMap_comm_perm {ι κ β : Type*} (l : List ι) (k : List κ) (f : ι → κ → List β) :
    (l.flatMap fun i => k.flatMap fun j => f i j).Perm
      (k.flatMap fun j => l.flatMap fun i => f i j) := by
  refine Multiset.coe_eq_coe.mp ?_
  have hbind := Multiset.bind_bind (l : Multiset ι) (k : Multiset κ)
    (f := fun i j => (f i j : Multiset β))
  simpa only [Multiset.coe_bind] using hbind

/-- Threads past the end do nothing. -/
theorem flatMap_range_guard {β : Type*} (g : Nat → List β) {k n : Nat} (hkn : k ≤ n) :
    (List.range n).flatMap (fun i => if i ≥ k then [] else g i) = (List.range k).flatMap g := by
  obtain ⟨d, rfl⟩ := Nat.exists_eq_add_of_le hkn
  rw [List.range_add, List.flatMap_append]
  have hin : (List.range k).flatMap (fun i => if i ≥ k then [] else g i) =
      (List.range k).flatMap g :=
    List.flatMap_congr fun i hi => if_neg (by have := List.mem_range.mp hi; omega)
  have hout : ((List.range d).map (k + ·)).flatMap (fun i => if i ≥ k then [] else g i) = [] := by
    refine List.flatMap_eq_nil_iff.mpr fun i hi => ?_
    obtain ⟨j, -, rfl⟩ := List.mem_map.mp hi
    exact if_pos (Nat.le_add_right k j)
  rw [hin, hout, List.append_nil]

/-! ## Stores -/

section
variable {Addr : Type u} {Val : Type v}

/-- `m'` is what the stores `ws` may leave of `m`, in any order. -/
def Stores (ws : List (Addr × Val)) (m m' : Addr → Val) : Prop :=
  ∀ a, (a, m' a) ∈ ws ∨ (∀ b, (a, b) ∉ ws) ∧ m' a = m a

variable {ws : List (Addr × Val)} {m m' : Addr → Val}

/-- The order of the stores does not matter, nor does their number. -/
theorem Stores.congr {ws' : List (Addr × Val)} (h : Stores ws m m') (hmem : ∀ w, w ∈ ws ↔ w ∈ ws') :
    Stores ws' m m' := fun a =>
  (h a).imp (hmem _).mp fun hoff => ⟨fun b hb => hoff.1 b ((hmem _).mpr hb), hoff.2⟩

/-- An address where one value is stored. -/
theorem Stores.at (h : Stores ws m m') {a : Addr} {b : Val} (hb : (a, b) ∈ ws)
    (hone : ∀ b', (a, b') ∈ ws → b' = b) : m' a = b := by
  obtain hmem | ⟨hnone, -⟩ := h a
  · exact hone _ hmem
  · exact absurd hb (hnone b)

/-- An address where nothing is stored. -/
theorem Stores.off (h : Stores ws m m') {a : Addr} (hnone : ∀ b, (a, b) ∉ ws) : m' a = m a := by
  obtain hmem | ⟨-, heq⟩ := h a
  · exact absurd hmem (hnone _)
  · exact heq

/-- One store for each item of a list, at different addresses. -/
theorem Stores.map_at {ι : Type*} {items : List ι} {addr : ι → Addr} {val : ι → Val}
    (h : Stores (items.map fun i => (addr i, val i)) m m')
    (hinj : ∀ i ∈ items, ∀ j ∈ items, addr i = addr j → i = j) {i : ι} (hi : i ∈ items) :
    m' (addr i) = val i := by
  refine h.at (List.mem_map.mpr ⟨i, hi, rfl⟩) fun b hb => ?_
  obtain ⟨j, hj, heq⟩ := List.mem_map.mp hb
  obtain ⟨haddr, rfl⟩ := Prod.mk.inj heq
  rw [hinj j hj i hi haddr]

/-- The stores of the values of a function of places, at places that are told apart by their
addresses. -/
def WritesOf {ι : Type*} (P : ι → Prop) (addr : ι → Addr) (val : ι → Val)
    (ws : List (Addr × Val)) : Prop :=
  (∀ w ∈ ws, ∃ x, P x ∧ w = (addr x, val x)) ∧ ∀ x, P x → (addr x, val x) ∈ ws

theorem Stores.writesOf {ι : Type*} {P : ι → Prop} {addr : ι → Addr} {val : ι → Val}
    (h : Stores ws m m') (hws : WritesOf P addr val ws)
    (hinj : ∀ x y, P x → P y → addr x = addr y → x = y) {x : ι} (hx : P x) :
    m' (addr x) = val x := by
  refine h.at (hws.2 x hx) fun b hb => ?_
  obtain ⟨y, hy, heq⟩ := hws.1 _ hb
  obtain ⟨haddr, rfl⟩ := Prod.mk.inj heq
  rw [hinj x y hx hy haddr]

theorem Stores.map_off {ι : Type*} {items : List ι} {addr : ι → Addr} {val : ι → Val}
    (h : Stores (items.map fun i => (addr i, val i)) m m') {a : Addr}
    (hnone : ∀ i ∈ items, addr i ≠ a) : m' a = m a := by
  refine h.off fun b hb => ?_
  obtain ⟨i, hi, heq⟩ := List.mem_map.mp hb
  exact hnone i hi (Prod.mk.inj heq).1

/-- The stores one after the other. -/
theorem Stores.inOrder [DecidableEq Addr] (ws : List (Addr × Val)) (m : Addr → Val) :
    Stores ws m (storeAll ws m) := by
  induction ws generalizing m with
  | nil => exact fun a => .inr ⟨fun _ => List.not_mem_nil, rfl⟩
  | cons w ws ih =>
      intro a
      change (a, storeAll ws (Function.update m w.1 w.2) a) ∈ w :: ws ∨ _
      obtain hmem | ⟨hnone, heq⟩ := ih (Function.update m w.1 w.2) a
      · exact .inl (List.mem_cons_of_mem _ hmem)
      · by_cases ha : a = w.1
        · left
          rw [heq, ha, Function.update_self]
          exact List.mem_cons_self
        · right
          refine ⟨fun b hb => ?_, ?_⟩
          · obtain hb | hb := List.mem_cons.mp hb
            · exact ha (congrArg Prod.fst hb)
            · exact hnone b hb
          · change storeAll ws (Function.update m w.1 w.2) a = m a
            rw [heq, Function.update_of_ne ha]

/-- One store for each address of a list. -/
theorem storeAll_items [DecidableEq Addr] {items : List Addr} (f : Addr → Val) (m : Addr → Val)
    {a : Addr} (ha : a ∈ items) : storeAll (items.map fun i => (i, f i)) m a = f a :=
  (Stores.inOrder _ m).map_at (fun _ _ _ _ heq => heq) ha

end

/-- The stores of one row of several. -/
theorem Stores.row {Val : Type v} {rows width : Nat} {stores : Nat → List (Nat × Val)}
    {m m' : Nat → Val} (h : Stores ((List.range rows).flatMap fun row =>
      (stores row).map fun w => (row * width + w.1, w.2)) m m')
    (hin : ∀ row, row < rows → ∀ w ∈ stores row, w.1 < width) {row : Nat} (hrow : row < rows) :
    Stores (stores row) (fun i => m (row * width + i))
      fun i => if i < width then m' (row * width + i) else m (row * width + i) := by
  have hmem : ∀ a b, a < width → ((row * width + a, b) ∈ ((List.range rows).flatMap fun row =>
      (stores row).map fun w => (row * width + w.1, w.2)) ↔ (a, b) ∈ stores row) := by
    intro a b ha
    simp only [List.mem_flatMap, List.mem_map, List.mem_range]
    constructor
    · rintro ⟨r, hr, w, hw, heq⟩
      obtain ⟨haddr, rfl⟩ := Prod.mk.inj heq
      obtain ⟨rfl, rfl⟩ := flat_inj (hin r hr w hw) ha haddr
      exact hw
    · exact fun hw => ⟨row, hrow, (a, b), hw, rfl⟩
  intro a
  by_cases ha : a < width
  · simp only [if_pos ha]
    obtain hw | ⟨hnone, heq⟩ := h (row * width + a)
    · exact .inl ((hmem _ _ ha).mp hw)
    · exact .inr ⟨fun b hb => hnone b ((hmem _ _ ha).mpr hb), heq⟩
  · simp only [if_neg ha]
    exact .inr ⟨fun b hb => ha (hin row hrow _ hb), trivial⟩

end TorchMojoBackend.Foundation
