/-
  `Kernels.WelfordMoments`: what the routes store.

  The offsets that a route folds, and the arithmetic on the elements there, are both kinds
  of state that the kernels keep.
-/
import Mathlib.Algebra.Order.Field.Basic
import Mathlib.Algebra.Order.Ring.Rat
import TorchMojoBackend.Kernels.WelfordExact

set_option autoImplicit false

namespace TorchMojoBackend.Kernels.Welford

open TorchMojoBackend.Foundation

universe u

/-! ## Offsets -/

/-- A state that keeps offsets stands for them, and its loads were allowed. -/
def Trace.Stands (Loadable : Nat → Prop) (s : Trace) (A : Multiset Nat) : Prop :=
  s.folded = A ∧ ∀ off ∈ s.loads, Loadable off

theorem folds_tracing (dt : WelfordDtype) (Loadable : Nat → Prop) :
    Folds (tracing dt) (welfordVec dt) Loadable (Trace.Stands Loadable)
      (Trace.Stands Loadable) where
  zero := ⟨rfl, fun off hoff => absurd hoff (Multiset.notMem_zero off)⟩
  combine := by
    rintro a b A B ⟨rfl, ha⟩ ⟨rfl, hb⟩
    exact ⟨rfl, fun off hoff => (Multiset.mem_add.mp hoff).elim (ha off) (hb off)⟩
  update := by
    rintro s A off ⟨rfl, hs⟩
    exact ⟨(Multiset.singleton_add off _).symm.trans (add_comm _ _), hs⟩
  vecZero := ⟨rfl, fun off hoff => absurd hoff (Multiset.notMem_zero off)⟩
  vecUpdate := by
    rintro v A off hload ⟨rfl, hs⟩
    refine ⟨add_comm _ _, fun x hx => ?_⟩
    obtain rfl | hx := Multiset.mem_cons.mp hx
    · exact hload
    · exact hs x hx
  lanes := fun h => h

/-! ## Arithmetic -/

section
variable {K : Type u} [Field K] [LinearOrder K] [IsStrictOrderedRing K]

theorem welfordCombine_describes {a b : Moments K} {A B : Multiset K} (ha : a.Describes A)
    (hb : b.Describes B) : (welfordCombine a b).Describes (A + B) := by
  unfold welfordCombine
  by_cases hzero : a.count = 0
  · rw [if_pos hzero, ha.count_eq_zero_iff.mp hzero, zero_add]
    exact hb
  by_cases hzero' : b.count = 0
  · rw [if_neg hzero, if_pos hzero', hb.count_eq_zero_iff.mp hzero', add_zero]
    exact ha
  have htotal : a.count + b.count ≠ 0 := by
    rw [ha.count_eq, hb.count_eq, ← Nat.cast_add]
    rw [ha.count_eq] at hzero
    exact Nat.cast_ne_zero.mpr fun h => hzero (Nat.cast_eq_zero.mpr (Nat.add_eq_zero_iff.mp h).1)
  rw [if_neg hzero, if_neg hzero']
  refine ha.merge hb rfl ?_ ?_ fun h => absurd h htotal
  · dsimp only
    field_simp
    ring
  · dsimp only
    field_simp
    ring

theorem count_succ_ne_zero {s : Moments K} {l : Multiset K} (h : s.Describes l) :
    s.count + 1 ≠ 0 := by
  rw [h.count_eq]
  exact Nat.cast_add_one_ne_zero _

theorem welfordUpdate_describes {s : Moments K} {l : Multiset K} (h : s.Describes l) (x : K) :
    (welfordUpdate x s).Describes (x ::ₘ l) := by
  have hn := count_succ_ne_zero h
  refine h.add_value x rfl ?_ rfl
  change (s.count + 1) * (s.mean + (x - s.mean) / (s.count + 1) - s.mean) = x - s.mean
  rw [add_sub_cancel_left, mul_div_cancel₀ _ hn]

/-- A lane of a load's states. -/
def VecState.lane (s : VecState K) (e : Nat) : Moments K := ⟨s.mean e, s.m2 e, s.nf⟩

theorem welfordVecUpdate_describes {width : Nat} {s : VecState K} {x : Nat → K} {e : Nat}
    {l : Multiset K} (h : (s.lane e).Describes l) :
    ((welfordVecUpdate width x s).lane e).Describes (x e ::ₘ l) := by
  have hn : s.nf + 1 ≠ 0 := count_succ_ne_zero h
  refine h.add_value (x e) rfl ?_ rfl
  change (s.nf + 1) * ((if width = 1 then s.mean e + (x e - s.mean e) / (s.nf + 1)
    else s.mean e + (x e - s.mean e) * (1 / (s.nf + 1))) - s.mean e) = x e - s.mean e
  split
  · rw [add_sub_cancel_left, mul_div_cancel₀ _ hn]
  · rw [add_sub_cancel_left, mul_one_div, mul_div_cancel₀ _ hn]

/-- States of one count merge by halves without a division. -/
theorem welfordLanes_describes {k : Nat} :
    ∀ {s : VecState K} {L : Nat → Multiset K}, (∀ e < 2 ^ k, (s.lane e).Describes (L e)) →
      (welfordLanes k s.mean s.m2 s.nf).Describes (∑ e ∈ Finset.range (2 ^ k), L e) := by
  induction k with
  | zero =>
      intro s L h
      rw [Nat.pow_zero, Finset.sum_range_one]
      exact h 0 (Nat.two_pow_pos 0)
  | succ k ih =>
      intro s L h
      have hhalf : 2 ^ (k + 1) = 2 ^ k + 2 ^ k := by rw [Nat.pow_succ, Nat.mul_two]
      rw [hhalf, Finset.sum_range_add, ← Finset.sum_add_distrib, welfordLanes]
      refine ih (s := ⟨_, _, _⟩) (L := fun e => L e + L (2 ^ k + e)) fun e he => ?_
      have ha := h e (by omega)
      have hb := h (2 ^ k + e) (by omega)
      refine ha.merge hb rfl ?_ ?_ fun hzero => ?_
      · change (s.nf + s.nf) * (s.mean e + (s.mean (2 ^ k + e) - s.mean e) * (1 / 2)) =
          s.nf * s.mean e + s.nf * s.mean (2 ^ k + e)
        ring
      · change (s.nf + s.nf) * (s.m2 e + s.m2 (2 ^ k + e) + (s.mean (2 ^ k + e) - s.mean e) *
            (s.mean (2 ^ k + e) - s.mean e) * s.nf * (1 / 2)) =
          (s.nf + s.nf) * (s.m2 e + s.m2 (2 ^ k + e)) +
            (s.mean e - s.mean (2 ^ k + e)) ^ 2 * s.nf * s.nf
        ring
      · change s.nf + s.nf = 0 at hzero
        have hnf : s.nf = 0 := by rwa [← two_mul, mul_eq_zero, or_iff_right two_ne_zero] at hzero
        have hA := ha.count_eq_zero_iff.mp hnf
        have hB := hb.count_eq_zero_iff.mp hnf
        have ha2 : s.m2 e = 0 := (hA ▸ ha).m2_of_empty.2
        have hb2 : s.m2 (2 ^ k + e) = 0 := (hB ▸ hb).m2_of_empty.2
        change s.m2 e + s.m2 (2 ^ k + e) + (s.mean (2 ^ k + e) - s.mean e) *
          (s.mean (2 ^ k + e) - s.mean e) * s.nf * (1 / 2) = 0
        rw [ha2, hb2, hnf]
        ring

/-- The lanes of a load's states stand for their own elements. -/
def VecState.Stands (width : Nat) (input : Nat → K) (s : VecState K) (A : Multiset Nat) : Prop :=
  ∃ L : Nat → Multiset Nat, A = ∑ e ∈ Finset.range width, L e ∧
    ∀ e < width, (s.lane e).Describes ((L e).map input)

theorem folds_arithmetic (dt : WelfordDtype) (input : Nat → K) (Loadable : Nat → Prop) :
    Folds (arithmetic dt input) (welfordVec dt) Loadable
      (fun s A => s.Describes (A.map input)) (VecState.Stands (welfordVec dt) input) where
  zero := Moments.describes_zero
  combine := by
    intro a b A B ha hb
    rw [Multiset.map_add]
    exact welfordCombine_describes ha hb
  update := by
    intro s A off hs
    rw [Multiset.map_add, Multiset.map_singleton, add_comm, Multiset.singleton_add]
    exact welfordUpdate_describes hs (input off)
  vecZero := ⟨fun _ => 0, Finset.sum_const_zero.symm, fun _ _ => Moments.describes_zero⟩
  vecUpdate := by
    rintro v A off - ⟨L, rfl, hL⟩
    refine ⟨fun e => (off + e) ::ₘ L e, ?_, fun e he => ?_⟩
    · simp only [← Multiset.singleton_add]
      rw [Finset.sum_add_distrib, sum_singletons, add_comm]
    · rw [Multiset.map_cons]
      exact welfordVecUpdate_describes (hL e he)
  lanes := by
    rintro v A ⟨L, rfl, hL⟩
    rw [welfordVec_eq] at hL ⊢
    have hmap : (∑ e ∈ Finset.range (2 ^ vecBits dt), L e).map input =
        ∑ e ∈ Finset.range (2 ^ vecBits dt), (L e).map input :=
      map_sum (Multiset.mapAddMonoidHom input) L _
    rw [hmap]
    exact welfordLanes_describes hL

/-! ## The two together -/

/-- The mean of a line. -/
def lineMean (a : WelfordArgs) (input : Nat → K) (r : Nat) : K :=
  (∑ x ∈ Finset.range a.n, input (a.element r x)) / (a.n : K)

/-- The sum of the squared deviations of a line. -/
def lineM2 (a : WelfordArgs) (input : Nat → K) (r : Nat) : K :=
  ∑ x ∈ Finset.range a.n, (input (a.element r x) - lineMean a input r) ^ 2

omit [LinearOrder K] [IsStrictOrderedRing K] in
theorem sum_line (a : WelfordArgs) (input : Nat → K) (f : K → K) (r : Nat) :
    (((a.line r).map input).map f).sum = ∑ x ∈ Finset.range a.n, f (input (a.element r x)) := by
  rw [WelfordArgs.line, Multiset.map_map, Multiset.map_map]
  rfl

omit [Field K] [LinearOrder K] [IsStrictOrderedRing K] in
theorem card_line (a : WelfordArgs) (input : Nat → K) (r : Nat) :
    ((a.line r).map input).card = a.n := by
  rw [WelfordArgs.line, Multiset.card_map, Multiset.card_map, Multiset.card_range]

omit [LinearOrder K] [IsStrictOrderedRing K] in
theorem meanOf_line (a : WelfordArgs) (input : Nat → K) (r : Nat) :
    Moments.meanOf ((a.line r).map input) = lineMean a input r := by
  have hsum := sum_line a input id r
  rw [Multiset.map_id] at hsum
  rw [Moments.meanOf, hsum, card_line]
  rfl

omit [LinearOrder K] [IsStrictOrderedRing K] in
theorem deviations_line (a : WelfordArgs) (input : Nat → K) (r : Nat) :
    Moments.deviations ((a.line r).map input) = lineM2 a input r := by
  rw [Moments.deviations, meanOf_line, sum_line a input fun x => (x - lineMean a input r) ^ 2]
  rfl

/-- What a state of a whole line is projected to. -/
theorem projected_line {a : WelfordArgs} (h : a.Valid) {input : Nat → K} {r : Nat} {s : Moments K}
    (hs : s.Describes ((a.line r).map input)) (sqrt : K → K) (takeSqrt : Bool) (correction : K) :
    s.mean = lineMean a input r ∧ projected sqrt takeSqrt correction s =
      let v := lineM2 a input r / max ((a.n : K) - correction) 0
      if takeSqrt then sqrt v else v := by
  have hne : (a.line r).map input ≠ 0 := by
    intro hzero
    have hcard := card_line a input r
    rw [hzero, Multiset.card_zero] at hcard
    have := h.n
    omega
  have hcount : s.count = (a.n : K) := by rw [hs.count_eq, card_line]
  have hdivisor : (if correction < s.count then s.count - correction else 0) =
      max ((a.n : K) - correction) 0 := by
    rw [hcount]
    split
    · rename_i hlt
      exact (max_eq_left (sub_nonneg.mpr hlt.le)).symm
    · rename_i hle
      exact (max_eq_right (sub_nonpos.mpr (not_lt.mp hle))).symm
  refine ⟨(hs.mean_of hne).trans (meanOf_line a input r), ?_⟩
  unfold projected
  dsimp only
  rw [hdivisor, hs.m2_of, deviations_line]

end

/-- Every route folds each element of a line once into the state of its output, which is stored
once, with the mean and the variance of the line. The merge kernel reads what the first kernel
wrote, inside the workspace, and vector loads are aligned and inside the input. -/
theorem welford_routes {K : Type u} [Field K] [LinearOrder K] [IsStrictOrderedRing K]
    (a : WelfordArgs) (h : a.Valid) (warpBits : Nat) :
    (∀ r x r' x', r < a.outputs → x < a.n → r' < a.outputs → x' < a.n →
      a.element r x < a.outer * a.n * a.inner ∧
        (a.element r x = a.element r' x' → r = r' ∧ x = x')) ∧
    (∀ (ws : Nat → Trace) (results : List (Nat × Trace)),
      a.Results (tracing a.dt) warpBits ws results →
      (results.map Prod.fst).Perm (List.range a.outputs) ∧ ∀ p ∈ results,
        p.2.folded = (Multiset.range a.n).map (a.element p.1) ∧ ∀ off ∈ p.2.loads,
          (a.inAddr + off * a.dt.size) % (welfordVec a.dt * a.dt.size) = 0 ∧
            off + welfordVec a.dt ≤ a.outer * a.n * a.inner) ∧
    (∀ (S V : Type) (o : WelfordOps S V) (r tid w : Nat),
      w ∈ WelfordOps.mergeReads a.outputs a.splits a.mergeTpr r tid →
      w + 3 ≤ 3 * a.outputs * a.splits ∧ ∃ s, (w, s) ∈ a.workspaceStores o warpBits) ∧
    ∀ (input : Nat → K) (sqrt : K → K) (takeSqrt : Bool) (correction : K)
      (ws : Nat → Moments K) (results : List (Nat × Moments K)) (out mean out' mean' : Nat → K),
      a.Results (arithmetic a.dt input) warpBits ws results →
      Stores (results.map fun p => (p.1, projected sqrt takeSqrt correction p.2)) out out' →
      Stores (results.map fun p => (p.1, p.2.mean)) mean mean' →
      ∀ r < a.outputs, mean' r = lineMean a input r ∧
        out' r = (let v := lineM2 a input r / max ((a.n : K) - correction) 0
          if takeSqrt then sqrt v else v) := by
  refine ⟨fun r x r' x' hr hx hr' hx' => ⟨h.element_lt hr hx, h.element_inj hr hx hr' hx'⟩,
    fun ws results hresults => ?_, fun S V o r tid w hw => ?_, ?_⟩
  · obtain ⟨hperm, hstands⟩ := h.results_stands (folds_tracing a.dt a.Aligned) warpBits hresults
    exact ⟨hperm, hstands⟩
  · unfold WelfordOps.mergeReads at hw
    by_cases hr : r < a.outputs
    · rw [if_pos hr] at hw
      obtain ⟨k, hk, rfl⟩ := List.mem_map.mp hw
      have htpr : 0 < a.mergeTpr := by
        obtain ⟨t, -, htpr⟩ := WelfordArgs.Valid.exists_mergeTpr (a := a)
        exact htpr ▸ Nat.two_pow_pos t
      have hlt : k < a.splits := ((mem_strided htpr (Nat.le_add_left _ _)).mp hk).2.1
      refine ⟨?_, ?_⟩
      · have hflat := row_major_lt hr hlt
        unfold WelfordOps.partialAddr
        rw [Nat.mul_assoc]
        omega
      · -- the keys do not depend on what states stand for
        have hfolds : Folds o (welfordVec a.dt) a.Aligned (fun _ _ => True) fun _ _ => True :=
          ⟨trivial, fun _ _ => trivial, fun _ _ => trivial, trivial, fun _ _ => trivial,
            fun _ => trivial⟩
        obtain ⟨shard, hshards, -⟩ := h.partials_shards hfolds warpBits
        obtain ⟨p, hp, hkey⟩ := (hshards.mem_keys (k := (r, k))).mpr ⟨hr, hlt⟩
        refine ⟨p.2, List.mem_map.mpr ⟨p, hp, ?_⟩⟩
        rw [hkey]
    · rw [if_neg hr] at hw
      cases hsplits : a.splits with
      | zero =>
          rw [hsplits] at hw
          exact absurd hw List.not_mem_nil
      | succ s =>
          rw [hsplits] at hw
          exact absurd hw List.not_mem_nil
  · intro input sqrt takeSqrt correction ws results out mean out' mean' hresults hout hmean r hr
    obtain ⟨hperm, hstands⟩ :=
      h.results_stands (folds_arithmetic a.dt input a.Aligned) warpBits hresults
    -- the output is stored, and whatever is stored there is right
    obtain ⟨p, hp, rfl⟩ := List.mem_map.mp (hperm.mem_iff.mpr (List.mem_range.mpr hr))
    have hright : ∀ q ∈ results, q.1 = p.1 → q.2.mean = lineMean a input p.1 ∧
        projected sqrt takeSqrt correction q.2 =
          let v := lineM2 a input p.1 / max ((a.n : K) - correction) 0
          if takeSqrt then sqrt v else v := by
      intro q hq hqp
      rw [← hqp]
      exact projected_line h (hstands q hq) sqrt takeSqrt correction
    refine ⟨?_, ?_⟩
    · refine hmean.at (List.mem_map.mpr ⟨p, hp, ?_⟩) fun b hb => ?_
      · rw [(hright p hp rfl).1]
      · obtain ⟨q, hq, heq⟩ := List.mem_map.mp hb
        obtain ⟨hqp, rfl⟩ := Prod.mk.inj heq
        exact (hright q hq hqp).1
    · refine hout.at (List.mem_map.mpr ⟨p, hp, ?_⟩) fun b hb => ?_
      · rw [(hright p hp rfl).2]
      · obtain ⟨q, hq, heq⟩ := List.mem_map.mp hb
        obtain ⟨hqp, rfl⟩ := Prod.mk.inj heq
        exact (hright q hq hqp).2

theorem welford_routes_four :
    let a : WelfordArgs := ⟨.float32, 1, 4, 1, 4, 0, 1⟩
    let results := (a.partials (arithmetic .float32 fun i => (i : ℚ)) 5).map fun p => (p.1.1, p.2)
    storeAll (results.map fun p => (p.1, p.2.mean)) (fun _ => 0) 0 =
      lineMean a (fun i => (i : ℚ)) 0 := by
  intro a results
  have hvalid : a.Valid := ⟨by decide, by decide, by decide, by decide, fun _ h => absurd rfl h⟩
  have hone : a.splits = 1 := by decide
  have hresults : a.Results (arithmetic a.dt fun i => (i : ℚ)) 5 (fun _ => ⟨0, 0, 0⟩) results := by
    rw [WelfordArgs.Results, if_pos hone]
  exact ((welford_routes (K := ℚ) a hvalid 5).2.2.2 (fun i => (i : ℚ)) id false 0 _ results
    (fun _ => 0) (fun _ => 0) _ _ hresults (Stores.inOrder _ _) (Stores.inOrder _ _) 0
    (by decide)).1


end TorchMojoBackend.Kernels.Welford
