/-
  `Compiler.GraphInputsExact`: the inputs of a graph are fed in their order, and its symbols have
  the values of the call.
-/
import Mathlib.Data.List.Nodup
import TorchMojoBackend.Compiler.GraphInputs

set_option autoImplicit false

namespace TorchMojoBackend.Compiler

theorem forall₂_getElem? {α β : Type} {R : α → β → Prop} {l : List α} {l' : List β}
    (h : List.Forall₂ R l l') {i : Nat} {a : α} (ha : l[i]? = some a) :
    ∃ b, l'[i]? = some b ∧ R a b := by
  induction h generalizing i with
  | nil => exact nomatch ha
  | @cons x y l l' hxy _ ih =>
      cases i with
      | zero =>
          obtain rfl := Option.some.inj ha
          exact ⟨y, rfl, hxy⟩
      | succ i => exact ih ha

theorem mem_of_lookup {β : Type} {d : List (String × β)} {s : String} {v : β}
    (h : d.lookup s = some v) : (s, v) ∈ d := by
  induction d with
  | nil => exact nomatch h
  | cons item d ih =>
      rw [List.lookup_cons] at h
      by_cases hs : s = item.1
      · rw [beq_iff_eq.mpr hs] at h
        obtain rfl := Option.some.inj h
        rw [hs]
        exact List.mem_cons_self
      · rw [beq_false_of_ne hs] at h
        exact List.mem_cons_of_mem _ (ih h)

theorem exists_lookup {β : Type} {d : List (String × β)} {s : String} {v : β} (h : (s, v) ∈ d) :
    ∃ v', d.lookup s = some v' :=
  Option.isSome_iff_exists.mp (lookup_isSome_iff.mpr (List.mem_map_of_mem h))

section
variable {replaced : String → Bool} {nodes : List Placeholder}

theorem mem_tensorEntries {e : Nat × String × List SymExpr}
    (h : e ∈ tensorEntries replaced nodes.zipIdx) :
    ∃ p, nodes[e.1]? = some p ∧ p.name = e.2.1 ∧ p.traced = .tensor e.2.2 ∧
      replaced p.name = false := by
  obtain ⟨⟨p, a⟩, hmem, hsome⟩ := List.mem_filterMap.mp h
  dsimp only at hsome
  split at hsome
  · rename_i shape htraced
    split at hsome
    · exact nomatch hsome
    · rename_i hreplaced
      obtain rfl := Option.some.inj hsome
      exact ⟨p, List.mem_zipIdx_iff_getElem?.mp hmem, rfl, htraced, Bool.eq_false_iff.mpr hreplaced⟩
  · exact nomatch hsome

theorem mem_symintEntries {e : String × Nat × SymExpr}
    (h : e ∈ symintEntries replaced nodes.zipIdx) :
    ∃ p, nodes[e.2.1]? = some p ∧ p.traced = .symInt e.2.2 := by
  obtain ⟨⟨p, a⟩, hmem, hsome⟩ := List.mem_filterMap.mp h
  dsimp only at hsome
  split at hsome
  · exact nomatch hsome
  · rename_i expr _ htraced
    split at hsome
    · exact nomatch hsome
    · obtain rfl := Option.some.inj hsome
      exact ⟨p, List.mem_zipIdx_iff_getElem?.mp hmem, htraced⟩
  · exact nomatch hsome

theorem mem_shapeSymbols {shape : List SymExpr} {s : String} {dim : Nat} :
    (s, dim) ∈ shapeSymbols shape ↔ shape[dim]? = some (.symbol s) := by
  unfold shapeSymbols
  rw [List.mem_filterMap]
  constructor
  · rintro ⟨⟨e, i⟩, hmem, hsome⟩
    dsimp only at hsome
    split at hsome
    · obtain ⟨rfl, rfl⟩ := Prod.mk.inj (Option.some.inj hsome)
      exact List.mem_zipIdx_iff_getElem?.mp hmem
    · exact nomatch hsome
  · intro h
    exact ⟨(.symbol s, dim), List.mem_zipIdx_iff_getElem?.mpr h, rfl⟩

/-- The symbols of the call arguments are those of tensor inputs and of SymInt inputs. -/
theorem mem_symbolSources {s : String} {a : Nat} {o : Option Nat}
    (h : (s, a, o) ∈ nodes.zipIdx.flatMap (symbolSources replaced)) :
    (∃ e ∈ tensorEntries replaced nodes.zipIdx, e.1 = a ∧ ∃ dim, o = some dim ∧
        (s, dim) ∈ shapeSymbols e.2.2) ∨
      o = none ∧ ∃ name, (name, a, SymExpr.symbol s) ∈ symintEntries replaced nodes.zipIdx := by
  obtain ⟨⟨p, b⟩, hmem, hsource⟩ := List.mem_flatMap.mp h
  unfold symbolSources at hsource
  split at hsource
  · exact absurd hsource List.not_mem_nil
  · rename_i hreplaced
    split at hsource
    · rename_i shape htraced
      obtain ⟨⟨s', dim⟩, hd, heq⟩ := List.mem_map.mp hsource
      obtain ⟨rfl, hrest⟩ := Prod.mk.inj heq
      obtain ⟨rfl, rfl⟩ := Prod.mk.inj hrest
      refine .inl ⟨(b, p.name, shape), List.mem_filterMap.mpr ⟨_, hmem, ?_⟩, rfl, dim, rfl, hd⟩
      dsimp only
      rw [htraced]
      exact if_neg hreplaced
    · rename_i s' htraced
      obtain ⟨rfl, hrest⟩ := Prod.mk.inj (List.mem_singleton.mp hsource)
      obtain ⟨rfl, rfl⟩ := Prod.mk.inj hrest
      refine .inr ⟨rfl, p.name, List.mem_filterMap.mpr ⟨_, hmem, ?_⟩⟩
      dsimp only
      rw [htraced]
      exact if_neg hreplaced
    · exact absurd hsource List.not_mem_nil

end

/-! ## Calls -/

/-- The shape of a tensor argument. -/
def argShape (args : List Arg) (a : Nat) : List Nat :=
  match args[a]? with
  | some (.tensor shape) => shape
  | _ => []

section
variable {nonneg replaced : String → Bool} {nodes : List Placeholder} {env : String → Int}
  {args : List Arg}

theorem Consistent.tensor (h : Consistent nonneg nodes env args)
    {e : Nat × String × List SymExpr} (he : e ∈ tensorEntries replaced nodes.zipIdx) :
    args[e.1]? = some (.tensor (argShape args e.1)) ∧
      List.Forall₂ (fun x (d : Nat) => SymExpr.value env x = some (d : Int)) e.2.2
        (argShape args e.1) := by
  obtain ⟨p, hp, -, htraced, -⟩ := mem_tensorEntries he
  obtain ⟨arg, harg, hadmits⟩ := forall₂_getElem? h.args hp
  rw [htraced] at hadmits
  obtain ⟨dims, rfl, hdims⟩ := hadmits
  have hshape : argShape args e.1 = dims := by rw [argShape, harg]
  rw [hshape]
  exact ⟨harg, hdims⟩

theorem Consistent.symInt (h : Consistent nonneg nodes env args) {e : String × Nat × SymExpr}
    (he : e ∈ symintEntries replaced nodes.zipIdx) :
    ∃ n, args[e.2.1]? = some (.int n) ∧ e.2.2.value env = some n ∧ -2 ^ 63 ≤ n ∧ n < 2 ^ 63 := by
  obtain ⟨p, hp, htraced⟩ := mem_symintEntries he
  obtain ⟨arg, harg, hadmits⟩ := forall₂_getElem? h.args hp
  rw [htraced] at hadmits
  obtain ⟨n, rfl, hn⟩ := hadmits
  exact ⟨n, harg, hn⟩

/-- The dims of the graph have the sizes of the buffers that are fed. -/
def Bound (f : Factory) (fed : List (Option Fed)) (dims : String → Int) : Prop :=
  ∀ (k : Nat) shape fd, f.graphInputs[k]? = some shape → fed[k]? = some (some fd) →
    List.Forall₂ (fun d n => Dim.eval dims d = n) shape fd.shape

end

/-! ## The factory -/

/-- The tensor inputs of a graph. -/
def entries (replaced : String → Bool) (nodes : List Placeholder) :
    List (Nat × String × List SymExpr) := tensorEntries replaced nodes.zipIdx

/-- The carriers of a graph. -/
def carried (replaced : String → Bool) (nodes : List Placeholder) : List (String × Nat) :=
  carrierItems (fun s => ((entrySources (entries replaced nodes)).lookup s).isSome) []
    (symintEntries replaced nodes.zipIdx)

/-- What the factory knows of the placeholders. -/
structure Built (nonneg replaced : String → Bool) (nodes : List Placeholder) (f : Factory) :
    Prop where
  graphInputs : f.graphInputs =
    ((entries replaced nodes).map fun e => declaredShape e.2.1 e.2.2) ++
      (carried replaced nodes).map fun i => carrierShape (carrierKind nonneg i.1) i.1
  plan : f.inputPlan = ((entries replaced nodes).map fun e => (.tensor, e.1)) ++
    (carried replaced nodes).map fun i => (carrierKind nonneg i.1, i.2)
  names : f.namesToInputIdx = (entries replaced nodes).zipIdx.map fun e => (e.1.2.1, e.2)
  carriers : f.carriers = ((carried replaced nodes).zipIdx (entries replaced nodes).length).map
    fun i => (i.1.1, carrierKind nonneg i.1.1, i.2)
  dims : ∀ s, f.dimSources.lookup s = (entrySources (entries replaced nodes)).lookup s
  args : ∀ s, f.symbolArgs.lookup s = (nodes.zipIdx.flatMap (symbolSources replaced)).lookup s

section
variable {nonneg replaced : String → Bool} {nodes : List Placeholder} {env : String → Int}
  {args : List Arg} {f : Factory}

theorem Built.of_create (hf : createFactory nonneg replaced nodes = some f) :
    Built nonneg replaced nodes f := by
  obtain ⟨g, hg, rfl⟩ := Option.map_eq_some_iff.mp hf
  have hhandled := Handled.placeholders hg
  have hgraph : g.graphInputs = (entries replaced nodes).map fun e => declaredShape e.2.1 e.2.2 :=
    hhandled.graphInputs
  have hlength : g.graphInputs.length = (entries replaced nodes).length := by
    rw [hgraph, List.length_map]
  have hdims : ∀ s, g.dimSources.lookup s = (entrySources (entries replaced nodes)).lookup s :=
    hhandled.dims
  have hseen : ∀ s, s ∈ ([] : List String) ↔ (g.carriers.lookup s).isSome := fun s => by
    rw [hhandled.carriers]
    exact iff_of_false List.not_mem_nil (fun h => nomatch h)
  have hcarried : Carried nonneg g _ _ := Carried.carriers_fold g.symintPlaceholders g hseen
  have hitems : carrierItems (fun s => (g.dimSources.lookup s).isSome) [] g.symintPlaceholders =
      carried replaced nodes := by
    have hknown : (fun s => (g.dimSources.lookup s).isSome) =
        fun s => ((entrySources (entries replaced nodes)).lookup s).isSome :=
      funext fun s => congrArg Option.isSome (hdims s)
    rw [hknown, hhandled.symints]
    rfl
  rw [hitems] at hcarried
  refine ⟨?_, ?_, ?_, ?_, fun s => ?_, fun s => ?_⟩
  · rw [hcarried.graphInputs, hgraph]
  · rw [hcarried.plan, hhandled.plan]
    rfl
  · rw [hcarried.names, hhandled.names]
    rfl
  · rw [hcarried.carriers, hhandled.carriers, hlength]
    rfl
  · rw [hcarried.dims, hdims]
  · rw [hcarried.args]
    exact hhandled.args s

/-! ## Feeding -/

theorem mem_carried {i : String × Nat} (h : i ∈ carried replaced nodes) :
    ∃ name, (name, i.2, SymExpr.symbol i.1) ∈ symintEntries replaced nodes.zipIdx :=
  (mem_carrierItems h).2

theorem Consistent.carrier (h : Consistent nonneg nodes env args) {i : String × Nat}
    (hi : i ∈ carried replaced nodes) :
    args[i.2]? = some (.int (env i.1)) ∧ (carrierKind nonneg i.1).Admits (env i.1) := by
  obtain ⟨name, hname⟩ := mem_carried hi
  obtain ⟨n, harg, hvalue, hlow, hhigh⟩ := h.symInt hname
  dsimp only at hvalue harg
  rw [SymExpr.value] at hvalue
  obtain rfl := Option.some.inj hvalue
  refine ⟨harg, ?_⟩
  unfold carrierKind
  split
  · rename_i hnonneg
    exact ⟨h.nonneg _ hnonneg, hhigh⟩
  · exact ⟨hlow, hhigh⟩

/-- One buffer for each input, in their order. -/
theorem planFeed_eq (h : Consistent nonneg nodes env args) (hb : Built nonneg replaced nodes f) :
    planFeed f.inputPlan args =
      ((entries replaced nodes).map fun e => some (.tensor e.1 (argShape args e.1))) ++
        (carried replaced nodes).map fun i =>
          some (.carrier (symintCarrier (carrierKind nonneg i.1) (env i.1))) := by
  rw [planFeed, hb.plan, List.map_append, List.map_map, List.map_map]
  refine congrArg₂ (· ++ ·) (List.map_congr_left fun e he => ?_) (List.map_congr_left fun i hi => ?_)
  · rw [Function.comp_apply, (h.tensor he).1]
    rfl
  · rw [Function.comp_apply, (h.carrier hi).1, Option.bind_some]
    unfold carrierKind
    split <;> rfl

theorem filterMap_zipIdx_congr {α β γ : Type} {R : α → β → Prop} {l : List α} {l' : List β}
    {F : α × Nat → Option γ} {G : β × Nat → Option γ} (h : List.Forall₂ R l l') (n : Nat)
    (hFG : ∀ k a b, l[k]? = some a → l'[k]? = some b → F (a, n + k) = G (b, n + k)) :
    (l.zipIdx n).filterMap F = (l'.zipIdx n).filterMap G := by
  induction h generalizing n with
  | nil => rfl
  | @cons x y l l' _ _ ih =>
      have hhead : F (x, n) = G (y, n) := hFG 0 x y rfl rfl
      have htail := ih (n + 1) fun k a b ha hb => by
        have hk := hFG (k + 1) a b ha hb
        rwa [Nat.add_comm k 1, ← Nat.add_assoc] at hk
      rw [List.zipIdx_cons, List.zipIdx_cons, List.filterMap_cons, List.filterMap_cons, hhead, htail]

/-- With tensor inputs only, the tensors among the arguments are what the plan feeds. -/
theorem feed_eq (h : Consistent nonneg nodes env args) (hb : Built nonneg replaced nodes f)
    (hreplaced : ∀ p ∈ nodes, replaced p.name = false) : feed f args = planFeed f.inputPlan args := by
  unfold feed
  split
  · rename_i hall
    have hnone : carried replaced nodes = [] := by
      refine List.eq_nil_iff_forall_not_mem.mpr fun i hi => ?_
      have hkind : carrierKind nonneg i.1 = .tensor := by
        refine of_decide_eq_true (List.all_eq_true.mp hall (carrierKind nonneg i.1, i.2) ?_)
        rw [hb.plan]
        exact List.mem_append_right _ (List.mem_map_of_mem hi)
      unfold carrierKind at hkind
      split at hkind <;> exact nomatch hkind
    rw [planFeed_eq h hb, hnone, List.map_nil, List.append_nil, entries, tensorEntries,
      List.map_filterMap]
    refine (filterMap_zipIdx_congr h.args 0 fun k p arg hp harg => ?_).symm
    obtain ⟨arg', harg', hadmits⟩ := forall₂_getElem? h.args hp
    obtain rfl := Option.some.inj (harg.symm.trans harg')
    have hname := hreplaced p (List.mem_of_getElem? hp)
    rw [Nat.zero_add]
    dsimp only
    cases htraced : p.traced with
    | tensor shape =>
        rw [htraced] at hadmits
        obtain ⟨dims, rfl, -⟩ := hadmits
        have hshape : argShape args k = dims := by rw [argShape, harg]
        simp [hname, hshape]
    | symInt expr =>
        rw [htraced] at hadmits
        obtain ⟨n, rfl, -⟩ := hadmits
        rfl
    | unsupported =>
        rw [htraced] at hadmits
        obtain rfl : arg = .other := hadmits
        rfl
    | other =>
        rw [htraced] at hadmits
        obtain rfl : arg = .other := hadmits
        rfl
  · rfl

/-! ## Symbols -/

/-- Where a symbol is a dim of a tensor input, the dim is its own and has its value. -/
theorem dim_of_entry (h : Consistent nonneg nodes env args) (hb : Built nonneg replaced nodes f)
    (hnames : (nodes.map Placeholder.name).Nodup) {dims : String → Int}
    (hdims : Bound f (planFeed f.inputPlan args) dims) {s name : String} {dim : Nat}
    (hs : (s, name, dim) ∈ entrySources (entries replaced nodes)) :
    ∃ d, ((f.namesToInputIdx.lookup name).bind fun idx => (f.inputShape idx)[dim]?) = some d ∧
      d.eval dims = env s := by
  obtain ⟨e, he, hsym⟩ := List.mem_flatMap.mp hs
  obtain ⟨⟨s', dim'⟩, hshape, heq⟩ := List.mem_map.mp hsym
  obtain ⟨rfl, hrest⟩ := Prod.mk.inj heq
  obtain ⟨rfl, rfl⟩ := Prod.mk.inj hrest
  obtain ⟨k, hk⟩ := List.getElem?_of_mem he
  obtain ⟨idx, hidx⟩ := exists_lookup (d := f.namesToInputIdx) (s := e.2.1) (v := k) (by
    rw [hb.names]
    exact List.mem_map.mpr ⟨(e, k), List.mem_zipIdx_iff_getElem?.mpr hk, rfl⟩)
  -- names are unique, so it is the same input
  obtain ⟨e', he', hname⟩ : ∃ e', (entries replaced nodes)[idx]? = some e' ∧ e'.2.1 = e.2.1 := by
    have hmem := mem_of_lookup hidx
    rw [hb.names] at hmem
    obtain ⟨⟨e', k'⟩, hplace, heq⟩ := List.mem_map.mp hmem
    obtain ⟨hname, rfl⟩ := Prod.mk.inj heq
    exact ⟨e', List.mem_zipIdx_iff_getElem?.mp hplace, hname⟩
  have hsame : e' = e := by
    obtain ⟨p, hp, hpname, hptraced, -⟩ := mem_tensorEntries he
    obtain ⟨p', hp', hpname', hptraced', -⟩ := mem_tensorEntries (List.mem_of_getElem? he')
    have hindex : e'.1 = e.1 := by
      obtain ⟨hlt, hget⟩ := List.getElem?_eq_some_iff.mp hp
      obtain ⟨hlt', hget'⟩ := List.getElem?_eq_some_iff.mp hp'
      have hat : (nodes.map Placeholder.name)[e'.1]? = (nodes.map Placeholder.name)[e.1]? := by
        rw [List.getElem?_map, List.getElem?_map, hp, hp', Option.map_some, Option.map_some, hpname,
          hpname', hname]
      exact ((List.getElem?_inj (by rwa [List.length_map]) hnames).mp hat.symm).symm
    rw [hindex, hp] at hp'
    obtain rfl := Option.some.inj hp'
    have hshapes : e'.2.2 = e.2.2 := Traced.tensor.inj (hptraced'.symm.trans hptraced)
    exact Prod.ext hindex (Prod.ext hname hshapes)
  subst hsame
  have hdim : e'.2.2[dim']? = some (.symbol s') := mem_shapeSymbols.mp hshape
  have hgraph : f.graphInputs[idx]? = some (declaredShape e'.2.1 e'.2.2) := by
    obtain ⟨hlt, -⟩ := List.getElem?_eq_some_iff.mp he'
    rw [hb.graphInputs, List.getElem?_append_left (by rwa [List.length_map]), List.getElem?_map, he']
    rfl
  have hfed : (planFeed f.inputPlan args)[idx]? =
      some (some (.tensor e'.1 (argShape args e'.1))) := by
    obtain ⟨hlt, -⟩ := List.getElem?_eq_some_iff.mp he'
    rw [planFeed_eq h hb, List.getElem?_append_left (by rwa [List.length_map]), List.getElem?_map,
      he']
    rfl
  have hdeclared : (declaredShape e'.2.1 e'.2.2)[dim']? = some (.symbolic s') := by
    rw [declaredShape, List.getElem?_map, List.getElem?_zipIdx, hdim]
    rfl
  have hinput : f.inputShape idx = declaredShape e'.2.1 e'.2.2 := by
    rw [Factory.inputShape, List.getD_eq_getElem?_getD, hgraph]
    rfl
  refine ⟨.symbolic s', by rw [hidx, Option.bind_some, hinput, hdeclared], ?_⟩
  obtain ⟨n, hn, heval⟩ := forall₂_getElem? (hdims idx _ _ hgraph hfed) hdeclared
  obtain ⟨m, hm, hvalue⟩ := forall₂_getElem? (h.tensor he).2 hdim
  rw [SymExpr.value] at hvalue
  have hshapes : (Fed.tensor e'.1 (argShape args e'.1)).shape[dim']? = some (m : Int) := by
    rw [Fed.shape, List.getElem?_map, hm]
    rfl
  rw [heval]
  exact (Option.some.inj (hn.symm.trans hshapes)).trans (Option.some.inj hvalue).symm

/-- A carrier holds the value of its symbol. -/
theorem dim_of_carrier (h : Consistent nonneg nodes env args) (hb : Built nonneg replaced nodes f)
    {dims : String → Int} (hdims : Bound f (planFeed f.inputPlan args) dims) {s : String}
    {kind : GraphInputKind} {idx : Nat} (hs : f.carriers.lookup s = some (kind, idx)) :
    (carrierDim kind (f.inputShape idx)).eval dims = env s := by
  have hmem := mem_of_lookup hs
  rw [hb.carriers] at hmem
  obtain ⟨⟨i, k⟩, hplace, heq⟩ := List.mem_map.mp hmem
  obtain ⟨rfl, hrest⟩ := Prod.mk.inj heq
  obtain ⟨rfl, rfl⟩ := Prod.mk.inj hrest
  obtain ⟨hle, hget⟩ := List.mem_zipIdx_iff_le_and_getElem?_sub.mp hplace
  dsimp only at hle hget ⊢
  have hgraph : f.graphInputs[k]? = some (carrierShape (carrierKind nonneg i.1) i.1) := by
    rw [hb.graphInputs, List.getElem?_append_right (by rwa [List.length_map]), List.length_map,
      List.getElem?_map, hget]
    rfl
  have hfed : (planFeed f.inputPlan args)[k]? =
      some (some (.carrier (symintCarrier (carrierKind nonneg i.1) (env i.1)))) := by
    rw [planFeed_eq h hb, List.getElem?_append_right (by rwa [List.length_map]), List.length_map,
      List.getElem?_map, hget]
    rfl
  have hinput : f.inputShape k = carrierShape (carrierKind nonneg i.1) i.1 := by
    rw [Factory.inputShape, List.getD_eq_getElem?_getD, hgraph]
    rfl
  rw [hinput]
  exact eval_carrierDim (hdims k _ _ hgraph hfed)

/-- The dims of all symbols have their values. -/
theorem eval_symbolDims (h : Consistent nonneg nodes env args) (hb : Built nonneg replaced nodes f)
    (hnames : (nodes.map Placeholder.name).Nodup) {dims : String → Int}
    (hdims : Bound f (planFeed f.inputPlan args) dims) {s : String} {d : Dim}
    (hd : f.symbolDims s = some d) : d.eval dims = env s := by
  unfold Factory.symbolDims at hd
  split at hd
  · rename_i kind idx hcarrier
    obtain rfl := Option.some.inj hd
    exact dim_of_carrier h hb hdims hcarrier
  · obtain ⟨⟨name, dim⟩, hsource, hd⟩ := Option.bind_eq_some_iff.mp hd
    rw [hb.dims] at hsource
    obtain ⟨d', hd', heval⟩ := dim_of_entry h hb hnames hdims (mem_of_lookup hsource)
    obtain rfl := Option.some.inj (hd.symm.trans hd')
    exact heval

/-- Every symbol that an argument gives has a dim, and the value that the call reads. -/
theorem symbol_value (h : Consistent nonneg nodes env args) (hb : Built nonneg replaced nodes f)
    (hnames : (nodes.map Placeholder.name).Nodup) {dims : String → Int}
    (hdims : Bound f (planFeed f.inputPlan args) dims) {s : String}
    (hs : (f.symbolArgs.lookup s).isSome) :
    f.symbolValue args s = some (env s) ∧ (f.symbolDims s).isSome := by
  obtain ⟨⟨a, o⟩, hsource⟩ := Option.isSome_iff_exists.mp hs
  have hmem : (s, a, o) ∈ nodes.zipIdx.flatMap (symbolSources replaced) := by
    rw [hb.args] at hsource
    exact mem_of_lookup hsource
  have hentry : ∀ {name dim}, (s, name, dim) ∈ entrySources (entries replaced nodes) →
      (f.symbolDims s).isSome := by
    intro name dim hin
    unfold Factory.symbolDims
    split
    · rfl
    · obtain ⟨⟨name', dim'⟩, hlookup⟩ := exists_lookup hin
      obtain ⟨d, hd, -⟩ := dim_of_entry h hb hnames hdims (mem_of_lookup hlookup)
      rw [hb.dims, hlookup, Option.bind_some, hd]
      rfl
  unfold Factory.symbolValue
  rw [hsource, Option.bind_some]
  obtain ⟨e, he, rfl, dim, rfl, hdim⟩ | ⟨rfl, name, hname⟩ := mem_symbolSources hmem
  · obtain ⟨harg, hshape⟩ := h.tensor he
    obtain ⟨m, hm, hvalue⟩ := forall₂_getElem? hshape (mem_shapeSymbols.mp hdim)
    rw [SymExpr.value] at hvalue
    refine ⟨?_, hentry (List.mem_flatMap.mpr ⟨e, he, List.mem_map.mpr ⟨_, hdim, rfl⟩⟩)⟩
    dsimp only
    rw [harg]
    dsimp only
    rw [hm, Option.map_some]
    exact hvalue.symm
  · obtain ⟨n, harg, hvalue, -⟩ := h.symInt hname
    dsimp only at harg hvalue ⊢
    rw [SymExpr.value] at hvalue
    refine ⟨by rw [harg]; exact hvalue.symm, ?_⟩
    cases hknown : (entrySources (entries replaced nodes)).lookup s with
    | some source => exact hentry (mem_of_lookup hknown)
    | none =>
        -- no tensor has it: it has a carrier
        obtain ⟨a', ha'⟩ : ∃ a', (s, a') ∈ carried replaced nodes :=
          exists_carrierItem hname (by rw [hknown]; rfl) List.not_mem_nil
        obtain ⟨k, hk⟩ := List.getElem?_of_mem ha'
        obtain ⟨carrier, hcarrier⟩ := exists_lookup (d := f.carriers) (s := s)
          (v := (carrierKind nonneg s, (entries replaced nodes).length + k)) (by
            rw [hb.carriers]
            refine List.mem_map.mpr ⟨((s, a'), _), ?_, rfl⟩
            refine List.mem_zipIdx_iff_le_and_getElem?_sub.mpr ⟨Nat.le_add_right _ _, ?_⟩
            rw [Nat.add_sub_cancel_left]
            exact hk)
        unfold Factory.symbolDims
        rw [hcarrier]
        rfl

/-- A graph declares its tensor inputs and then its carriers, each is fed the buffer of its
argument in that order, and inside the graph every symbol of the call and every expression that is
lowered has its value.  A graph that is called has no replaced inputs; an exported one is fed by
its plan. -/
theorem symint_lowering_exact (hf : createFactory nonneg replaced nodes = some f)
    (hnames : (nodes.map Placeholder.name).Nodup) (h : Consistent nonneg nodes env args) :
    f.graphInputs = ((entries replaced nodes).map fun e => declaredShape e.2.1 e.2.2) ++
        ((carried replaced nodes).map fun i => carrierShape (carrierKind nonneg i.1) i.1) ∧
      planFeed f.inputPlan args =
        ((entries replaced nodes).map fun e => some (.tensor e.1 (argShape args e.1))) ++
          ((carried replaced nodes).map fun i =>
            some (.carrier (symintCarrier (carrierKind nonneg i.1) (env i.1)))) ∧
      ((∀ p ∈ nodes, replaced p.name = false) → feed f args = planFeed f.inputPlan args) ∧
      (∀ (kind : GraphInputKind) (arg : Int) (s : String), kind.Admits arg →
        (∀ n ∈ symintCarrier kind arg, 0 ≤ n ∧ n < 2 ^ 63) ∧
          ∀ dims, List.Forall₂ (fun d n => Dim.eval dims d = n) (carrierShape kind s)
            (symintCarrier kind arg) → (carrierDim kind (carrierShape kind s)).eval dims = arg) ∧
      (∀ i ∈ carried replaced nodes, (carrierKind nonneg i.1).Admits (env i.1)) ∧
      ∀ dims, Bound f (planFeed f.inputPlan args) dims →
        (∀ s, (f.symbolArgs.lookup s).isSome → ∃ d, f.symbolDims s = some d ∧
          d.eval dims = env s ∧ f.symbolValue args s = some (env s)) ∧
        ∀ e, SymExpr.Supported f.symbolDims e → ∃ d, toDim f.symbolDims e = .ok d ∧
          ∀ v, e.value env = some v → d.eval dims = v := by
  have hb := Built.of_create hf
  refine ⟨hb.graphInputs, planFeed_eq h hb, feed_eq h hb, fun kind arg s hkind =>
    ⟨symintCarrier_fits hkind, fun dims => eval_carrierDim⟩,
    fun i hi => (h.carrier hi).2, fun dims hdims => ⟨fun s hs => ?_, fun e he => ?_⟩⟩
  · obtain ⟨hvalue, hdim⟩ := symbol_value h hb hnames hdims hs
    obtain ⟨d, hd⟩ := Option.isSome_iff_exists.mp hdim
    exact ⟨d, hd, eval_symbolDims h hb hnames hdims hd, hvalue⟩
  · obtain ⟨d, hd⟩ := (exists_toDim e).mpr he
    exact ⟨d, hd, fun v hv =>
      eval_toDim (fun s d' hs => eval_symbolDims h hb hnames hdims hs) e hd hv⟩

end

/-! ## A negative SymInt -/

/-- A tensor of a dynamic size, and an integer. -/
def sampleNodes : List Placeholder :=
  [⟨"x", .tensor [.symbol "s0", .int 3]⟩, ⟨"u", .symInt (.symbol "u0")⟩]

def sampleEnv (s : String) : Int := if s = "u0" then -5 else 2

def sampleArgs : List Arg := [.tensor [2, 3], .int (-5)]

/-- The dims of the graph at that call. -/
def sampleDims (s : String) : Int :=
  if s = "u0" ++ "_pos" then 0 else if s = "u0" ++ "_neg_a" then 3 else 2

/-- `u0 // s0` at `u0 = -5` and `s0 = 2`. -/
theorem symint_lowering_exact_negative :
    ∃ f, createFactory (fun s => s = "s0") (fun _ => false) sampleNodes = some f ∧
      feed f sampleArgs = planFeed f.inputPlan sampleArgs ∧
      ∃ d, toDim f.symbolDims (.floorDiv (.symbol "u0") (.symbol "s0")) = .ok d ∧
        d.eval sampleDims = -3 := by
  obtain ⟨f, hf⟩ : ∃ f, createFactory (fun s => s = "s0") (fun _ => false) sampleNodes = some f :=
    ⟨_, rfl⟩
  have hconsistent : Consistent (fun s => decide (s = "s0")) sampleNodes sampleEnv sampleArgs := by
    refine ⟨.cons ⟨[2, 3], rfl, .cons ?_ (.cons ?_ .nil)⟩
      (.cons ⟨-5, rfl, ?_, by decide, by decide⟩ .nil), fun s hs => ?_⟩
    · rw [SymExpr.value]
      rfl
    · rw [SymExpr.value]
      rfl
    · rw [SymExpr.value]
      rfl
    · rw [of_decide_eq_true hs]
      decide
  obtain ⟨hinputs, hfed, hfeed, -, -, hdims⟩ :=
    symint_lowering_exact hf (by decide) hconsistent
  have hbound : Bound f (planFeed f.inputPlan sampleArgs) sampleDims := by
    rw [hfed, Bound, hinputs]
    intro k shape fd hshape hfd
    match k with
    | 0 =>
        obtain rfl := Option.some.inj hshape
        obtain rfl := Option.some.inj (Option.some.inj hfd)
        exact .cons (by decide) (.cons rfl .nil)
    | 1 =>
        obtain rfl := Option.some.inj hshape
        obtain rfl := Option.some.inj (Option.some.inj hfd)
        exact .cons (by decide) (.cons (by decide)
          (.cons (by decide) (.cons rfl .nil)))
    | k + 2 => exact nomatch hshape
  obtain ⟨hsymbols, hexprs⟩ := hdims sampleDims hbound
  obtain ⟨d0, hd0, -⟩ := hsymbols "s0" (by rw [← Option.some.inj hf]; decide)
  obtain ⟨d1, hd1, -⟩ := hsymbols "u0" (by rw [← Option.some.inj hf]; decide)
  obtain ⟨d, hd, hvalue⟩ := hexprs (.floorDiv (.symbol "u0") (.symbol "s0")) (by
    rw [SymExpr.Supported, SymExpr.Supported, SymExpr.Supported, hd0, hd1]
    exact ⟨rfl, rfl⟩)
  refine ⟨f, hf, hfeed fun _ _ => rfl, d, hd, hvalue (-3) ?_⟩
  rw [SymExpr.value, SymExpr.value, SymExpr.value]
  decide

end TorchMojoBackend.Compiler
