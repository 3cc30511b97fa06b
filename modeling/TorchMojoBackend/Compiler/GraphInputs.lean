/-
  `Compiler.GraphInputs`: the inputs of a graph, and what feeds them.

  Source: torch_compile_backend/compiler.py (`_GraphFactory.handle_placeholder`,
  `_add_symint_carriers`, `initialize_graph`, `BaseMaxCompiler.__call__`, `_symbol_values`,
  `_graph_input`, `_symint_carrier`).

  Dicts are lists of keys and values.  A tensor input is declared with its static dims, its
  symbols, and a fresh name for every other dim; a symbol that no tensor input has as a dim gets a
  carrier, an empty buffer whose shape holds it.
-/
import Mathlib.Data.List.Forall2
import TorchMojoBackend.Compiler.SymInt

set_option autoImplicit false

namespace TorchMojoBackend.Compiler

inductive GraphInputKind where
  | tensor | size | signed
  deriving DecidableEq

/-! ## Carriers -/

/-- The shape of a carrier: `_graph_input` of an integer. -/
def symintCarrier : GraphInputKind → Int → List Int
  | .size, arg => [arg, 0]
  | _, arg =>
      if 0 ≤ arg then [arg, 0, 0, 0]
      else
        let neg := -arg
        [0, neg - neg.fdiv 2, neg.fdiv 2, 0]

/-- The declared shape of a carrier. -/
def carrierShape : GraphInputKind → String → List Dim
  | .size, s => [.symbolic s, .static 0]
  | _, s => [.symbolic (s ++ "_pos"), .symbolic (s ++ "_neg_a"), .symbolic (s ++ "_neg_b"), .static 0]

/-- The dim that a carrier of a declared shape holds. -/
def carrierDim : GraphInputKind → List Dim → Dim
  | .size, shape => shape.getD 0 (.static 0)
  | _, shape => .sub (.sub (shape.getD 0 (.static 0)) (shape.getD 1 (.static 0)))
      (shape.getD 2 (.static 0))

/-- The arguments that a kind is for. -/
def GraphInputKind.Admits : GraphInputKind → Int → Prop
  | .size, arg => 0 ≤ arg ∧ arg < 2 ^ 63
  | _, arg => -2 ^ 63 ≤ arg ∧ arg < 2 ^ 63

/-- Every dim of a carrier fits. -/
theorem symintCarrier_fits {kind : GraphInputKind} {arg : Int} (h : kind.Admits arg) :
    ∀ n ∈ symintCarrier kind arg, 0 ≤ n ∧ n < 2 ^ 63 := by
  have hsigned : -2 ^ 63 ≤ arg ∧ arg < 2 ^ 63 → ∀ n ∈ symintCarrier .signed arg,
      0 ≤ n ∧ n < 2 ^ 63 := by
    intro hrange n hn
    unfold symintCarrier at hn
    dsimp only at hn
    rw [Int.fdiv_eq_ediv_of_nonneg _ (by decide)] at hn
    split at hn
    · simp only [List.mem_cons, List.not_mem_nil, or_false] at hn
      omega
    · simp only [List.mem_cons, List.not_mem_nil, or_false] at hn
      omega
  cases kind with
  | size =>
      intro n hn
      simp only [symintCarrier, List.mem_cons, List.not_mem_nil, or_false] at hn
      obtain ⟨hlow, hhigh⟩ : 0 ≤ arg ∧ arg < 2 ^ 63 := h
      omega
  | signed => exact hsigned h
  | tensor => exact hsigned h

/-- The dim of a carrier is the argument that it carries. -/
theorem eval_carrierDim {kind : GraphInputKind} {arg : Int} {s : String} {dims : String → Int}
    (h : List.Forall₂ (fun d n => Dim.eval dims d = n) (carrierShape kind s)
      (symintCarrier kind arg)) : (carrierDim kind (carrierShape kind s)).eval dims = arg := by
  have hsigned : List.Forall₂ (fun d n => Dim.eval dims d = n) (carrierShape .signed s)
      (symintCarrier .signed arg) →
      dims (s ++ "_pos") - dims (s ++ "_neg_a") - dims (s ++ "_neg_b") = arg := by
    unfold carrierShape symintCarrier
    dsimp only
    intro h
    split at h
    · simp only [List.forall₂_cons, Dim.eval] at h
      omega
    · simp only [List.forall₂_cons, Dim.eval] at h
      omega
  cases kind with
  | size => exact (List.forall₂_cons.mp h).1
  | signed => exact hsigned h
  | tensor => exact hsigned h

/-! ## The factory -/

inductive Traced where
  | symInt (expr : SymExpr)
  /-- A `SymFloat` or `SymBool`. -/
  | unsupported
  | tensor (shape : List SymExpr)
  | other

structure Placeholder where
  name : String
  traced : Traced

/-- `dict.setdefault` -/
def setDefault {β : Type} (d : List (String × β)) (item : String × β) : List (String × β) :=
  if (d.lookup item.1).isSome then d else d ++ [item]

structure Factory where
  nPlaceholders : Nat
  graphInputs : List (List Dim)
  namesToInputIdx : List (String × Nat)
  inputPlan : List (GraphInputKind × Nat)
  symintPlaceholders : List (String × Nat × SymExpr)
  dimSources : List (String × String × Nat)
  carriers : List (String × GraphInputKind × Nat)
  symbolArgs : List (String × Nat × Option Nat)
  expressionDims : List (String × List (Nat × SymExpr))
  /-- The part of the tensor book that placeholders set. -/
  constants : List (String × Int)

def Factory.empty : Factory := ⟨0, [], [], [], [], [], [], [], [], []⟩

/-- The declared dim of a traced one. -/
def declaredDim (name : String) (dimIdx : Nat) : SymExpr → Dim
  | .int n => .static n
  | .symbol s => .symbolic s
  | _ => .symbolic (name ++ "_dim" ++ toString dimIdx)

/-- The declared shape of a tensor input. -/
def declaredShape (name : String) (shape : List SymExpr) : List Dim :=
  shape.zipIdx.map fun d => declaredDim name d.2 d.1

/-- The symbols among the dims of a tensor. -/
def shapeSymbols (shape : List SymExpr) : List (String × Nat) :=
  shape.zipIdx.filterMap fun d =>
    match d.1 with
    | .symbol s => some (s, d.2)
    | _ => none

/-- The dims of a tensor that are expressions. -/
def shapeExpressions (shape : List SymExpr) : List (Nat × SymExpr) :=
  shape.zipIdx.filterMap fun d =>
    match d.1 with
    | .int _ => none
    | .symbol _ => none
    | e => some (d.2, e)

/-- A tensor placeholder. -/
def Factory.addTensor (f : Factory) (name : String) (shape : List SymExpr) : Factory :=
  let argIndex := f.nPlaceholders
  { f with
    nPlaceholders := f.nPlaceholders + 1
    graphInputs := f.graphInputs ++ [declaredShape name shape]
    namesToInputIdx := f.namesToInputIdx ++ [(name, f.graphInputs.length)]
    inputPlan := f.inputPlan ++ [(.tensor, argIndex)]
    dimSources := ((shapeSymbols shape).map fun d => (d.1, name, d.2)).foldl setDefault f.dimSources
    symbolArgs := ((shapeSymbols shape).map fun d => (d.1, argIndex, some d.2)).foldl setDefault
      f.symbolArgs
    expressionDims :=
      if (shapeExpressions shape).isEmpty then f.expressionDims
      else f.expressionDims ++ [(name, shapeExpressions shape)] }

/-- A SymInt placeholder. -/
def Factory.addSymInt (f : Factory) (name : String) (expr : SymExpr) : Factory :=
  let argIndex := f.nPlaceholders
  match expr with
  | .integer n =>
      { f with nPlaceholders := f.nPlaceholders + 1, constants := f.constants ++ [(name, n)] }
  | .symbol s =>
      { f with
        nPlaceholders := f.nPlaceholders + 1
        symbolArgs := setDefault f.symbolArgs (s, argIndex, none)
        symintPlaceholders := f.symintPlaceholders ++ [(name, argIndex, .symbol s)] }
  | e =>
      { f with
        nPlaceholders := f.nPlaceholders + 1
        symintPlaceholders := f.symintPlaceholders ++ [(name, argIndex, e)] }

/-- `handle_placeholder`; no result is a `MojoCompilerError`. -/
def Factory.handlePlaceholder (replaced : String → Bool) (f : Factory) (p : Placeholder) :
    Option Factory :=
  if replaced p.name then some { f with nPlaceholders := f.nPlaceholders + 1 }
  else
    match p.traced with
    | .symInt expr => some (f.addSymInt p.name expr)
    | .unsupported => none
    | .tensor shape => some (f.addTensor p.name shape)
    | .other => some { f with nPlaceholders := f.nPlaceholders + 1 }

/-- One step of `_add_symint_carriers`; `nonneg` says that the guards keep a symbol from being
negative. -/
def Factory.addCarrier (nonneg : String → Bool) (f : Factory) (item : String × Nat × SymExpr) :
    Factory :=
  match item.2.2 with
  | .symbol s =>
      if (f.dimSources.lookup s).isSome ∨ (f.carriers.lookup s).isSome then f
      else
        let kind := if nonneg s then .size else .signed
        { f with
          graphInputs := f.graphInputs ++ [carrierShape kind s]
          inputPlan := f.inputPlan ++ [(kind, item.2.1)]
          carriers := f.carriers ++ [(s, kind, f.graphInputs.length)] }
  | _ => f

/-- The placeholders of a graph, then `_add_symint_carriers`. -/
def createFactory (nonneg replaced : String → Bool) (nodes : List Placeholder) : Option Factory :=
  (nodes.foldlM (Factory.handlePlaceholder replaced) Factory.empty).map fun f =>
    f.symintPlaceholders.foldl (Factory.addCarrier nonneg) f

/-- The dim of an input of the graph. -/
def Factory.inputShape (f : Factory) (idx : Nat) : List Dim := f.graphInputs.getD idx []

/-- `symbol_dims` after `initialize_graph`. -/
def Factory.symbolDims (f : Factory) (s : String) : Option Dim :=
  match f.carriers.lookup s with
  | some (kind, idx) => some (carrierDim kind (f.inputShape idx))
  | none =>
      (f.dimSources.lookup s).bind fun source =>
        (f.namesToInputIdx.lookup source.1).bind fun idx => (f.inputShape idx)[source.2]?

/-! ## Calls -/

/-- An argument of a call: a tensor of a shape, an integer, or anything else. -/
inductive Arg where
  | tensor (shape : List Nat)
  | int (n : Int)
  | other

/-- A buffer that is fed: that of a tensor argument, or a carrier. -/
inductive Fed where
  | tensor (argIndex : Nat) (shape : List Nat)
  | carrier (shape : List Int)

def Fed.shape : Fed → List Int
  | .tensor _ shape => shape.map Int.ofNat
  | .carrier shape => shape

/-- `_graph_input`; no result is a failed assertion. -/
def graphInput (kind : GraphInputKind) (argIndex : Nat) : Arg → Option Fed
  | .tensor shape => if kind = .tensor then some (.tensor argIndex shape) else none
  | .int n => if kind = .tensor then none else some (.carrier (symintCarrier kind n))
  | .other => none

/-- The feeding by `input_plan`. -/
def planFeed (plan : List (GraphInputKind × Nat)) (args : List Arg) : List (Option Fed) :=
  plan.map fun item => (args[item.2]?).bind (graphInput item.1 item.2)

/-- The feeding of a graph with tensor inputs only. -/
def tensorFeed (args : List Arg) : List (Option Fed) :=
  args.zipIdx.filterMap fun a =>
    match a.1 with
    | .tensor shape => some (some (.tensor a.2 shape))
    | _ => none

/-- What `__call__` feeds. -/
def feed (f : Factory) (args : List Arg) : List (Option Fed) :=
  if f.inputPlan.all fun item => item.1 = .tensor then tensorFeed args
  else planFeed f.inputPlan args

/-- `_symbol_values` -/
def Factory.symbolValue (f : Factory) (args : List Arg) (s : String) : Option Int :=
  (f.symbolArgs.lookup s).bind fun source =>
    match args[source.1]?, source.2 with
    | some (.tensor shape), some dim => (shape[dim]?).map Int.ofNat
    | some (.int n), none => some n
    | _, _ => none

/-- An argument that the trace and its guards admit. -/
def Traced.Admits (env : String → Int) : Traced → Arg → Prop
  | .symInt expr, arg => ∃ n, arg = .int n ∧ expr.value env = some n ∧ -2 ^ 63 ≤ n ∧ n < 2 ^ 63
  | .tensor shape, arg => ∃ dims : List Nat, arg = .tensor dims ∧
      List.Forall₂ (fun e (d : Nat) => SymExpr.value env e = some (d : Int)) shape dims
  | _, arg => arg = .other

/-- Arguments of a call that the trace and its guards admit, with values of the symbols. -/
structure Consistent (nonneg : String → Bool) (nodes : List Placeholder) (env : String → Int)
    (args : List Arg) : Prop where
  args : List.Forall₂ (fun p a => p.traced.Admits env a) nodes args
  nonneg : ∀ s, nonneg s = true → 0 ≤ env s

/-! ## The factory of a list of placeholders -/

/-- The tensor inputs among placeholders: argument index, name and traced shape. -/
def tensorEntries (replaced : String → Bool) (nodes : List (Placeholder × Nat)) :
    List (Nat × String × List SymExpr) :=
  nodes.filterMap fun node =>
    match node.1.traced with
    | .tensor shape => if replaced node.1.name then none else some (node.2, node.1.name, shape)
    | _ => none

/-- The symbolic SymInt inputs among placeholders. -/
def symintEntries (replaced : String → Bool) (nodes : List (Placeholder × Nat)) :
    List (String × Nat × SymExpr) :=
  nodes.filterMap fun node =>
    match node.1.traced with
    | .symInt (.integer _) => none
    | .symInt expr => if replaced node.1.name then none else some (node.1.name, node.2, expr)
    | _ => none

/-- Where the symbols of a placeholder are in the arguments. -/
def symbolSources (replaced : String → Bool) (node : Placeholder × Nat) :
    List (String × Nat × Option Nat) :=
  if replaced node.1.name then []
  else
    match node.1.traced with
    | .tensor shape => (shapeSymbols shape).map fun d => (d.1, node.2, some d.2)
    | .symInt (.symbol s) => [(s, node.2, none)]
    | _ => []

theorem lookup_setDefault {β : Type} (d : List (String × β)) (item : String × β) (s : String) :
    (setDefault d item).lookup s = (d ++ [item]).lookup s := by
  unfold setDefault
  split
  · rename_i h
    rw [List.lookup_append]
    by_cases hs : s = item.1
    · subst hs
      obtain ⟨v, hv⟩ := Option.isSome_iff_exists.mp h
      rw [hv]
      rfl
    · have hnone : ([item].lookup s) = none := by
        rw [List.lookup_cons, beq_false_of_ne hs]
        rfl
      rw [hnone, Option.or_none]
  · rfl

/-- A dict that `setdefault` builds has the first value of every key. -/
theorem lookup_setDefaults {β : Type} (items d : List (String × β)) (s : String) :
    (items.foldl setDefault d).lookup s = (d ++ items).lookup s := by
  induction items generalizing d with
  | nil => rw [List.foldl_nil, List.append_nil]
  | cons item items ih =>
      rw [List.foldl_cons, ih, List.lookup_append, lookup_setDefault, ← List.lookup_append,
        List.append_assoc]
      rfl

/-- Where the symbols of tensor inputs come from. -/
def entrySources (entries : List (Nat × String × List SymExpr)) : List (String × String × Nat) :=
  entries.flatMap fun e => (shapeSymbols e.2.2).map fun d => (d.1, e.2.1, d.2)

/-- What handling some placeholders adds to the factory. -/
structure Handled (replaced : String → Bool) (f g : Factory) (nodes : List (Placeholder × Nat)) :
    Prop where
  count : g.nPlaceholders = f.nPlaceholders + nodes.length
  graphInputs : g.graphInputs = f.graphInputs ++
    (tensorEntries replaced nodes).map fun e => declaredShape e.2.1 e.2.2
  names : g.namesToInputIdx = f.namesToInputIdx ++
    ((tensorEntries replaced nodes).zipIdx f.graphInputs.length).map fun e => (e.1.2.1, e.2)
  plan : g.inputPlan = f.inputPlan ++
    (tensorEntries replaced nodes).map fun e => (.tensor, e.1)
  symints : g.symintPlaceholders = f.symintPlaceholders ++ symintEntries replaced nodes
  dims : ∀ s, g.dimSources.lookup s =
    (f.dimSources ++ entrySources (tensorEntries replaced nodes)).lookup s
  args : ∀ s, g.symbolArgs.lookup s =
    (f.symbolArgs ++ nodes.flatMap (symbolSources replaced)).lookup s
  carriers : g.carriers = f.carriers

theorem lookup_append_congr {β : Type} {d d' e : List (String × β)} {s : String}
    (h : d.lookup s = d'.lookup s) : (d ++ e).lookup s = (d' ++ e).lookup s := by
  rw [List.lookup_append, List.lookup_append, h]

section
variable {replaced : String → Bool} {f g k : Factory} {nodes nodes' : List (Placeholder × Nat)}

theorem Handled.refl (f : Factory) : Handled replaced f f [] where
  count := rfl
  graphInputs := (List.append_nil _).symm
  names := (List.append_nil _).symm
  plan := (List.append_nil _).symm
  symints := (List.append_nil _).symm
  dims := fun s => congrArg (List.lookup s) (List.append_nil _).symm
  args := fun s => congrArg (List.lookup s) (List.append_nil _).symm
  carriers := rfl

theorem Handled.trans (h : Handled replaced f g nodes) (h' : Handled replaced g k nodes') :
    Handled replaced f k (nodes ++ nodes') := by
  have hentries : tensorEntries replaced (nodes ++ nodes') =
      tensorEntries replaced nodes ++ tensorEntries replaced nodes' := List.filterMap_append
  have hsymints : symintEntries replaced (nodes ++ nodes') =
      symintEntries replaced nodes ++ symintEntries replaced nodes' := List.filterMap_append
  have hlength : g.graphInputs.length =
      f.graphInputs.length + (tensorEntries replaced nodes).length := by
    rw [h.graphInputs, List.length_append, List.length_map]
  refine ⟨?_, ?_, ?_, ?_, ?_, fun s => ?_, fun s => ?_, h'.carriers.trans h.carriers⟩
  · rw [h'.count, h.count, List.length_append, Nat.add_assoc]
  · rw [h'.graphInputs, h.graphInputs, hentries, List.map_append, List.append_assoc]
  · rw [h'.names, h.names, hentries, hlength, List.zipIdx_append, List.map_append,
      List.append_assoc]
  · rw [h'.plan, h.plan, hentries, List.map_append, List.append_assoc]
  · rw [h'.symints, h.symints, hsymints, List.append_assoc]
  · rw [h'.dims, lookup_append_congr (h.dims s), hentries, entrySources, entrySources, entrySources,
      List.flatMap_append, List.append_assoc]
  · rw [h'.args, lookup_append_congr (h.args s), List.flatMap_append, List.append_assoc]

/-- A placeholder that is no tensor input. -/
theorem Handled.scalar {p : Placeholder} {constants : List (String × Int)}
    {symints : List (String × Nat × SymExpr)} {args : List (String × Nat × Option Nat)}
    (hentries : tensorEntries replaced [(p, f.nPlaceholders)] = [])
    (hsymints : symints = f.symintPlaceholders ++ symintEntries replaced [(p, f.nPlaceholders)])
    (hargs : ∀ s, args.lookup s =
      (f.symbolArgs ++ symbolSources replaced (p, f.nPlaceholders)).lookup s) :
    Handled replaced f { f with
      nPlaceholders := f.nPlaceholders + 1
      constants := constants
      symintPlaceholders := symints
      symbolArgs := args } [(p, f.nPlaceholders)] where
  count := rfl
  graphInputs := by rw [hentries, List.map_nil, List.append_nil]
  names := by rw [hentries, List.zipIdx_nil, List.map_nil, List.append_nil]
  plan := by rw [hentries, List.map_nil, List.append_nil]
  symints := hsymints
  dims := fun s => by rw [hentries, entrySources, List.flatMap_nil, List.append_nil]
  args := fun s => by rw [List.flatMap_singleton, hargs]
  carriers := rfl

theorem Handled.tensor {p : Placeholder} {shape : List SymExpr} (htraced : p.traced = .tensor shape)
    (hreplaced : replaced p.name = false) :
    Handled replaced f (f.addTensor p.name shape) [(p, f.nPlaceholders)] := by
  have hentries : tensorEntries replaced [(p, f.nPlaceholders)] =
      [(f.nPlaceholders, p.name, shape)] := by
    simp [tensorEntries, htraced, hreplaced]
  have hsymints : symintEntries replaced [(p, f.nPlaceholders)] = [] := by
    simp [symintEntries, htraced]
  have hsources : symbolSources replaced (p, f.nPlaceholders) =
      (shapeSymbols shape).map fun d => (d.1, f.nPlaceholders, some d.2) := by
    simp [symbolSources, htraced, hreplaced]
  refine ⟨rfl, ?_, ?_, ?_, ?_, fun s => ?_, fun s => ?_, rfl⟩
  · rw [hentries]
    rfl
  · rw [hentries]
    rfl
  · rw [hentries]
    rfl
  · rw [hsymints, List.append_nil]
    rfl
  · rw [hentries, entrySources, List.flatMap_singleton]
    exact lookup_setDefaults _ _ s
  · rw [List.flatMap_singleton, hsources]
    exact lookup_setDefaults _ _ s

theorem Handled.symInt {p : Placeholder} {expr : SymExpr} (htraced : p.traced = .symInt expr)
    (hreplaced : replaced p.name = false) :
    Handled replaced f (f.addSymInt p.name expr) [(p, f.nPlaceholders)] := by
  have hentries : tensorEntries replaced [(p, f.nPlaceholders)] = [] := by
    simp [tensorEntries, htraced]
  unfold Factory.addSymInt
  split
  · refine Handled.scalar hentries ?_ fun s => ?_
    · simp [symintEntries, htraced]
    · simp [symbolSources, htraced]
  · refine Handled.scalar hentries ?_ fun s => ?_
    · simp [symintEntries, htraced, hreplaced]
    · rw [lookup_setDefault]
      simp [symbolSources, htraced, hreplaced]
  · rename_i hinteger hsymbol
    have hsources : symbolSources replaced (p, f.nPlaceholders) = [] := by
      unfold symbolSources
      dsimp only
      rw [htraced]
      cases expr <;> simp_all
    refine Handled.scalar hentries ?_ fun s => ?_
    · unfold symintEntries
      cases expr <;> simp_all
    · rw [hsources, List.append_nil]

theorem Handled.placeholder {p : Placeholder} (h : f.handlePlaceholder replaced p = some g) :
    Handled replaced f g [(p, f.nPlaceholders)] := by
  unfold Factory.handlePlaceholder at h
  split at h
  · -- a replaced input is no input
    rename_i hreplaced
    obtain rfl := Option.some.inj h
    refine Handled.scalar ?_ ?_ fun s => ?_
    · unfold tensorEntries
      cases htraced : p.traced <;> simp [htraced, hreplaced]
    · unfold symintEntries
      cases htraced : p.traced with
      | symInt expr => cases expr <;> simp [htraced, hreplaced]
      | _ => simp [htraced]
    · simp [symbolSources, hreplaced]
  · rename_i hreplaced
    have hfalse : replaced p.name = false := Bool.eq_false_iff.mpr hreplaced
    split at h
    · rename_i expr htraced
      obtain rfl := Option.some.inj h
      exact .symInt htraced hfalse
    · exact nomatch h
    · rename_i shape htraced
      obtain rfl := Option.some.inj h
      exact .tensor htraced hfalse
    · rename_i htraced
      obtain rfl := Option.some.inj h
      refine Handled.scalar ?_ ?_ fun s => ?_
      · simp [tensorEntries, htraced]
      · simp [symintEntries, htraced]
      · simp [symbolSources, htraced]

theorem Handled.placeholders {l : List Placeholder}
    (h : l.foldlM (Factory.handlePlaceholder replaced) f = some g) :
    Handled replaced f g (l.zipIdx f.nPlaceholders) := by
  induction l generalizing f with
  | nil =>
      obtain rfl := Option.some.inj h
      exact .refl f
  | cons p l ih =>
      rw [List.foldlM_cons] at h
      obtain ⟨f', hf', h⟩ := Option.bind_eq_some_iff.mp h
      have hone := Handled.placeholder hf'
      have hcount : f'.nPlaceholders = f.nPlaceholders + 1 := hone.count
      have hrest := ih h
      rw [hcount] at hrest
      exact hone.trans hrest

end

/-! ## Carriers of a factory -/

/-- The kind of the carrier of a symbol. -/
def carrierKind (nonneg : String → Bool) (s : String) : GraphInputKind :=
  if nonneg s then .size else .signed

/-- The symbols that get a carrier, with the argument that each is. -/
def carrierItems (known : String → Bool) :
    List String → List (String × Nat × SymExpr) → List (String × Nat)
  | _, [] => []
  | seen, item :: items =>
      match item.2.2 with
      | .symbol s =>
          if known s ∨ s ∈ seen then carrierItems known seen items
          else (s, item.2.1) :: carrierItems known (s :: seen) items
      | _ => carrierItems known seen items

/-- What `_add_symint_carriers` adds. -/
structure Carried (nonneg : String → Bool) (f g : Factory) (items : List (String × Nat)) : Prop where
  graphInputs : g.graphInputs = f.graphInputs ++
    items.map fun i => carrierShape (carrierKind nonneg i.1) i.1
  plan : g.inputPlan = f.inputPlan ++ items.map fun i => (carrierKind nonneg i.1, i.2)
  carriers : g.carriers = f.carriers ++
    (items.zipIdx f.graphInputs.length).map fun i => (i.1.1, carrierKind nonneg i.1.1, i.2)
  names : g.namesToInputIdx = f.namesToInputIdx
  dims : g.dimSources = f.dimSources
  args : g.symbolArgs = f.symbolArgs

section
variable {nonneg : String → Bool} {f g : Factory}

theorem Carried.refl (f : Factory) : Carried nonneg f f [] where
  graphInputs := (List.append_nil _).symm
  plan := (List.append_nil _).symm
  carriers := (List.append_nil _).symm
  names := rfl
  dims := rfl
  args := rfl

theorem Carried.cons {item : String × Nat} {items : List (String × Nat)}
    (h : Carried nonneg { f with
        graphInputs := f.graphInputs ++ [carrierShape (carrierKind nonneg item.1) item.1]
        inputPlan := f.inputPlan ++ [(carrierKind nonneg item.1, item.2)]
        carriers := f.carriers ++ [(item.1, carrierKind nonneg item.1, f.graphInputs.length)] }
      g items) : Carried nonneg f g (item :: items) where
  graphInputs := h.graphInputs.trans (List.append_assoc _ _ _)
  plan := h.plan.trans (List.append_assoc _ _ _)
  carriers := by
    have hcarriers := h.carriers
    dsimp only at hcarriers
    rw [List.length_append, List.length_singleton, List.append_assoc] at hcarriers
    rw [hcarriers, List.zipIdx_cons, List.map_cons]
    rfl
  names := h.names
  dims := h.dims
  args := h.args

theorem lookup_isSome_iff {β : Type} {d : List (String × β)} {s : String} :
    (d.lookup s).isSome ↔ s ∈ d.map Prod.fst := by
  induction d with
  | nil => exact iff_of_false (fun h => nomatch h) List.not_mem_nil
  | cons item d ih =>
      rw [List.lookup_cons, List.map_cons, List.mem_cons]
      by_cases hs : s = item.1
      · rw [beq_iff_eq.mpr hs]
        exact iff_of_true rfl (.inl hs)
      · rw [beq_false_of_ne hs, ih]
        exact (or_iff_right hs).symm

theorem Carried.carriers_fold (items : List (String × Nat × SymExpr)) (f : Factory)
    {seen : List String} (hseen : ∀ s, s ∈ seen ↔ (f.carriers.lookup s).isSome) :
    Carried nonneg f (items.foldl (Factory.addCarrier nonneg) f)
      (carrierItems (fun s => (f.dimSources.lookup s).isSome) seen items) := by
  induction items generalizing f seen with
  | nil => exact .refl f
  | cons item items ih =>
      rw [List.foldl_cons]
      obtain ⟨name, a, expr⟩ := item
      cases expr with
      | symbol s =>
          by_cases hknown : (f.dimSources.lookup s).isSome ∨ (f.carriers.lookup s).isSome
          · have hadd : f.addCarrier nonneg (name, a, .symbol s) = f := if_pos hknown
            have hitems : carrierItems (fun s => (f.dimSources.lookup s).isSome) seen
                ((name, a, .symbol s) :: items) = carrierItems _ seen items :=
              if_pos (hknown.imp_right (hseen s).mpr)
            rw [hadd, hitems]
            exact ih f hseen
          · have hadd : f.addCarrier nonneg (name, a, .symbol s) = { f with
                graphInputs := f.graphInputs ++ [carrierShape (carrierKind nonneg s) s]
                inputPlan := f.inputPlan ++ [(carrierKind nonneg s, a)]
                carriers := f.carriers ++ [(s, carrierKind nonneg s, f.graphInputs.length)] } :=
              if_neg hknown
            have hitems : carrierItems (fun s => (f.dimSources.lookup s).isSome) seen
                ((name, a, .symbol s) :: items) = (s, a) :: carrierItems _ (s :: seen) items :=
              if_neg fun h => hknown (h.imp_right (hseen s).mp)
            rw [hadd, hitems]
            refine Carried.cons (ih _ fun s' => ?_)
            dsimp only
            rw [List.mem_cons, hseen, lookup_isSome_iff, lookup_isSome_iff, List.map_append,
              List.mem_append, or_comm]
            exact or_congr_right List.mem_singleton.symm
      | _ => exact ih f hseen

end

section
variable {known : String → Bool} {items : List (String × Nat × SymExpr)} {seen : List String}

theorem mem_carrierItems {i : String × Nat} (h : i ∈ carrierItems known seen items) :
    known i.1 = false ∧ ∃ name, (name, i.2, SymExpr.symbol i.1) ∈ items := by
  induction items generalizing seen with
  | nil => exact absurd h List.not_mem_nil
  | cons item items ih =>
      unfold carrierItems at h
      split at h
      · rename_i s hs
        split at h
        · exact (ih h).imp_right fun ⟨name, hname⟩ => ⟨name, List.mem_cons_of_mem _ hname⟩
        · rename_i hnew
          obtain rfl | h := List.mem_cons.mp h
          · refine ⟨Bool.eq_false_iff.mpr fun hknown => hnew (.inl hknown), item.1, ?_⟩
            rw [← hs]
            exact List.mem_cons_self
          · exact (ih h).imp_right fun ⟨name, hname⟩ => ⟨name, List.mem_cons_of_mem _ hname⟩
      · exact (ih h).imp_right fun ⟨name, hname⟩ => ⟨name, List.mem_cons_of_mem _ hname⟩

/-- Every symbol that is not known gets one. -/
theorem exists_carrierItem {name s : String} {a : Nat} (h : (name, a, SymExpr.symbol s) ∈ items)
    (hknown : known s = false) (hseen : s ∉ seen) :
    ∃ a', (s, a') ∈ carrierItems known seen items := by
  induction items generalizing seen with
  | nil => exact absurd h List.not_mem_nil
  | cons item items ih =>
      unfold carrierItems
      obtain rfl | h := List.mem_cons.mp h
      · dsimp only
        rw [if_neg (by simp [hknown, hseen])]
        exact ⟨a, List.mem_cons_self⟩
      · split
        · rename_i s' hs'
          split
          · exact ih h hseen
          · by_cases hsame : s = s'
            · subst hsame
              exact ⟨_, List.mem_cons_self⟩
            · have hnot : s ∉ s' :: seen := by simp [hsame, hseen]
              obtain ⟨a', ha'⟩ := ih h hnot
              exact ⟨a', List.mem_cons_of_mem _ ha'⟩
        · exact ih h hseen

end

end TorchMojoBackend.Compiler
