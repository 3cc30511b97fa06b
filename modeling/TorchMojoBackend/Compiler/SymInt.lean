/-
  `Compiler.SymInt`: symbolic integers as dims of a graph.

  Source: torch_compile_backend/compiler.py (`_sympy_to_dim`, `GraphInputKind`, `_graph_input`,
  `_symint_carrier`).

  Expressions are those of sympy with torch's `FloorDiv`, `PythonMod` and `Mod`; a Python integer
  is a static dim.  The `//` of a dim rounds down.
-/
import Mathlib.Algebra.BigOperators.Group.List.Basic
import Mathlib.Algebra.Ring.Int.Defs

set_option autoImplicit false

namespace TorchMojoBackend.Compiler

/-! ## Expressions -/

/-- A Python integer, or a sympy expression. -/
inductive SymExpr where
  | int (n : Int)
  | integer (n : Int)
  | symbol (name : String)
  | pow (base exp : SymExpr)
  | add (args : List SymExpr)
  | mul (args : List SymExpr)
  | floorDiv (a b : SymExpr)
  | pythonMod (a b : SymExpr)
  | mod (a b : SymExpr)
  /-- Any other function or number. -/
  | other (args : List SymExpr)

namespace SymExpr

variable (env : String → Int)

mutual

/-- The integer that an expression stands for, if it has one: `Mod` is for a nonnegative dividend
and a positive divisor. -/
def value : SymExpr → Option Int
  | int n => some n
  | integer n => some n
  | symbol name => some (env name)
  | pow base exp => do
      let b ← value base
      let e ← value exp
      if 0 ≤ e then some (b ^ e.toNat) else none
  | add args => do
      let vs ← values args
      some vs.sum
  | mul args => do
      let vs ← values args
      some vs.prod
  | floorDiv a b => do
      let x ← value a
      let y ← value b
      if y = 0 then none else some (x.fdiv y)
  | pythonMod a b => do
      let x ← value a
      let y ← value b
      if y = 0 then none else some (x.fmod y)
  | mod a b => do
      let x ← value a
      let y ← value b
      if 0 ≤ x ∧ 0 < y then some (x % y) else none
  | other _ => none

def values : List SymExpr → Option (List Int)
  | [] => some []
  | e :: es => do
      let v ← value e
      let vs ← values es
      some (v :: vs)

end

/-- The exponents that `_sympy_to_dim` admits. -/
def positive : SymExpr → Option Nat
  | integer n => if 0 < n then some n.toNat else none
  | _ => none

end SymExpr

/-! ## Dims -/

inductive Dim where
  | static (n : Int)
  | symbolic (name : String)
  | add (a b : Dim)
  | sub (a b : Dim)
  | mul (a b : Dim)
  | floorDiv (a b : Dim)
  deriving DecidableEq

namespace Dim

/-- The value of a dim from those of the graph's symbolic dims. -/
def eval (dims : String → Int) : Dim → Int
  | static n => n
  | symbolic name => dims name
  | add a b => eval dims a + eval dims b
  | sub a b => eval dims a - eval dims b
  | mul a b => eval dims a * eval dims b
  | floorDiv a b => (eval dims a).fdiv (eval dims b)

end Dim

inductive LowerError where
  /-- "symbol {expr} is not bound to a graph input" -/
  | unbound (name : String)
  /-- "{expr} has no MAX Dim equivalent" -/
  | noEquivalent (expr : SymExpr)
  /-- `reduce` of no arguments. -/
  | empty

/-- `functools.reduce` -/
def reduce (op : Dim → Dim → Dim) : List Dim → Except LowerError Dim
  | [] => .error .empty
  | d :: ds => .ok (ds.foldl op d)

section
variable (symbols : String → Option Dim)

mutual

/-- `_sympy_to_dim` -/
def toDim : SymExpr → Except LowerError Dim
  | .int n => .ok (.static n)
  | .integer n => .ok (.static n)
  | .symbol name =>
      match symbols name with
      | some d => .ok d
      | none => .error (.unbound name)
  | .pow base exp =>
      match exp.positive with
      | some n => do
          let b ← toDim base
          reduce .mul (List.replicate n b)
      | none => do
          let _ ← toDim base
          let _ ← toDim exp
          .error (.noEquivalent (.pow base exp))
  | .add args => do
      let ds ← toDims args
      reduce .add ds
  | .mul args => do
      let ds ← toDims args
      reduce .mul ds
  | .floorDiv a b => do
      let x ← toDim a
      let y ← toDim b
      .ok (.floorDiv x y)
  | .pythonMod a b => do
      let x ← toDim a
      let y ← toDim b
      .ok (.sub x (.mul (.floorDiv x y) y))
  | .mod a b => do
      let x ← toDim a
      let y ← toDim b
      .ok (.sub x (.mul (.floorDiv x y) y))
  | .other args => do
      let _ ← toDims args
      .error (.noEquivalent (.other args))

def toDims : List SymExpr → Except LowerError (List Dim)
  | [] => .ok []
  | e :: es => do
      let d ← toDim e
      let ds ← toDims es
      .ok (d :: ds)

end

mutual

/-- The expressions that are lowered. -/
def SymExpr.Supported : SymExpr → Prop
  | .int _ => True
  | .integer _ => True
  | .symbol name => (symbols name).isSome
  | .pow base exp => SymExpr.Supported base ∧ ∃ n : Int, 0 < n ∧ exp = .integer n
  | .add args => args ≠ [] ∧ SymExpr.AllSupported args
  | .mul args => args ≠ [] ∧ SymExpr.AllSupported args
  | .floorDiv a b => SymExpr.Supported a ∧ SymExpr.Supported b
  | .pythonMod a b => SymExpr.Supported a ∧ SymExpr.Supported b
  | .mod a b => SymExpr.Supported a ∧ SymExpr.Supported b
  | .other _ => False

def SymExpr.AllSupported : List SymExpr → Prop
  | [] => True
  | e :: es => SymExpr.Supported e ∧ SymExpr.AllSupported es

end

end

/-! ## Lowering -/

/-- A computation that succeeds goes on with the result of its first part. -/
theorem ok_of_bind {α β : Type} {x : Except LowerError α} {f : α → Except LowerError β} {b : β}
    (h : (x >>= f) = .ok b) : ∃ a, x = .ok a ∧ f a = .ok b := by
  cases x with
  | error e => exact nomatch h
  | ok a => exact ⟨a, rfl, h⟩

theorem eval_foldl_add (dims : String → Int) (d : Dim) (ds : List Dim) :
    (ds.foldl .add d).eval dims = d.eval dims + (ds.map (Dim.eval dims)).sum := by
  induction ds generalizing d with
  | nil => exact (Int.add_zero _).symm
  | cons e ds ih =>
      rw [List.foldl_cons, ih, List.map_cons, List.sum_cons, ← Int.add_assoc]
      rfl

theorem eval_foldl_mul (dims : String → Int) (d : Dim) (ds : List Dim) :
    (ds.foldl .mul d).eval dims = d.eval dims * (ds.map (Dim.eval dims)).prod := by
  induction ds generalizing d with
  | nil => exact (Int.mul_one _).symm
  | cons e ds ih =>
      rw [List.foldl_cons, ih, List.map_cons, List.prod_cons, ← Int.mul_assoc]
      rfl

theorem eval_reduce_add {dims : String → Int} {ds : List Dim} {d : Dim}
    (h : reduce .add ds = .ok d) : d.eval dims = (ds.map (Dim.eval dims)).sum := by
  cases ds with
  | nil => exact nomatch h
  | cons e ds =>
      obtain rfl := Except.ok.inj h
      rw [eval_foldl_add, List.map_cons, List.sum_cons]

theorem eval_reduce_mul {dims : String → Int} {ds : List Dim} {d : Dim}
    (h : reduce .mul ds = .ok d) : d.eval dims = (ds.map (Dim.eval dims)).prod := by
  cases ds with
  | nil => exact nomatch h
  | cons e ds =>
      obtain rfl := Except.ok.inj h
      rw [eval_foldl_mul, List.map_cons, List.prod_cons]

theorem reduce_ok {op : Dim → Dim → Dim} {ds : List Dim} : (∃ d, reduce op ds = .ok d) ↔ ds ≠ [] := by
  cases ds with
  | nil => exact iff_of_false (fun ⟨_, h⟩ => nomatch h) fun h => h rfl
  | cons e ds => exact ⟨fun _ => List.cons_ne_nil _ _, fun _ => ⟨_, rfl⟩⟩

theorem positive_eq_some {e : SymExpr} {n : Nat} :
    e.positive = some n ↔ e = .integer n ∧ 0 < n := by
  unfold SymExpr.positive
  split
  · rename_i k
    constructor
    · intro h
      split at h
      · rename_i hk
        obtain rfl := Option.some.inj h
        exact ⟨congrArg _ (by omega), by omega⟩
      · exact nomatch h
    · rintro ⟨h, hn⟩
      obtain rfl := SymExpr.integer.inj h
      rw [if_pos (by omega), Int.toNat_natCast]
  · rename_i hother
    refine iff_of_false (fun h => nomatch h) ?_
    rintro ⟨rfl, -⟩
    exact hother _ rfl

section
variable {symbols : String → Option Dim} {dims env : String → Int}

mutual

/-- A dim has the value of the expression that it is lowered from. -/
theorem eval_toDim (hsymbols : ∀ name d, symbols name = some d → d.eval dims = env name) :
    ∀ (e : SymExpr) {d : Dim} {v : Int}, toDim symbols e = .ok d → e.value env = some v →
      d.eval dims = v
  | .int n, d, v, hd, hv => by
      rw [toDim] at hd
      rw [SymExpr.value] at hv
      obtain rfl := Except.ok.inj hd
      exact Option.some.inj hv
  | .integer n, d, v, hd, hv => by
      rw [toDim] at hd
      rw [SymExpr.value] at hv
      obtain rfl := Except.ok.inj hd
      exact Option.some.inj hv
  | .symbol name, d, v, hd, hv => by
      rw [toDim] at hd
      rw [SymExpr.value] at hv
      split at hd
      · rename_i hname
        obtain rfl := Except.ok.inj hd
        exact (hsymbols name _ hname).trans (Option.some.inj hv)
      · exact nomatch hd
  | .pow base exp, d, v, hd, hv => by
      rw [toDim] at hd
      rw [SymExpr.value] at hv
      split at hd
      · rename_i n hn
        obtain ⟨rfl, hpos⟩ := positive_eq_some.mp hn
        obtain ⟨b, hb, hd⟩ := ok_of_bind hd
        obtain ⟨x, hx, hv⟩ := Option.bind_eq_some_iff.mp hv
        obtain ⟨k, hk, hv⟩ := Option.bind_eq_some_iff.mp hv
        rw [SymExpr.value] at hk
        obtain rfl := Option.some.inj hk
        rw [if_pos (Int.natCast_nonneg n), Int.toNat_natCast] at hv
        obtain rfl := Option.some.inj hv
        rw [eval_reduce_mul hd, List.map_replicate, List.prod_replicate,
          eval_toDim hsymbols base hb hx]
      · obtain ⟨_, -, hd⟩ := ok_of_bind hd
        obtain ⟨_, -, hd⟩ := ok_of_bind hd
        exact nomatch hd
  | .add args, d, v, hd, hv => by
      rw [toDim] at hd
      rw [SymExpr.value] at hv
      obtain ⟨ds, hds, hd⟩ := ok_of_bind hd
      obtain ⟨vs, hvs, hv⟩ := Option.bind_eq_some_iff.mp hv
      obtain rfl := Option.some.inj hv
      rw [eval_reduce_add hd, eval_toDims hsymbols args hds hvs]
  | .mul args, d, v, hd, hv => by
      rw [toDim] at hd
      rw [SymExpr.value] at hv
      obtain ⟨ds, hds, hd⟩ := ok_of_bind hd
      obtain ⟨vs, hvs, hv⟩ := Option.bind_eq_some_iff.mp hv
      obtain rfl := Option.some.inj hv
      rw [eval_reduce_mul hd, eval_toDims hsymbols args hds hvs]
  | .floorDiv a b, d, v, hd, hv => by
      rw [toDim] at hd
      rw [SymExpr.value] at hv
      obtain ⟨x, hx, hd⟩ := ok_of_bind hd
      obtain ⟨y, hy, hd⟩ := ok_of_bind hd
      obtain ⟨p, hp, hv⟩ := Option.bind_eq_some_iff.mp hv
      obtain ⟨q, hq, hv⟩ := Option.bind_eq_some_iff.mp hv
      obtain rfl := Except.ok.inj hd
      split at hv
      · exact nomatch hv
      · obtain rfl := Option.some.inj hv
        rw [Dim.eval, eval_toDim hsymbols a hx hp, eval_toDim hsymbols b hy hq]
  | .pythonMod a b, d, v, hd, hv => by
      rw [toDim] at hd
      rw [SymExpr.value] at hv
      obtain ⟨x, hx, hd⟩ := ok_of_bind hd
      obtain ⟨y, hy, hd⟩ := ok_of_bind hd
      obtain ⟨p, hp, hv⟩ := Option.bind_eq_some_iff.mp hv
      obtain ⟨q, hq, hv⟩ := Option.bind_eq_some_iff.mp hv
      obtain rfl := Except.ok.inj hd
      split at hv
      · exact nomatch hv
      · obtain rfl := Option.some.inj hv
        rw [Dim.eval, Dim.eval, Dim.eval, eval_toDim hsymbols a hx hp, eval_toDim hsymbols b hy hq,
          Int.fmod_def, Int.mul_comm]
  | .mod a b, d, v, hd, hv => by
      rw [toDim] at hd
      rw [SymExpr.value] at hv
      obtain ⟨x, hx, hd⟩ := ok_of_bind hd
      obtain ⟨y, hy, hd⟩ := ok_of_bind hd
      obtain ⟨p, hp, hv⟩ := Option.bind_eq_some_iff.mp hv
      obtain ⟨q, hq, hv⟩ := Option.bind_eq_some_iff.mp hv
      obtain rfl := Except.ok.inj hd
      split at hv
      · rename_i hdomain
        obtain rfl := Option.some.inj hv
        rw [Dim.eval, Dim.eval, Dim.eval, eval_toDim hsymbols a hx hp, eval_toDim hsymbols b hy hq,
          Int.fdiv_eq_ediv_of_nonneg p (Int.le_of_lt hdomain.2), Int.emod_def, Int.mul_comm]
      · exact nomatch hv
  | .other args, d, v, hd, hv => by
      rw [toDim] at hd
      obtain ⟨_, -, hd⟩ := ok_of_bind hd
      exact nomatch hd

theorem eval_toDims (hsymbols : ∀ name d, symbols name = some d → d.eval dims = env name) :
    ∀ (es : List SymExpr) {ds : List Dim} {vs : List Int}, toDims symbols es = .ok ds →
      SymExpr.values env es = some vs → ds.map (Dim.eval dims) = vs
  | [], ds, vs, hd, hv => by
      rw [toDims] at hd
      rw [SymExpr.values] at hv
      obtain rfl := Except.ok.inj hd
      exact Option.some.inj hv
  | e :: es, ds, vs, hd, hv => by
      rw [toDims] at hd
      rw [SymExpr.values] at hv
      obtain ⟨d, hd1, hd⟩ := ok_of_bind hd
      obtain ⟨ds', hds, hd⟩ := ok_of_bind hd
      obtain ⟨v, hv1, hv⟩ := Option.bind_eq_some_iff.mp hv
      obtain ⟨vs', hvs, hv⟩ := Option.bind_eq_some_iff.mp hv
      obtain rfl := Except.ok.inj hd
      obtain rfl := Option.some.inj hv
      rw [List.map_cons, eval_toDim hsymbols e hd1 hv1, eval_toDims hsymbols es hds hvs]

end

/-- Two operands. -/
theorem exists_pair {x y : Except LowerError Dim} (op : Dim → Dim → Dim) :
    (∃ d, (do
        let a ← x
        let b ← y
        .ok (op a b) : Except LowerError Dim) = .ok d) ↔
      (∃ d, x = .ok d) ∧ ∃ d, y = .ok d := by
  constructor
  · rintro ⟨d, hd⟩
    obtain ⟨a, ha, hd⟩ := ok_of_bind hd
    obtain ⟨b, hb, -⟩ := ok_of_bind hd
    exact ⟨⟨a, ha⟩, b, hb⟩
  · rintro ⟨⟨a, rfl⟩, b, rfl⟩
    exact ⟨_, rfl⟩

theorem length_toDims {es : List SymExpr} {ds : List Dim} (h : toDims symbols es = .ok ds) :
    ds.length = es.length := by
  induction es generalizing ds with
  | nil =>
      rw [toDims] at h
      obtain rfl := Except.ok.inj h
      rfl
  | cons e es ih =>
      rw [toDims] at h
      obtain ⟨d, -, h⟩ := ok_of_bind h
      obtain ⟨ds', hds, h⟩ := ok_of_bind h
      obtain rfl := Except.ok.inj h
      rw [List.length_cons, List.length_cons, ih hds]

/-- A sum or product of arguments. -/
theorem exists_reduce (op : Dim → Dim → Dim) (args : List SymExpr) :
    (∃ d, (do
        let ds ← toDims symbols args
        reduce op ds : Except LowerError Dim) = .ok d) ↔
      args ≠ [] ∧ ∃ ds, toDims symbols args = .ok ds := by
  have hne : ∀ {ds}, toDims symbols args = .ok ds → (ds ≠ [] ↔ args ≠ []) := fun h => by
    rw [← List.length_pos_iff, ← List.length_pos_iff, length_toDims h]
  constructor
  · rintro ⟨d, hd⟩
    obtain ⟨ds, hds, hd⟩ := ok_of_bind hd
    exact ⟨(hne hds).mp (reduce_ok.mp ⟨d, hd⟩), ds, hds⟩
  · rintro ⟨hargs, ds, hds⟩
    rw [hds]
    exact reduce_ok.mpr ((hne hds).mpr hargs)

mutual

/-- Exactly the supported expressions are lowered. -/
theorem exists_toDim : ∀ e : SymExpr, (∃ d, toDim symbols e = .ok d) ↔ e.Supported symbols
  | .int n => by
      rw [toDim, SymExpr.Supported]
      exact iff_of_true ⟨_, rfl⟩ trivial
  | .integer n => by
      rw [toDim, SymExpr.Supported]
      exact iff_of_true ⟨_, rfl⟩ trivial
  | .symbol name => by
      rw [toDim, SymExpr.Supported]
      cases symbols name with
      | none => exact iff_of_false (fun ⟨_, h⟩ => nomatch h) (fun h => nomatch h)
      | some d => exact iff_of_true ⟨d, rfl⟩ rfl
  | .pow base exp => by
      rw [toDim, SymExpr.Supported]
      split
      · rename_i n hn
        obtain ⟨rfl, hpos⟩ := positive_eq_some.mp hn
        rw [← exists_toDim base]
        constructor
        · rintro ⟨d, hd⟩
          obtain ⟨b, hb, -⟩ := ok_of_bind hd
          exact ⟨⟨b, hb⟩, n, by omega, rfl⟩
        · rintro ⟨⟨b, hb⟩, -⟩
          rw [hb]
          refine reduce_ok.mpr fun hnil => ?_
          have hlen := congrArg List.length hnil
          rw [List.length_replicate] at hlen
          exact absurd hlen (Nat.ne_of_gt hpos)
      · rename_i hnone
        refine iff_of_false ?_ ?_
        · rintro ⟨d, hd⟩
          obtain ⟨_, -, hd⟩ := ok_of_bind hd
          obtain ⟨_, -, hd⟩ := ok_of_bind hd
          exact nomatch hd
        · rintro ⟨-, n, hpos, rfl⟩
          rw [SymExpr.positive, if_pos hpos] at hnone
          exact nomatch hnone
  | .add args => by
      rw [toDim, SymExpr.Supported, ← exists_toDims args]
      exact exists_reduce .add args
  | .mul args => by
      rw [toDim, SymExpr.Supported, ← exists_toDims args]
      exact exists_reduce .mul args
  | .floorDiv a b => by
      rw [toDim, SymExpr.Supported, ← exists_toDim a, ← exists_toDim b]
      exact exists_pair _
  | .pythonMod a b => by
      rw [toDim, SymExpr.Supported, ← exists_toDim a, ← exists_toDim b]
      exact exists_pair _
  | .mod a b => by
      rw [toDim, SymExpr.Supported, ← exists_toDim a, ← exists_toDim b]
      exact exists_pair _
  | .other args => by
      rw [toDim, SymExpr.Supported]
      refine iff_of_false ?_ id
      rintro ⟨d, hd⟩
      obtain ⟨_, -, hd⟩ := ok_of_bind hd
      exact nomatch hd

theorem exists_toDims :
    ∀ es : List SymExpr, (∃ ds, toDims symbols es = .ok ds) ↔ SymExpr.AllSupported symbols es
  | [] => by
      rw [toDims, SymExpr.AllSupported]
      exact iff_of_true ⟨_, rfl⟩ trivial
  | e :: es => by
      rw [toDims, SymExpr.AllSupported, ← exists_toDim e, ← exists_toDims es]
      constructor
      · rintro ⟨ds, hds⟩
        obtain ⟨d, hd, hds⟩ := ok_of_bind hds
        obtain ⟨ds', hds', -⟩ := ok_of_bind hds
        exact ⟨⟨d, hd⟩, ds', hds'⟩
      · rintro ⟨⟨d, hd⟩, ds, hds⟩
        rw [hd, hds]
        exact ⟨_, rfl⟩

end

end

end TorchMojoBackend.Compiler
