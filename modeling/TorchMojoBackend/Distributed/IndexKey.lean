/-
  `Distributed.IndexKey`: the index key of one rank in the store.

  The key holds a generation followed by the names of the rank's active incident
  records.  Every report rewrites it through `_set_index`, and a report can be
  late: its store worker was abandoned after a timeout and its request reaches
  the store afterwards.  So several `_set_index` calls on the one key run at
  once, each a loop of `check`, `get` and `compare_set` requests.
-/
import TorchMojoBackend.Foundation.Transition
import Mathlib.Data.Nat.Digits.Defs
import Mathlib.Logic.Function.Basic

set_option autoImplicit false

namespace TorchMojoBackend.Distributed.IndexKey

open TorchMojoBackend.Foundation

/-! ## The text under the key -/

/-- A value of the store, decoded. -/
abbrev Text : Type := List Char

/-- `" ".join([str(gen), *names])`. -/
def render (gen : Nat) (names : List Text) : Text :=
  Nat.toDigits 10 gen ++ names.flatMap fun name => ' ' :: name

/-- `current.split()[0]`. -/
def firstWord (current : Text) : Text :=
  (current.dropWhile Char.isWhitespace).takeWhile fun c => !c.isWhitespace

/-- `int(current.split()[0])`, on decimal digits; `none` where it raises. -/
def generation? (current : Text) : Option Nat :=
  let word := firstWord current
  if word ≠ [] ∧ word.all Char.isDigit then some (Nat.ofDigitChars 10 word 0) else none

theorem not_isWhitespace_of_isDigit {c : Char} (h : c.isDigit = true) :
    c.isWhitespace = false := by
  simp only [Char.isDigit, Bool.and_eq_true, decide_eq_true_eq, UInt32.le_iff_toNat_le] at h
  have hne : ∀ d : Char, d.toNat < 48 → c ≠ d := by
    rintro d hd rfl
    exact absurd h.1 (by simpa using hd)
  simp [Char.isWhitespace, hne ' ' (by decide), hne '\t' (by decide), hne '\r' (by decide),
    hne '\n' (by decide)]

/-- The first word of a rendered index is its generation, whatever the names. -/
theorem firstWord_render (gen : Nat) (names : List Text) :
    firstWord (render gen names) = Nat.toDigits 10 gen := by
  have hword : ∀ c ∈ Nat.toDigits 10 gen, c.isWhitespace = false := fun c hc =>
    not_isWhitespace_of_isDigit (Nat.isDigit_of_mem_toDigits (by decide) (by decide) hc)
  have hdrop : (render gen names).dropWhile Char.isWhitespace = render gen names := by
    obtain ⟨c, cs, hcs⟩ := List.exists_cons_of_ne_nil (Nat.toDigits_ne_nil (n := gen) (b := 10))
    have hc : c.isWhitespace = false := hword c (by simp [hcs])
    simp [render, hcs, hc]
  have hall : ∀ c ∈ Nat.toDigits 10 gen, (!c.isWhitespace) = true := fun c hc => by
    simp [hword c hc]
  rw [firstWord, hdrop, render, List.takeWhile_append_of_pos hall]
  cases names with
  | nil => simp
  | cons name names => simp [show Char.isWhitespace ' ' = true from rfl]

@[simp] theorem generation?_render (gen : Nat) (names : List Text) :
    generation? (render gen names) = some gen := by
  have hdigits : (Nat.toDigits 10 gen).all Char.isDigit = true :=
    List.all_eq_true.mpr fun c hc =>
      Nat.isDigit_of_mem_toDigits (by decide) (by decide) hc
  simp only [generation?, firstWord_render]
  rw [if_pos ⟨Nat.toDigits_ne_nil, hdigits⟩, Nat.ofDigitChars_ten_toDigits]

@[simp] theorem render_ne_nil (gen : Nat) (names : List Text) : render gen names ≠ [] := by
  simp [render, Nat.toDigits_ne_nil]

/-! ## The store -/

/-- `compare_set` of the store on this key: the stored value, the expected one and
the new one to the value stored afterwards and the answer. -/
abbrev CompareSet : Type := Option Text → Text → Text → Option Text × Text

/-- What the documentation of `compare_set` promises: the new value goes in when the
stored one is the expected one, an absent key counting as the empty text, and the
caller can tell, unless it expected the value it wanted to write. -/
structure CompareSet.Atomic (compareSet : CompareSet) : Prop where
  swap : ∀ stored expected new, stored.getD [] = expected →
    compareSet stored expected new = (some new, new)
  keep : ∀ stored expected new, stored.getD [] ≠ expected →
    (compareSet stored expected new).1 = stored
  answer : ∀ stored expected new, stored.getD [] ≠ expected →
    (compareSet stored expected new).2 = new → stored = some new ∨ expected = new

/-- `compare_set` of a TCP store: a mismatch answers the stored value, and an
absent key that was expected to hold something answers what was expected. -/
def tcpCompareSet : CompareSet
  | none, expected, new => if expected = [] then (some new, new) else (none, expected)
  | some value, expected, new =>
    if value = expected then (some new, new) else (some value, value)

theorem tcpCompareSet_atomic : CompareSet.Atomic tcpCompareSet where
  swap := by
    rintro (_ | value) expected new h <;> simp_all [tcpCompareSet]
  keep := by
    rintro (_ | value) expected new h
    · rw [tcpCompareSet, if_neg fun he => h he.symm]
    · rw [tcpCompareSet, if_neg (show ¬ value = expected from h)]
  answer := by
    rintro (_ | value) expected new h hnew
    · rw [tcpCompareSet, if_neg fun he => h he.symm] at hnew
      exact .inr hnew
    · rw [tcpCompareSet, if_neg (show ¬ value = expected from h)] at hnew
      exact .inl (congrArg some hnew)

/-! ## The writers -/

/-- What a call of `_set_index` was asked to write. -/
structure Request where
  gen : Nat
  names : List Text
  deriving DecidableEq, Repr

/-- `new`. -/
def Request.new (r : Request) : Text := render r.gen r.names

/-- Where a call of `_set_index` stands; `left` counts the tries after this one. -/
inductive Pc where
  /-- not called yet -/
  | idle
  /-- about to send `check` -/
  | checking (left : Nat)
  /-- the key was there; about to send `get` -/
  | getting (left : Nat)
  /-- about to send `compare_set` -/
  | comparing (left : Nat) (current : Text)
  | returned (ok : Bool)
  /-- a request to the store or the parse of its answer raised -/
  | raised
  deriving DecidableEq, Repr

/-- The number of tries `_set_index` makes. -/
def tries : Nat := 8

/-- The loop body between the read of `current` and `compare_set`. -/
def Request.afterRead (r : Request) (left : Nat) (current : Text) : Pc :=
  if current = [] then .comparing left current
  else
    match generation? current with
    | none => .raised
    | some g => if r.gen ≤ g then .returned true else .comparing left current

/-- The rest of the loop body: the answer of `compare_set` ends the call or starts
the next try. -/
def Request.afterCompareSet (r : Request) (left : Nat) (answer : Text) : Pc :=
  if answer = r.new then .returned true
  else
    match left with
    | 0 => .returned false
    | left + 1 => .checking left

section Writers

variable {W : Type} [DecidableEq W]

/-- The value under the key and where every call stands. -/
structure State (W : Type) where
  stored : Option Text
  pc : W → Pc

/-- The steps of a call.  `lost` is a request that reached the store and whose
answer did not come back; `fail` one that did not reach it. -/
inductive Event (W : Type) where
  | call (w : W)
  | check (w : W)
  | get (w : W)
  | compareSet (w : W)
  | lost (w : W)
  | fail (w : W)

def State.setPc (s : State W) (w : W) (pc : Pc) : State W :=
  { s with pc := Function.update s.pc w pc }

@[simp] theorem State.setPc_stored (s : State W) (w : W) (pc : Pc) :
    (s.setPc w pc).stored = s.stored := rfl

variable (compareSet : CompareSet) (request : W → Request)

def next (s : State W) : Event W → Option (State W)
  | .call w => if s.pc w = .idle then some (s.setPc w (.checking (tries - 1))) else none
  | .check w =>
    match s.pc w with
    | .checking left =>
      some (s.setPc w (if s.stored.isSome then .getting left else .comparing left []))
    | _ => none
  | .get w =>
    match s.pc w, s.stored with
    | .getting left, some value => some (s.setPc w ((request w).afterRead left value))
    | _, _ => none
  | .compareSet w =>
    match s.pc w with
    | .comparing left current =>
      let (stored, answer) := compareSet s.stored current (request w).new
      some { s.setPc w ((request w).afterCompareSet left answer) with stored := stored }
    | _ => none
  | .lost w =>
    match s.pc w with
    | .comparing _ current =>
      some { s.setPc w .raised with
        stored := (compareSet s.stored current (request w).new).1 }
    | _ => none
  | .fail w =>
    match s.pc w with
    | .checking _ | .getting _ | .comparing _ _ => some (s.setPc w .raised)
    | _ => none

/-- Any number of `_set_index` calls on one key.  The key starts absent or with an
index that an earlier incarnation of the group left there. -/
def system : System (State W) (Event W) where
  Init s := (s.stored = none ∨ ∃ gen names, s.stored = some (render gen names)) ∧
    ∀ w, s.pc w = .idle
  next := next compareSet request

/-- The generation under the key. -/
def State.storedGen (s : State W) : Option Nat := s.stored.bind generation?

end Writers

/-! ## One compare-and-set

Facts about the stored text alone, whoever wrote it. -/

/-- The key is absent or holds an index. -/
def Indexed (stored : Option Text) : Prop :=
  stored = none ∨ ∃ gen names, stored = some (render gen names)

/-- `new` holds a generation at least as new as `old` does. -/
def NoOlder (old new : Option Text) : Prop :=
  ∀ g, old.bind generation? = some g → ∃ g', new.bind generation? = some g' ∧ g ≤ g'

theorem NoOlder.refl (stored : Option Text) : NoOlder stored stored :=
  fun g hg => ⟨g, hg, le_rfl⟩

theorem NoOlder.trans {a b c : Option Text} (hab : NoOlder a b) (hbc : NoOlder b c) :
    NoOlder a c := by
  intro g hg
  obtain ⟨g', hg', hle⟩ := hab g hg
  obtain ⟨g'', hg'', hle'⟩ := hbc g' hg'
  exact ⟨g'', hg'', hle.trans hle'⟩

/-- The stored index serves the request: its own or a newer one. -/
def Request.Served (r : Request) (stored : Option Text) : Prop :=
  ∃ g, stored.bind generation? = some g ∧ r.gen ≤ g

theorem Request.Served.mono {r : Request} {a b : Option Text} (h : r.Served a)
    (hab : NoOlder a b) : r.Served b := by
  obtain ⟨g, hg, hle⟩ := h
  obtain ⟨g', hg', hle'⟩ := hab g hg
  exact ⟨g', hg', hle.trans hle'⟩

theorem Request.served_new (r : Request) : r.Served (some r.new) :=
  ⟨r.gen, by simp [Request.new], le_rfl⟩

/-- What a call may expect in its `compare_set`: nothing, or an index older than
the one it writes. -/
def Request.Expects (r : Request) (current : Text) : Prop :=
  current = [] ∨ ∃ gen names, current = render gen names ∧ gen < r.gen

theorem Request.Expects.ne_new {r : Request} {current : Text} (h : r.Expects current) :
    current ≠ r.new := by
  obtain rfl | ⟨gen, names, rfl, hlt⟩ := h
  · exact (render_ne_nil _ _).symm
  · intro heq
    have hgen := congrArg generation? heq
    simp only [Request.new, generation?_render, Option.some.injEq] at hgen
    omega

/-- A `compare_set` never installs an older index, and answers the text it was
given only when the stored index serves the request. -/
theorem compareSet_spec {compareSet : CompareSet} (hcas : compareSet.Atomic)
    {stored : Option Text} (hstored : Indexed stored) {r : Request} {current : Text}
    (hexp : r.Expects current) :
    Indexed (compareSet stored current r.new).1 ∧
      NoOlder stored (compareSet stored current r.new).1 ∧
      ((compareSet stored current r.new).2 = r.new →
        r.Served (compareSet stored current r.new).1) := by
  by_cases hmatch : stored.getD [] = current
  · rw [hcas.swap stored current r.new hmatch]
    refine ⟨.inr ⟨r.gen, r.names, rfl⟩, ?_, fun _ => r.served_new⟩
    intro g hg
    obtain rfl | ⟨gen, names, rfl⟩ := hstored
    · simp at hg
    · -- a stored index is what was expected, hence older
      have hcur : render gen names = current := by simpa using hmatch
      have hgen : gen = g := by simpa using hg
      obtain hnil | ⟨gen', names', hcur', hlt⟩ := hexp
      · exact absurd (hcur.trans hnil) (render_ne_nil _ _)
      · have heq := congrArg generation? (hcur.trans hcur')
        simp only [generation?_render, Option.some.injEq] at heq
        exact ⟨r.gen, by simp [Request.new], by omega⟩
  · have hkeep := hcas.keep stored current r.new hmatch
    rw [hkeep]
    refine ⟨hstored, NoOlder.refl _, fun hans => ?_⟩
    obtain heq | heq := hcas.answer stored current r.new hmatch hans
    · exact heq ▸ r.served_new
    · exact absurd heq hexp.ne_new

/-! ## Every interleaving -/

section Writers

variable {W : Type} {compareSet : CompareSet} {request : W → Request}

/-- What the place where a call stands says about the stored index. -/
def Pc.Ok (r : Request) (stored : Option Text) : Pc → Prop
  | .comparing _ current => r.Expects current
  | .returned true => r.Served stored
  | _ => True

theorem Pc.Ok.mono {r : Request} {a b : Option Text} {pc : Pc} (h : pc.Ok r a)
    (hab : NoOlder a b) : pc.Ok r b := by
  cases pc with
  | returned ok =>
      cases ok with
      | true => exact Request.Served.mono h hab
      | false => trivial
  | comparing left current => exact h
  | _ => trivial

theorem Request.afterRead_ok (r : Request) (left : Nat) {value : Text}
    (hvalue : Indexed (some value)) : (r.afterRead left value).Ok r (some value) := by
  obtain habs | ⟨gen, names, hrender⟩ := hvalue
  · cases habs
  · cases hrender
    rw [Request.afterRead, if_neg (render_ne_nil _ _), generation?_render]
    by_cases hle : r.gen ≤ gen
    · simp only [if_pos hle]
      exact ⟨gen, by simp, hle⟩
    · simp only [if_neg hle]
      exact .inr ⟨gen, names, rfl, not_le.mp hle⟩

theorem Request.afterCompareSet_ok (r : Request) (left : Nat) {answer : Text}
    {stored : Option Text} (h : answer = r.new → r.Served stored) :
    (r.afterCompareSet left answer).Ok r stored := by
  by_cases heq : answer = r.new
  · simp only [Request.afterCompareSet, if_pos heq]
    exact h heq
  · simp only [Request.afterCompareSet, if_neg heq]
    cases left <;> trivial

/-- The invariant of the key and of every call. -/
structure Inv (request : W → Request) (s : State W) : Prop where
  stored : Indexed s.stored
  pc : ∀ w, (s.pc w).Ok (request w) s.stored

theorem Inv.expects {s : State W} (hs : Inv request s) {w : W} {left : Nat}
    {current : Text} (hpc : s.pc w = .comparing left current) :
    (request w).Expects current := by
  have hok := hs.pc w
  rw [hpc] at hok
  exact hok

variable [DecidableEq W]

/-- What a step does: one call moves on, and the stored index gets no older. -/
structure Moves (request : W → Request) (s t : State W) (w : W) (pc : Pc) : Prop where
  pc_eq : t.pc = Function.update s.pc w pc
  stored : Indexed t.stored
  noOlder : NoOlder s.stored t.stored
  ok : pc.Ok (request w) t.stored

/-- A step that leaves the key alone. -/
theorem Moves.of_setPc {s : State W} (hs : Inv request s) {w : W} {pc : Pc}
    (hok : pc.Ok (request w) s.stored) : Moves request s (s.setPc w pc) w pc :=
  ⟨rfl, hs.stored, NoOlder.refl _, hok⟩

theorem next_moves (hcas : compareSet.Atomic) {s t : State W} {e : Event W}
    (hs : Inv request s) (hnext : next compareSet request s e = some t) :
    ∃ w pc, Moves request s t w pc := by
  cases e with
  | call w =>
      obtain ⟨-, heq⟩ := Option.ite_none_right_eq_some.mp hnext
      cases heq
      exact ⟨w, _, .of_setPc hs trivial⟩
  | check w =>
      simp only [next] at hnext
      split at hnext
      · cases hnext
        refine ⟨w, _, .of_setPc hs ?_⟩
        split
        · trivial
        · exact .inl rfl
      · cases hnext
  | get w =>
      simp only [next] at hnext
      split at hnext
      · rename_i left value _ hvalue
        cases hnext
        refine ⟨w, _, .of_setPc hs ?_⟩
        rw [hvalue]
        exact (request w).afterRead_ok left (hvalue ▸ hs.stored)
      · cases hnext
  | compareSet w =>
      simp only [next] at hnext
      split at hnext
      · rename_i left current hpc
        cases hnext
        have hexp : (request w).Expects current := hs.expects hpc
        obtain ⟨hindexed, hnoOlder, hserved⟩ := compareSet_spec hcas hs.stored hexp
        exact ⟨w, _, rfl, hindexed, hnoOlder, (request w).afterCompareSet_ok left hserved⟩
      · cases hnext
  | lost w =>
      simp only [next] at hnext
      split at hnext
      · rename_i left current hpc
        cases hnext
        have hexp : (request w).Expects current := hs.expects hpc
        obtain ⟨hindexed, hnoOlder, -⟩ := compareSet_spec hcas hs.stored hexp
        exact ⟨w, _, rfl, hindexed, hnoOlder, trivial⟩
      · cases hnext
  | fail w =>
      simp only [next] at hnext
      split at hnext <;> cases hnext
      all_goals exact ⟨w, _, .of_setPc hs trivial⟩

theorem Moves.inv {s t : State W} {w : W} {pc : Pc} (h : Moves request s t w pc)
    (hs : Inv request s) : Inv request t := by
  refine ⟨h.stored, fun v => ?_⟩
  rw [h.pc_eq]
  by_cases hv : v = w
  · subst hv
    rw [Function.update_self]
    exact h.ok
  · rw [Function.update_of_ne hv]
    exact (hs.pc v).mono h.noOlder

theorem inv_of_reachable (hcas : compareSet.Atomic) {s : State W}
    (hs : (system compareSet request).Reachable s) : Inv request s := by
  refine hs.invariant ?_ ?_
  · rintro s ⟨hstored, hidle⟩
    exact ⟨hstored, fun w => by simp [hidle w, Pc.Ok]⟩
  · intro s e t _ hinv hnext
    obtain ⟨w, pc, hmoves⟩ := next_moves hcas hinv hnext
    exact hmoves.inv hinv

/-- The generation under the key never decreases along a run. -/
theorem noOlder_of_run (hcas : compareSet.Atomic) {s t : State W} {es : List (Event W)}
    (hs : (system compareSet request).Reachable s)
    (hrun : (system compareSet request).run s es = some t) :
    NoOlder s.stored t.stored := by
  refine System.run_relates (R := fun s t : State W => NoOlder s.stored t.stored)
    (fun s => NoOlder.refl s.stored) (fun s t u hst htu => hst.trans htu) ?_ hs hrun
  intro s e t hreach hnext
  obtain ⟨w, pc, hmoves⟩ := next_moves hcas (inv_of_reachable hcas hreach) hnext
  exact hmoves.noOlder

/-- Whatever the calls of `_set_index` and however their requests interleave: the
stored generation never decreases, and once a call has returned `True` the stored
generation is at least the one it asked for. -/
theorem set_index_monotone (hcas : compareSet.Atomic) {s : State W}
    (hs : (system compareSet request).Reachable s) :
    (∀ es t, (system compareSet request).run s es = some t →
      ∀ g, s.storedGen = some g → ∃ g', t.storedGen = some g' ∧ g ≤ g') ∧
    (∀ w, s.pc w = .returned true → ∃ g, s.storedGen = some g ∧ (request w).gen ≤ g) := by
  constructor
  · intro es t hrun
    exact noOlder_of_run hcas hs hrun
  · intro w hpc
    have hok := (inv_of_reachable hcas hs).pc w
    rw [hpc] at hok
    exact hok

/-- Two calls on one key, of the generations 2 and 1. -/
def twoRequests (w : Bool) : Request :=
  if w then ⟨2, [['a']]⟩ else ⟨1, [['b']]⟩

/-- The key absent and no call made. -/
def absent : State Bool := ⟨none, fun _ => .idle⟩

/-- The call of generation 1 reads the absent key, is overtaken by that of
generation 2, loses its `compare_set` and sees the newer index. -/
theorem set_index_monotone_overtaken :
    ∃ s, (system tcpCompareSet twoRequests).run absent
        [.call false, .check false, .call true, .check true, .compareSet true,
          .compareSet false, .check false, .get false] = some s ∧
      s.storedGen = some 2 ∧ s.pc false = .returned true ∧
      (∃ g, s.storedGen = some g ∧ (twoRequests false).gen ≤ g) ∧
      ∀ es t, (system tcpCompareSet twoRequests).run s es = some t →
        ∀ g, s.storedGen = some g → ∃ g', t.storedGen = some g' ∧ g ≤ g' := by
  have hrun : ((system tcpCompareSet twoRequests).run absent
      [.call false, .check false, .call true, .check true, .compareSet true,
        .compareSet false, .check false, .get false]).any
      (fun s => decide (s.storedGen = some 2 ∧ s.pc false = .returned true)) = true := by
    decide
  obtain ⟨s, hs, hdec⟩ := (Option.any_eq_true _ _).mp hrun
  obtain ⟨hgen, hpc⟩ := of_decide_eq_true hdec
  have hinit : (system tcpCompareSet twoRequests).Init absent := ⟨.inl rfl, fun _ => rfl⟩
  obtain ⟨hrunle, hret⟩ :=
    set_index_monotone tcpCompareSet_atomic (System.Reachable.run (.of_init hinit) hs)
  exact ⟨s, hs, hgen, hpc, hret false hpc, hrunle⟩

end Writers

end TorchMojoBackend.Distributed.IndexKey
