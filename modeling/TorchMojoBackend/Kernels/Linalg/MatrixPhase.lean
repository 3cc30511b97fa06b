/-
  `Kernels.Linalg.MatrixPhase`: phases that change a matrix.

  Between two barriers the threads of a block load and store elements of one matrix.  Each piece of
  the work stores elements that no other piece loads or stores, so that a phase is a function on
  matrices (`Phase.matrix`).
-/
import TorchMojoBackend.Foundation.BatchLaunch
import TorchMojoBackend.Kernels.Linalg.Cells

set_option autoImplicit false

namespace TorchMojoBackend.Kernels.Linalg

open TorchMojoBackend.Foundation
open TorchMojoBackend.Foundation.Code (each)

variable {K : Type}

/-- The elements of a domain have addresses of their own. -/
def Distinct (addr : Nat → Nat → Int) (Dom : Nat → Nat → Prop) : Prop :=
  ∀ i j i' j', Dom i j → Dom i' j' → addr i j = addr i' j' → i = i' ∧ j = j'

/-- The cells of a matrix hold the elements of `M`. -/
def Holds (arg : FloatArg) (addr : Nat → Nat → Int) (Dom : Nat → Nat → Prop) (M : Nat → Nat → K)
    (m : ∀ c, Cell.Val K c) : Prop := ∀ i j, Dom i j → m (.float arg (addr i j)) = M i j

/-- The cells of a matrix. -/
def OnMatrix (arg : FloatArg) (addr : Nat → Nat → Int) (Dom : Nat → Nat → Prop) (c : Cell) : Prop :=
  ∃ i j, Dom i j ∧ c = .float arg (addr i j)

/-- No cell. -/
abbrev noCell : Cell → Prop := fun _ => False

theorem Distinct.mono {addr : Nat → Nat → Int} {Dom Dom' : Nat → Nat → Prop}
    (h : Distinct addr Dom) (hsub : ∀ i k, Dom' i k → Dom i k) : Distinct addr Dom' :=
  fun i k i' k' hd hd' => h i k i' k' (hsub i k hd) (hsub i' k' hd')

theorem OnMatrix.mono {arg : FloatArg} {addr : Nat → Nat → Int} {Dom Dom' : Nat → Nat → Prop} {c : Cell}
    (h : OnMatrix arg addr Dom' c) (hsub : ∀ i k, Dom' i k → Dom i k) : OnMatrix arg addr Dom c :=
  h.imp fun i ⟨k, hd, hc⟩ => ⟨k, hsub i k hd, hc⟩

/-- The elements of a matrix. -/
def Full (rows cols : Nat) (i k : Nat) : Prop := i < rows ∧ k < cols

/-- The matrices of a batch have elements of their own. -/
def Entries (batch rows cols : Nat) (rs cs bs : Int) : Prop :=
  ∀ b b' i k i' k', b < batch → b' < batch → Full rows cols i k → Full rows cols i' k' →
    el rs cs (b * bs) i k = el rs cs (b' * bs) i' k' → b = b' ∧ i = i' ∧ k = k'

theorem Entries.full {batch rows cols : Nat} {rs cs bs : Int} (h : Entries batch rows cols rs cs bs)
    {b : Nat} (hb : b < batch) : Distinct (el rs cs (b * bs)) (Full rows cols) :=
  fun i k i' k' hd hd' heq => (h b b i k i' k' hb hb hd hd' heq).2

/-- What a piece of a phase loads and stores: matrix elements that `reads` and `tgt` name, cells of
`C` that nobody stores, and stored cells `extra` outside the matrix. -/
structure Does (arg : FloatArg) (addr : Nat → Nat → Int) (M' : Nat → Nat → K) (C extra : Cell → Prop)
    (reads tgt : Nat → Nat → Prop) (c : Code (Cell.Val K) Unit) (m : ∀ c, Cell.Val K c) : Prop where
  loads : ∀ x, c.Loads m x → C x ∨ ∃ i j, reads i j ∧ x = .float arg (addr i j)
  sets : ∀ i j, tgt i j → c.writes m (.float arg (addr i j)) = some (M' i j)
  stores : ∀ x, (c.writes m x).isSome → (∃ i j, tgt i j ∧ x = .float arg (addr i j)) ∨ extra x

section Rule

variable {nt lo n : Nat} {arg : FloatArg} {addr : Nat → Nat → Int} {Dom : Nat → Nat → Prop}
  {M' : Nat → Nat → K} {C : Cell → Prop} {P Q : (∀ c, Cell.Val K c) → Prop}
  {lead : Code (Cell.Val K) Unit} {f : Nat → Code (Cell.Val K) Unit}

/-- A phase after which the matrix is `M'`, and that stores some cells outside it. -/
theorem Phase.matrix_extra (reads tgt : Option Nat → Nat → Nat → Prop)
    (extra : Option Nat → Cell → Prop) (hpos : 0 < nt) (hinj : Distinct addr Dom) (hC : ∀ c, C c → ¬ OnMatrix arg addr Dom c)
    (hextra : ∀ k, IsPiece lo n k → ∀ c, extra k c → ¬ C c ∧ ¬ OnMatrix arg addr Dom c)
    (hextras : ∀ k l, IsPiece lo n k → IsPiece lo n l → k ≠ l → ∀ c, extra k c → ¬ extra l c)
    (hdoes : ∀ m, P m → ∀ k, IsPiece lo n k →
      Does arg addr M' C (extra k) (reads k) (tgt k) (piece lead f k) m)
    (hreads : ∀ k, IsPiece lo n k → ∀ i j, reads k i j → Dom i j)
    (htgt : ∀ k, IsPiece lo n k → ∀ i j, tgt k i j → Dom i j)
    (hapart : ∀ k l, IsPiece lo n k → IsPiece lo n l → k ≠ l → ∀ i j, tgt k i j →
      ¬ reads l i j ∧ ¬ tgt l i j)
    (hsame : ∀ m, P m → ∀ i j, Dom i j → (∀ k, IsPiece lo n k → ¬ tgt k i j) →
      m (.float arg (addr i j)) = M' i j)
    (hQ : ∀ m m', P m → (∀ k, IsPiece lo n k → ∀ c v, extra k c →
      (piece lead f k).writes m c = some v → m' c = v) → Q m') :
    Phase (fun c => C c ∨ OnMatrix arg addr Dom c)
      (fun c => OnMatrix arg addr Dom c ∨ ∃ k, IsPiece lo n k ∧ extra k c) P
      (fun t : Fin nt => (lead.first t).bind fun _ => each (threadItems nt lo n t) f)
      fun _ m' => Holds arg addr Dom M' m' ∧ Q m' := by
  -- equal cells of the matrix are the same element
  have hcell : ∀ {i j i' j'}, Dom i j → Dom i' j' →
      Cell.float arg (addr i j) = Cell.float arg (addr i' j') → i = i' ∧ j = j' := fun hd hd' h =>
    hinj _ _ _ _ hd hd' (Cell.float.inj h).2
  refine Phase.pieces hpos (fun m hm k hk c hc => ?_) (fun m hm k hk c hc => ?_)
    (fun m hm k l hk hl hkl c => ?_) fun m m' hm hleaves hframe =>
      ⟨fun i j hd => ?_, hQ m m' hm fun k hk c v _ hv => hleaves k hk c v hv⟩
  · obtain hc | ⟨i, j, hr, rfl⟩ := (hdoes m hm k hk).loads c hc
    · exact .inl hc
    · exact .inr ⟨i, j, hreads k hk i j hr, rfl⟩
  · obtain ⟨i, j, ht, rfl⟩ | he := (hdoes m hm k hk).stores c hc
    · exact .inl ⟨i, j, htgt k hk i j ht, rfl⟩
    · exact .inr ⟨k, hk, he⟩
  · have hone : ∀ {k l : Option Nat}, IsPiece lo n k → IsPiece lo n l → k ≠ l →
        ((piece lead f k).writes m c).isSome → ¬ (piece lead f l).Loads m c ∧
          ¬ ((piece lead f l).writes m c).isSome := by
      intro k l hk hl hkl hc
      obtain ⟨i, j, ht, rfl⟩ | he := (hdoes m hm k hk).stores c hc
      · have hd := htgt k hk i j ht
        obtain ⟨hnr, hnt⟩ := hapart k l hk hl hkl i j ht
        constructor
        · intro hload
          obtain hcc | ⟨i', j', hr, heq⟩ := (hdoes m hm l hl).loads _ hload
          · exact hC _ hcc ⟨i, j, hd, rfl⟩
          · obtain ⟨rfl, rfl⟩ := hcell hd (hreads l hl i' j' hr) heq
            exact hnr hr
        · intro hstore
          obtain ⟨i', j', ht', heq⟩ | he := (hdoes m hm l hl).stores _ hstore
          · obtain ⟨rfl, rfl⟩ := hcell hd (htgt l hl i' j' ht') heq
            exact hnt ht'
          · exact (hextra l hl _ he).2 ⟨i, j, hd, rfl⟩
      · constructor
        · intro hload
          obtain hcc | ⟨i', j', hr, rfl⟩ := (hdoes m hm l hl).loads c hload
          · exact (hextra k hk c he).1 hcc
          · exact (hextra k hk _ he).2 ⟨i', j', hreads l hl i' j' hr, rfl⟩
        · intro hstore
          obtain ⟨i', j', ht', rfl⟩ | he' := (hdoes m hm l hl).stores c hstore
          · exact (hextra k hk _ he).2 ⟨i', j', htgt l hl i' j' ht', rfl⟩
          · exact hextras k l hk hl hkl c he he'
    refine ⟨fun hc => ?_, fun hc => (hone hl hk (Ne.symm hkl) hc).1⟩
    obtain ⟨hload, hstore⟩ := hone hk hl hkl hc
    exact ⟨hload, Option.not_isSome_iff_eq_none.mp hstore⟩
  · by_cases hsome : ∃ k, IsPiece lo n k ∧ tgt k i j
    · obtain ⟨k, hk, ht⟩ := hsome
      exact hleaves k hk _ _ ((hdoes m hm k hk).sets i j ht)
    · have hnone : ∀ k, IsPiece lo n k → ¬ tgt k i j := fun k hk ht => hsome ⟨k, hk, ht⟩
      rw [← hsame m hm i j hd hnone]
      refine hframe _ (.inr (.inl ⟨i, j, hd, rfl⟩)) fun k hk =>
        Option.not_isSome_iff_eq_none.mp fun hstore => ?_
      obtain ⟨i', j', ht, heq⟩ | he := (hdoes m hm k hk).stores _ hstore
      · obtain ⟨rfl, rfl⟩ := hcell hd (htgt k hk i' j' ht) heq
        exact hnone k hk ht
      · exact (hextra k hk _ he).2 ⟨i, j, hd, rfl⟩

/-- A phase after which the matrix is `M'`. -/
theorem Phase.matrix (reads tgt : Option Nat → Nat → Nat → Prop) (hpos : 0 < nt)
    (hinj : Distinct addr Dom) (hC : ∀ c, C c → ¬ OnMatrix arg addr Dom c)
    (hdoes : ∀ m, P m → ∀ k, IsPiece lo n k →
      Does arg addr M' C (fun _ => False) (reads k) (tgt k) (piece lead f k) m)
    (hreads : ∀ k, IsPiece lo n k → ∀ i j, reads k i j → Dom i j)
    (htgt : ∀ k, IsPiece lo n k → ∀ i j, tgt k i j → Dom i j)
    (hapart : ∀ k l, IsPiece lo n k → IsPiece lo n l → k ≠ l → ∀ i j, tgt k i j →
      ¬ reads l i j ∧ ¬ tgt l i j)
    (hsame : ∀ m, P m → ∀ i j, Dom i j → (∀ k, IsPiece lo n k → ¬ tgt k i j) →
      m (.float arg (addr i j)) = M' i j) :
    Phase (fun c => C c ∨ OnMatrix arg addr Dom c) (OnMatrix arg addr Dom) P
      (fun t : Fin nt => (lead.first t).bind fun _ => each (threadItems nt lo n t) f)
      fun _ m' => Holds arg addr Dom M' m' := by
  have h := Phase.matrix_extra (Q := fun _ => True) reads tgt (fun _ _ => False) hpos hinj hC
    (fun _ _ _ h => h.elim) (fun _ _ _ _ _ _ h => h.elim) hdoes hreads htgt hapart hsame
    fun _ _ _ _ => trivial
  exact ((h.weaken (fun _ => id) fun _ _ hm => hm.1).mono (fun _ => id) fun c hc =>
    hc.resolve_right fun ⟨_, _, hc⟩ => hc)

/-- A loop over elements: the item `i` loads what `reads` names and stores what `tgt` names. -/
theorem Phase.matrix_each (reads tgt : Nat → Nat → Nat → Prop) (hpos : 0 < nt)
    (hinj : Distinct addr Dom) (hC : ∀ c, C c → ¬ OnMatrix arg addr Dom c)
    (hdoes : ∀ m, P m → ∀ k, lo ≤ k → k < n →
      Does arg addr M' C (fun _ => False) (reads k) (tgt k) (f k) m)
    (hreads : ∀ k, lo ≤ k → k < n → ∀ i j, reads k i j → Dom i j)
    (htgt : ∀ k, lo ≤ k → k < n → ∀ i j, tgt k i j → Dom i j)
    (hapart : ∀ k l, lo ≤ k → k < n → lo ≤ l → l < n → k ≠ l → ∀ i j, tgt k i j →
      ¬ reads l i j ∧ ¬ tgt l i j)
    (hsame : ∀ m, P m → ∀ i j, Dom i j → (∀ k, lo ≤ k → k < n → ¬ tgt k i j) →
      m (.float arg (addr i j)) = M' i j) :
    Phase (fun c => C c ∨ OnMatrix arg addr Dom c) (OnMatrix arg addr Dom) P
      (fun t : Fin nt => each (threadItems nt lo n t) f)
      fun _ m' => Holds arg addr Dom M' m' := by
  have hcode : (fun t : Fin nt => each (threadItems nt lo n t) f) = fun t : Fin nt =>
      ((.ret () : Code (Cell.Val K) Unit).first t).bind fun _ => each (threadItems nt lo n t) f :=
    funext fun t => by
    rw [Code.first, ite_self]
    rfl
  rw [hcode]
  refine Phase.matrix (fun k i j => ∃ l, k = some l ∧ reads l i j)
    (fun k i j => ∃ l, k = some l ∧ tgt l i j) hpos hinj hC (fun m hm k hk => ?_) ?_ ?_ ?_ ?_
  · cases k with
    | none =>
        refine ⟨fun _ h => h.elim, ?_, fun _ h => ?_⟩
        · rintro i j ⟨l, h, -⟩
          cases h
        · cases h
    | some k =>
        have h := hdoes m hm k hk.1 hk.2
        refine ⟨fun x hx => ?_, ?_, fun x hx => ?_⟩
        · refine (h.loads x hx).imp_right ?_
          rintro ⟨i, j, hr, hx⟩
          exact ⟨i, j, ⟨k, rfl, hr⟩, hx⟩
        · rintro i j ⟨l, hl, ht⟩
          obtain rfl := Option.some.inj hl
          exact h.sets i j ht
        · refine (h.stores x hx).imp_left ?_
          rintro ⟨i, j, ht, hx⟩
          exact ⟨i, j, ⟨k, rfl, ht⟩, hx⟩
  · rintro k hk i j ⟨l, rfl, hr⟩
    exact hreads l hk.1 hk.2 i j hr
  · rintro k hk i j ⟨l, rfl, ht⟩
    exact htgt l hk.1 hk.2 i j ht
  · rintro k l hk hl hkl i j ⟨k', rfl, ht⟩
    constructor
    · rintro ⟨l', rfl, hr⟩
      exact (hapart k' l' hk.1 hk.2 hl.1 hl.2 (fun h => hkl (congrArg some h)) i j ht).1 hr
    · rintro ⟨l', rfl, ht'⟩
      exact (hapart k' l' hk.1 hk.2 hl.1 hl.2 (fun h => hkl (congrArg some h)) i j ht).2 ht'
  · intro m hm i j hd hnone
    exact hsame m hm i j hd fun k hlo hk ht => hnone (some k) ⟨hlo, hk⟩ ⟨k, rfl, ht⟩

end Rule

end TorchMojoBackend.Kernels.Linalg
