/-
  `Foundation.BatchLaunch`: blocks that walk a batch.

  Everything in this file is independent of the modelled program.  An entry of a batch has cells
  of its own; a block that does one entry after the other, in scratch cells of its own, leaves
  what the entries ask for, and the blocks of a launch do not disturb each other in any order of
  their steps (`GridEnds.of_entries`).

  A computation that calls launches is given by what it must satisfy: `run post` says that it
  ends, and that `post` holds of its result whatever its environment chooses.
-/
import TorchMojoBackend.Foundation.BlockRules

set_option autoImplicit false

namespace TorchMojoBackend.Foundation

universe u v w x

section

variable {Addr : Type u} {Val : Addr → Type v} [DecidableEq Addr] {nt : Nat}

/-! ## The entries of a block -/

/-- One entry of a batch: whatever comes after it in other cells, the block does it in the cells
`D` with scratch cells `S`, reads `C` also, and in the end `Q` holds. -/
def BatchEntry (C S D : Addr → Prop) (P Q : (∀ a, Val a) → Prop) (th : Fin nt → Thread Val Unit) :
    Prop :=
  ∀ (D' : Addr → Prop) (post : (∀ a, Val a) → Prop) (K : Fin nt → Code Val (Prog Val))
    (m : ∀ a, Val a), (∀ a, D a → ¬ D' a) → (∀ a, D' a → ¬ C a ∧ ¬ S a) → P m →
    (∀ m', AgreeOn (fun a => C a ∨ D' a) m m' →
      Ends (fun a => C a ∨ D' a ∨ S a) (fun a => D' a ∨ S a) post m' K) →
    Ends (fun a => C a ∨ (D a ∨ D' a) ∨ S a) (fun a => (D a ∨ D' a) ∨ S a)
      (fun m' => post m' ∧ Q m') m fun t => th t fun _ => K t

variable {C S D : Addr → Prop} {P Q : (∀ a, Val a) → Prop}

/-- An entry that ends at a barrier. -/
theorem BatchEntry.of_spec {th : Fin nt → Thread Val Unit}
    {Qs : (Fin nt → Unit) → (∀ a, Val a) → Prop}
    (h : Spec (fun a => C a ∨ D a ∨ S a) (fun a => D a ∨ S a) P th Qs)
    (hD : ∀ a, D a → ¬ C a ∧ ¬ S a) (hSC : ∀ a, S a → ¬ C a)
    (hQ : ∀ x m m', Qs x m → AgreeOn (fun a => C a ∨ D a) m m' → Q m') :
    BatchEntry C S D P Q th := by
  intro D' post K m hDD' hD' hm hK
  refine h _ _ ?_ ?_ ?_ _ (fun t _ => K t) m hm fun x m1 hx hframe => ?_
  · rintro a (ha | ha | ha)
    · exact .inl ha
    · exact .inr (.inl (.inl ha))
    · exact .inr (.inr ha)
  · rintro a (ha | ha)
    · exact .inl (.inl ha)
    · exact .inr ha
  · exact fun a ha => .inr ha
  · obtain ⟨n, hn⟩ := hK m1 (by
      rintro a (ha | ha)
      · refine hframe a (.inl ha) ?_
        rintro (hd | hs)
        · exact (hD a hd).1 ha
        · exact hSC a hs ha
      · refine hframe a (.inr (.inl (.inr ha))) ?_
        rintro (hd | hs)
        · exact hDD' a hd ha
        · exact (hD' a ha).2 hs)
    have hoff : ∀ a, C a ∨ D a → ¬ (D' a ∨ S a) := by
      rintro a (ha | ha) (hd | hs)
      · exact (hD' a hd).1 ha
      · exact hSC a hs ha
      · exact hDD' a ha hd
      · exact (hD a ha).2 hs
    refine ⟨n, ((hn.frame hoff (AgreeOn.refl _ m1)).weaken fun m' hm' =>
      ⟨hm'.1, hQ x m1 m' hx hm'.2⟩).mono_region ?_ ?_⟩
    · rintro a ((ha | ha | ha) | ha | ha)
      · exact .inl ha
      · exact .inr (.inl (.inr ha))
      · exact .inr (.inr ha)
      · exact .inl ha
      · exact .inr (.inl (.inl ha))
    · rintro a (ha | ha)
      · exact .inl (.inr ha)
      · exact .inr ha

/-- A block does entries one after the other. -/
theorem Ends.entries {β : Type x} {D : β → Addr → Prop} {P Q : β → (∀ a, Val a) → Prop}
    {th : β → Fin nt → Thread Val Unit} {l : List β} (hnodup : l.Nodup)
    (hentry : ∀ b ∈ l, BatchEntry C S (D b) (P b) (Q b) (th b))
    (hD : ∀ b ∈ l, ∀ a, D b a → ¬ C a ∧ ¬ S a)
    (hDD : ∀ b ∈ l, ∀ b' ∈ l, b ≠ b' → ∀ a, D b a → ¬ D b' a)
    (hP : ∀ b ∈ l, ∀ m m', P b m → AgreeOn (fun a => C a ∨ D b a) m m' → P b m')
    {m : ∀ a, Val a} (hm : ∀ b ∈ l, P b m) :
    Ends (fun a => C a ∨ (∃ b ∈ l, D b a) ∨ S a) (fun a => (∃ b ∈ l, D b a) ∨ S a)
      (fun m' => ∀ b ∈ l, Q b m') m fun t => Thread.start (l.forM fun b => th b t) := by
  induction l generalizing m with
  | nil => exact .stop fun m' _ b hb => absurd hb List.not_mem_nil
  | cons b l ih =>
      obtain ⟨hb, hl⟩ := List.nodup_cons.mp hnodup
      have hmem : ∀ {b'}, b' ∈ l → b' ∈ b :: l := List.mem_cons_of_mem b
      have hself : b ∈ b :: l := List.mem_cons_self
      have hdiff : ∀ {b'}, b' ∈ l → b ≠ b' := fun hb' h => hb (h ▸ hb')
      obtain ⟨n, hn⟩ := hentry b hself (fun a => ∃ b' ∈ l, D b' a) (fun m' => ∀ b' ∈ l, Q b' m')
        (fun t => Thread.start (l.forM fun b' => th b' t)) m
        (fun a ha ⟨b', hb', ha'⟩ => hDD b hself b' (hmem hb') (hdiff hb') a ha ha')
        (fun a ⟨b', hb', ha'⟩ => hD b' (hmem hb') a ha') (hm b hself) fun m' hm' =>
          ih hl (fun b' hb' => hentry b' (hmem hb')) (fun b' hb' => hD b' (hmem hb'))
            (fun b' hb' b'' hb'' => hDD b' (hmem hb') b'' (hmem hb''))
            (fun b' hb' => hP b' (hmem hb')) fun b' hb' =>
              hP b' (hmem hb') m m' (hm b' (hmem hb')) fun a ha =>
                hm' a (ha.imp_right fun ha => ⟨b', hb', ha⟩)
      refine ⟨n, (hn.weaken fun m' hm' b' hb' => ?_).mono_region ?_ ?_⟩
      · obtain rfl | hb' := List.mem_cons.mp hb'
        · exact hm'.2
        · exact hm'.1 b' hb'
      · rintro a (ha | (ha | ⟨b', hb', ha⟩) | ha)
        · exact .inl ha
        · exact .inr (.inl ⟨b, hself, ha⟩)
        · exact .inr (.inl ⟨b', hmem hb', ha⟩)
        · exact .inr (.inr ha)
      · rintro a ((ha | ⟨b', hb', ha⟩) | ha)
        · exact .inl ⟨b, hself, ha⟩
        · exact .inl ⟨b', hmem hb', ha⟩
        · exact .inr ha

/-! ## The blocks of a launch -/

section Grid

variable {nb : Nat}

/-- One step of one block. -/
inductive GridStep (m : ∀ a, Val a) (th : Fin nb → Fin nt → Code Val (Prog Val)) :
    (∀ a, Val a) → (Fin nb → Fin nt → Code Val (Prog Val)) → Prop
  | mk {m' : ∀ a, Val a} {b : Fin nb} {c : Fin nt → Code Val (Prog Val)}
      (h : BlockStep m (th b) m' c) : GridStep m th m' (Function.update th b c)

/-- Every order of the steps of all blocks loads from `R` and stores to `W`, goes on until all
threads have stopped, and ends with `Q` after `n` steps at most. -/
inductive GridEnds (R W : Addr → Prop) (Q : (∀ a, Val a) → Prop) :
    Nat → (∀ a, Val a) → (Fin nb → Fin nt → Code Val (Prog Val)) → Prop
  | stop {n : Nat} {m : ∀ a, Val a} {th : Fin nb → Fin nt → Code Val (Prog Val)}
      (hth : ∀ b t, th b t = .ret .stop) (hq : Q m) : GridEnds R W Q n m th
  | more {n : Nat} {m : ∀ a, Val a} {th : Fin nb → Fin nt → Code Val (Prog Val)}
      (loads : ∀ b t a, (th b t).NextLoad a → R a) (stores : ∀ b t a, (th b t).NextStore a → W a)
      (live : ∃ m' th', GridStep m th m' th')
      (next : ∀ m' th', GridStep m th m' th' → GridEnds R W Q n m' th') : GridEnds R W Q (n + 1) m th

theorem BlockStep.not_stopped {m m' : ∀ a, Val a} {th c : Fin nt → Code Val (Prog Val)}
    (h : BlockStep m th m' c) : ¬ ∀ t, th t = .ret .stop := by
  intro hstop
  cases h with
  | load hth => exact nomatch (hstop _).symm.trans hth
  | store hth => exact nomatch (hstop _).symm.trans hth
  | barrier hpos hth => exact nomatch (hstop ⟨0, hpos⟩).symm.trans (hth ⟨0, hpos⟩)

theorem GridEnds.mono {R W R' W' : Addr → Prop} {Q Q' : (∀ a, Val a) → Prop} {n : Nat}
    {m : ∀ a, Val a} {th : Fin nb → Fin nt → Code Val (Prog Val)} (h : GridEnds R W Q n m th)
    (hR : ∀ a, R a → R' a) (hW : ∀ a, W a → W' a) (hQ : ∀ m, Q m → Q' m) :
    GridEnds R' W' Q' n m th := by
  induction h with
  | stop hth hq => exact .stop hth (hQ _ hq)
  | more loads stores live _ ih =>
      exact .more (fun b t a ha => hR a (loads b t a ha)) (fun b t a ha => hW a (stores b t a ha))
        live ih

section Surely

variable {R W : Addr → Prop} {m : ∀ a, Val a} {th : Fin nt → Code Val (Prog Val)} {n : Nat}

theorem Surely.done (h : Surely R W Q n m th) (hstop : ∀ t, th t = .ret .stop) : Q m := by
  cases h with
  | stop _ hq => exact hq m (AgreeOn.refl _ m)
  | more _ _ live _ =>
      obtain ⟨m', c, hstep⟩ := live m (AgreeOn.refl _ m)
      exact absurd hstop hstep.not_stopped

/-- A block that has not stopped goes on. -/
theorem Surely.goes (h : Surely R W Q n m th) (hgo : ¬ ∀ t, th t = .ret .stop) :
    ∃ k, n = k + 1 ∧ (∀ t a, (th t).NextLoad a → R a) ∧ (∀ t a, (th t).NextStore a → W a) ∧
      (∃ m' c, BlockStep m th m' c) ∧ ∀ m' c, BlockStep m th m' c → Surely R W Q k m' c := by
  cases h with
  | stop hth _ => exact absurd hth hgo
  | @more k _ _ loads stores live next =>
      exact ⟨k, rfl, loads, stores, live m (AgreeOn.refl _ m), next m (AgreeOn.refl _ m)⟩

/-- A step stores a cell of the block at most. -/
theorem BlockStep.agree {m' : ∀ a, Val a} {c : Fin nt → Code Val (Prog Val)}
    (h : BlockStep m th m' c) (hstores : ∀ t a, (th t).NextStore a → W a) :
    ∀ a, ¬ W a → m' a = m a := by
  intro a ha
  cases h with
  | load _ => rfl
  | barrier _ _ => rfl
  | @store t b x k hth =>
      refine Function.update_of_ne (fun hab => ha (hstores t a ?_)) _ _
      rw [hth]
      exact hab

end Surely

/-- Blocks that store no cell of each other. -/
theorem GridEnds.of_surely {R W : Fin nb → Addr → Prop} {Q : Fin nb → (∀ a, Val a) → Prop}
    (hdisj : ∀ b b', b ≠ b' → ∀ a, W b a → ¬ R b' a) (k : Nat) {n : Fin nb → Nat}
    {m : ∀ a, Val a} {th : Fin nb → Fin nt → Code Val (Prog Val)}
    (h : ∀ b, Surely (R b) (W b) (Q b) (n b) m (th b)) (hk : ∑ b, n b = k) :
    GridEnds (fun a => ∃ b, R b a) (fun a => ∃ b, W b a) (fun m' => ∀ b, Q b m') k m th := by
  induction k generalizing n m th with
  | zero =>
      have hall : ∀ b t, th b t = .ret .stop := fun b => by
        by_contra hgo
        obtain ⟨k, hn, -⟩ := (h b).goes hgo
        rw [Finset.sum_eq_zero_iff.mp hk b (Finset.mem_univ b)] at hn
        exact nomatch hn
      exact .stop hall fun b => (h b).done (hall b)
  | succ k ih =>
      by_cases hall : ∀ b t, th b t = .ret .stop
      · exact .stop hall fun b => (h b).done (hall b)
      · have hgo : ∀ {b m' c}, BlockStep m (th b) m' c → ¬ ∀ t, th b t = .ret .stop :=
          fun hstep => hstep.not_stopped
        refine .more (fun b t a ha => ⟨b, ?_⟩) (fun b t a ha => ⟨b, ?_⟩) ?_ fun m' th' hstep => ?_
        · obtain ⟨_, _, hloads, -⟩ := (h b).goes fun hstop => by
            rw [hstop t] at ha
            exact ha
          exact hloads t a ha
        · obtain ⟨_, _, _, hstores, -⟩ := (h b).goes fun hstop => by
            rw [hstop t] at ha
            exact ha
          exact hstores t a ha
        · obtain ⟨b, hb⟩ := not_forall.mp hall
          obtain ⟨_, _, _, _, ⟨m', c, hstep⟩, -⟩ := (h b).goes hb
          exact ⟨m', _, .mk hstep⟩
        · cases hstep with
          | @mk b c hstep =>
              obtain ⟨j, hj, -, hstores, -, hnext⟩ := (h b).goes (hgo hstep)
              refine ih (n := Function.update n b j) (fun b' => ?_) ?_
              · by_cases hb : b' = b
                · subst hb
                  rw [Function.update_self, Function.update_self]
                  exact hnext m' c hstep
                · rw [Function.update_of_ne hb, Function.update_of_ne hb]
                  exact (h b').congr fun a ha =>
                    hstep.agree hstores a fun hw => hdisj b b' (Ne.symm hb) a hw ha
              · refine (Nat.succ.inj (hk.symm.trans ?_)).symm
                refine sum_step (t := b) ?_ fun s hs => by rw [Function.update_of_ne hs]
                rw [hj, Function.update_self]

/-- The blocks of a launch: each walks the batch from its index on, by the number of blocks. -/
theorem GridEnds.of_entries (hblocks : 0 < nb) {batch : Nat} {S : Fin nb → Addr → Prop}
    {D : Nat → Addr → Prop} {P Q : Nat → (∀ a, Val a) → Prop}
    {th : Fin nb → Nat → Fin nt → Thread Val Unit}
    (hentry : ∀ blk b, b < batch → BatchEntry C (S blk) (D b) (P b) (Q b) (th blk b))
    (hD : ∀ blk b, b < batch → ∀ a, D b a → ¬ C a ∧ ¬ S blk a)
    (hDD : ∀ b b', b < batch → b' < batch → b ≠ b' → ∀ a, D b a → ¬ D b' a)
    (hS : ∀ blk a, S blk a → ¬ C a) (hSS : ∀ blk blk', blk ≠ blk' → ∀ a, S blk a → ¬ S blk' a)
    (hP : ∀ b, b < batch → ∀ m m', P b m → AgreeOn (fun a => C a ∨ D b a) m m' → P b m')
    {m : ∀ a, Val a} (hm : ∀ b, b < batch → P b m) :
    ∃ n, GridEnds (fun a => C a ∨ (∃ b < batch, D b a) ∨ ∃ blk, S blk a)
      (fun a => (∃ b < batch, D b a) ∨ ∃ blk, S blk a) (fun m' => ∀ b < batch, Q b m') n m
      fun blk t => Thread.start ((threadItems nb 0 batch blk).forM fun b => th blk b t) := by
  have hlt : ∀ {blk b}, b ∈ threadItems nb 0 batch blk → b < batch := fun hb =>
    (mem_threadItems.mp hb).2.1
  have hends := fun blk => Ends.entries (threadItems_nodup 0 batch blk)
    (fun b hb => hentry blk b (hlt hb)) (fun b hb => hD blk b (hlt hb))
    (fun b hb b' hb' => hDD b b' (hlt hb) (hlt hb')) (fun b hb => hP b (hlt hb))
    fun b hb => hm b (hlt hb)
  choose n hn using hends
  refine ⟨_, GridEnds.mono (GridEnds.of_surely ?_ _ hn rfl) ?_ ?_ ?_⟩
  · rintro blk blk' hne a (⟨b, hb, ha⟩ | ha) (hc | ⟨b', hb', ha'⟩ | ha')
    · exact (hD blk b (hlt hb) a ha).1 hc
    · have hbb : b ≠ b' := by
        rintro rfl
        exact hne (threadItems_inj hb hb')
      exact hDD b b' (hlt hb) (hlt hb') hbb a ha ha'
    · exact (hD blk' b (hlt hb) a ha).2 ha'
    · exact hS blk a ha hc
    · exact (hD blk b' (hlt hb') a ha').2 ha
    · exact hSS blk blk' hne a ha ha'
  · rintro a ⟨blk, ha | ⟨b, hb, ha⟩ | ha⟩
    · exact .inl ha
    · exact .inr (.inl ⟨b, hlt hb, ha⟩)
    · exact .inr (.inr ⟨blk, ha⟩)
  · rintro a ⟨blk, ⟨b, hb, ha⟩ | ha⟩
    · exact .inl ⟨b, hlt hb, ha⟩
    · exact .inr ⟨blk, ha⟩
  · intro m' hq b hb
    obtain ⟨blk, hblk⟩ := exists_threadItems hblocks (Nat.zero_le b) hb
    exact hq blk b hblk

end Grid

end

/-! ## Computations with choices of their environment -/

structure Must (α : Type u) where
  run : (α → Prop) → Prop
  mono : ∀ {p q : α → Prop}, (∀ x, p x → q x) → run p → run q

namespace Must

variable {α β : Type u}

/-- One of the values that `p` admits. -/
def any (p : α → Prop) : Must α where
  run post := ∀ x, p x → post x
  mono h hrun x hx := h x (hrun x hx)

instance : Monad Must where
  pure x := ⟨fun post => post x, fun h => h x⟩
  bind c f := ⟨fun post => c.run fun x => (f x).run post, fun h =>
    c.mono fun x => (f x).mono h⟩

@[simp] theorem run_pure (x : α) (post : α → Prop) : (pure x : Must α).run post = post x := rfl

@[simp] theorem run_bind (c : Must α) (f : α → Must β) (post : β → Prop) :
    (c >>= f).run post = c.run fun x => (f x).run post := rfl

@[simp] theorem run_any (p post : α → Prop) : (any p).run post = ∀ x, p x → post x := rfl

/-- A computation followed by another one. -/
theorem bind_of {c : Must α} {f : α → Must β} {p : α → Prop} {post : β → Prop} (hc : c.run p)
    (hf : ∀ x, p x → (f x).run post) : (c >>= f).run post := c.mono hf hc

end Must

section Launch

variable {Addr : Type u} {Val : Addr → Type u} [DecidableEq Addr] {nb nt : Nat}

/-- A launch that stores to the cells `W` only, in any order of the threads' steps. -/
def launch (W : Addr → Prop) (th : Fin nb → Fin nt → Code Val (Prog Val)) (m : ∀ a, Val a) :
    Must (∀ a, Val a) where
  run post := ∃ n, GridEnds (fun _ => True) W post n m th
  mono h hrun := hrun.imp fun _ hn => hn.mono (fun _ => id) (fun _ => id) h

theorem launch_of {R W W' : Addr → Prop} {th : Fin nb → Fin nt → Code Val (Prog Val)}
    {m : ∀ a, Val a} {p post : (∀ a, Val a) → Prop} (h : ∃ n, GridEnds R W p n m th)
    (hW : ∀ a, W a → W' a) (hpost : ∀ m', p m' → post m') : (launch W' th m).run post :=
  h.imp fun _ hn => hn.mono (fun _ _ => trivial) hW hpost

end Launch

end TorchMojoBackend.Foundation
