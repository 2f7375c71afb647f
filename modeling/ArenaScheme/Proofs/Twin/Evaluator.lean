/-
# The evaluator in step

A turn may change an expression under evaluation, but then it is over, and there is nothing more to
it than its result.  The turns of an evaluation leave alone the expressions whose evaluation is
suspended meanwhile.

How turns are repeated is left open first, since an evaluator may be watched while it takes them.
-/
import ArenaScheme.Proofs.Twin.Forms

namespace ArenaScheme

/-- Turns with related results; if there are more turns to come, then as stated. -/
inductive Turn.Agree (R : Handle → Handle → Prop) (P : Prop) : Turn → Turn → Prop
  | done {v v' : Handle} (hv : R v v') : Agree R P (.done v) (.done v')
  | again {focus : Focus} (hp : P) : Agree R P (.again focus) (.again focus)

namespace Twin

open Heap HeapM

variable {ε β β' : Type} [Fault ε] {W : Regime} {ρ σ τ υ : Twin} {R : Twin → Twin → Prop}
  {a b v v' : Handle} {k k' m n : Nat} {A B : Nat → Prop} {kw kw' : Keywords}
  {nested nested' : Nested} {ctx ctx' : Context} {loop loop' : Root → Focus → EvalM Handle}

/-! ## Turns -/

lemma Runs.focused (hn : Nests W A ctx.keywords ctx'.keywords ρ nested nested')
    (hb : W.same → k = k') (h : Ready W A ctx.keywords ctx'.keywords ρ σ) (hs : σ.Sees A a b)
    (hm : m ≤ σ.left.roots.size) (hB : ∀ i, B i → A i) (focus : Focus) :
    Runs W (Moves W m B) (Evaluator.step ctx nested k focus a)
      (Evaluator.step ctx' nested' k' focus b) σ fun s s' τ => s.Agree (τ.rel .shown) s' := by
  cases focus with
  | expr => exact .ofExpr hn hb h hs hm hB
  | body => exact (Runs.ofBody hn hb h hs hm).motion fun _ he => .inl (he.mono le_rfl hB)

lemma Moves.depth (hm : Moves W m A σ τ) : τ.left.roots.size = σ.left.roots.size :=
  hm.elim (·.depth) (·.2.2)

/-- Changes of the root stack do not hide that an expression has changed. -/
lemma Moves.evolves (hm : Moves W m A σ τ) (he : Evolves m A τ υ)
    (hc : υ.left.cells = τ.left.cells) : Moves W m A σ υ := by
  rcases hm with hm | ⟨hw, ⟨a, ha, hne⟩, hd⟩
  · exact .inl (Motion.trans hm he)
  · refine .inr ⟨hw, ⟨a, ha, ?_⟩, he.depth.trans hd⟩
    rwa [Heap.pairAt, object?, hc]

/-- One turn.  The slots in `B` hold the expressions whose evaluation is suspended. -/
lemma Runs.turn (hn : Nests W (also B n) ctx.keywords ctx'.keywords σ nested nested')
    (hb : W.same → k = k') (h : Ready W B ctx.keywords ctx'.keywords ρ σ) (ha : σ.At n .shown)
    (hB : ¬ B n) (focus : Focus) :
    Runs W (Moves W n B) (Evaluator.turn ctx nested k ⟨n⟩ focus)
      (Evaluator.turn ctx' nested' k' ⟨n⟩ focus) σ fun t t' τ =>
        t.Agree (τ.rel .shown) (τ.At n .shown) t' := by
  have hr : Ready W (also B n) ctx.keywords ctx'.keywords σ σ :=
    ⟨h.valid, h.active.also ha, Motion.refl _ σ, h.words⟩
  have hlt := ha.lt
  obtain ⟨u, u', hu, hu', huu⟩ := ha
  refine .contents hu hu' ?_
  refine (Runs.focused hn hb hr ⟨huu, .slot (.inr rfl) hu⟩ (Nat.le_of_lt hlt) (fun _ => .inl)
    focus).chain (U := fun τ υ => Evolves n B τ υ ∧ υ.left.cells = τ.left.cells) (fun _ h => h) ?_
    fun τ υ hm he => hm.evolves he.1 he.2
  intro s s' τ hvt hm hq
  have hltτ : n < τ.left.roots.size := hm.depth ▸ hlt
  -- what comes next is put into the slot
  have hnext : ∀ {v v' : Handle} (focus : Focus), τ.rel .shown v v' →
      Runs W (fun τ υ => Evolves n B τ υ ∧ υ.left.cells = τ.left.cells)
        (do HeapM.store ⟨n⟩ v; return Turn.again focus : EvalM Turn)
        (do HeapM.store ⟨n⟩ v'; return Turn.again focus) τ fun t t' υ =>
          t.Agree (υ.rel .shown) (υ.At n .shown) t' := fun focus hv =>
    .ok (τ := τ.put n _ _) (bind_of_ok (store_apply hltτ _))
      (bind_of_ok (store_apply (hvt.depth ▸ hltτ) _)) (hvt.put hv (by simp))
      ⟨evolves_put le_rfl hB _ _, rfl⟩ (.again (at_put hvt hltτ hv))
  cases hq with
  | done hv => exact .ok (τ := τ) rfl rfl hvt ⟨Motion.refl _ τ, rfl⟩ (.done hv)
  | eval hv => exact hnext .expr hv
  | body hv => exact hnext .body hv

/-! ## Repeated turns -/

/-- Two ways of taking turns with a slot run in step, and leave older slots alone. -/
def Loops (W : Regime) (kw kw' : Keywords) (A : Nat → Prop)
    (loop loop' : Root → Focus → EvalM Handle) :
    Prop :=
  ∀ {ρ σ : Twin} {n : Nat} (focus : Focus), Ready W A kw kw' ρ σ → σ.At n .shown → ¬ A n →
    Runs W (Evolves n A) (loop ⟨n⟩ focus) (loop' ⟨n⟩ focus) σ fun v v' τ => τ.rel .shown v v'

/-- Evaluating an expression by turns. -/
lemma Loops.runWith (hl : Loops W kw kw' A loop loop') (h : Ready W A kw kw' ρ σ)
    (hab : σ.rel .shown a b) (hm : m ≤ σ.left.roots.size) :
    Runs W (Evolves m A) (Evaluator.runWith loop a) (Evaluator.runWith loop' b) σ
      fun v v' τ => τ.rel .shown v v' := by
  refine .rooted_evolves h.valid hm h.lt ?_
  exact (hl .expr (h.push hab (by simp)) (at_push h.valid hab) fun hA => lt_irrefl _
    (h.lt _ hA)).motion
    fun _ he => he.mono hm fun _ h => h

/-- Evaluating an expression by turns and returning to the current frame. -/
lemma Loops.nests (hl : Loops W kw kw' A loop loop') :
    Nests W A kw kw' ρ (fun expr => HeapM.keepingEnv (Evaluator.runWith loop expr))
      fun expr => HeapM.keepingEnv (Evaluator.runWith loop' expr) := by
  intro σ e e' m h hs hm
  have hp := h.push h.valid.current (by simp)
  have hs1 : (σ.push σ.left.currentEnv σ.right.currentEnv).left.roots.size =
      σ.left.roots.size + 1 := Array.size_push _
  refine (Runs.keepingEnv h.valid h.lt (Q := fun v v' τ => τ.rel .shown v v')
    (hl.runWith hp hs.1 (Nat.le_of_eq hs1.symm)) fun _ _ _ _ _ h => h).motion
      fun _ he => he.mono hm fun _ h => h

/-- The evaluator takes its turns in step with itself, if no expression is ever changed. -/
lemma loops_loop (hw : ¬ W.rewriting) (hb : W.same → k = k') :
    Loops W ctx.keywords ctx'.keywords A (Evaluator.loop ctx k) (Evaluator.loop ctx' k') := by
  induction k generalizing k' A with
  | zero => exact fun focus _ _ _ => .spent (y := (Evaluator.loop ctx' · _ focus)) hb rfl rfl
  | succ k ih =>
    intro _ σ n focus h ha hA
    refine .spend (y := (Evaluator.loop ctx' · ⟨n⟩ focus)) hb rfl fun l hb => ?_
    refine Runs.bind (Q := fun t t' τ => t.Agree (τ.rel .shown) (τ.At n .shown) t')
      ((Runs.turn (Loops.nests (ih hb)) hb h ha hA focus).motion fun τ hm => ?_)
      fun t t' τ hvt he hq => ?_
    · exact hm.resolve_right fun hc => hw hc.1
    · cases hq with
      | done hv => exact .pure hvt hv
      | again ha => exact ih hb _ (h.lasts he.1 hvt) ha hA

/-- Evaluating an expression after a switch to the environment that is current already. -/
lemma Loops.keepingEnv (hl : Loops W kw kw' A loop loop') (h : Ready W A kw kw' ρ σ)
    (hab : σ.rel .shown a b) (hn : n ≤ σ.left.roots.size) :
    Runs W (Evolves n A)
      (HeapM.keepingEnv do
        HeapM.setCurrentEnv σ.left.currentEnv
        Evaluator.runWith loop a)
      (HeapM.keepingEnv do
        HeapM.setCurrentEnv σ.right.currentEnv
        Evaluator.runWith loop' b) σ fun v v' τ => τ.rel .shown v v' := by
  have hv := h.valid
  have hp := h.push hv.current (by simp)
  have hs1 : (σ.push σ.left.currentEnv σ.right.currentEnv).left.roots.size =
      σ.left.roots.size + 1 := Array.size_push _
  refine (Runs.keepingEnv hv h.lt (Q := fun v v' τ => τ.rel .shown v v') ?_
    fun _ _ _ _ _ h => h).motion fun _ he => he.mono hn fun _ h => h
  refine (Runs.setCurrentEnv hp.valid hp.valid.current hp.valid.currentScope).bind ?_
  rintro _ _ _ hvs he rfl
  exact hl.runWith (h.push hv.current (by simp) |>.lasts he.1 hvs) hab (Nat.le_of_eq hs1.symm)

/-- Evaluating an expression in the current environment, where a failure counts as a value, and
going on with the value. -/
lemma Loops.eval (hl : Loops W kw kw' A loop loop') (h : Ready W A kw kw' ρ σ)
    (hab : σ.rel .shown a b) (hn : n ≤ σ.left.roots.size) (hm : m ≤ n) {f : Handle → HeapM ε β}
    {g : Handle → HeapM ε β'} {P : β → β' → Twin → Prop}
    (hf : ∀ v v' τ, τ.Valid W → Evolves n A σ τ → τ.rel .shown v v' →
      Runs W (Evolves m A) (f v) (g v') τ P)
    (hfl : ∀ τ : Twin, τ.Valid W → Evolves n A σ τ →
      (f .outOfMemory τ.left).Over fun h => ∃ υ : Twin, υ.left = h ∧ υ.Valid W ∧ Evolves m A σ υ)
    (hgl : ∀ τ : Twin, τ.Valid W → Evolves n A σ τ →
      (g .outOfMemory τ.right).Over fun k => ∃ υ : Twin, υ.right = k ∧ υ.Valid W ∧
        Evolves m A σ υ) :
    Runs W (Evolves m A)
      (do
        let env ← HeapM.currentEnv
        let v ← recover (ε := Handle) (HeapM.keepingEnv do
          HeapM.setCurrentEnv env
          Evaluator.runWith loop a) id
        f v)
      (do
        let env ← HeapM.currentEnv
        let v ← recover (ε := Handle) (HeapM.keepingEnv do
          HeapM.setCurrentEnv env
          Evaluator.runWith loop' b) id
        g v) σ P := by
  refine .look (a := σ.left.currentEnv) (b := σ.right.currentEnv) rfl rfl ?_
  exact .recover (S := Evolves n A) (Q := fun v v' τ => τ.rel .shown v v') (hl.keepingEnv h hab hn)
    (fun v v' τ hvt he hq => hf v v' τ hvt he (hq.elim id fun h => h.1))
    (fun _ _ he => Motion.trans (he.mono hm fun _ h => h)) hfl hgl

end Twin

end ArenaScheme
