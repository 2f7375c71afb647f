/-
# What a step relies on

A step works on a part of an expression under evaluation, compares symbols with the keywords, and
has other parts evaluated.  Which slots hold expressions under evaluation is fixed throughout a
step, and so is what is known of the evaluator that it calls: given corresponding parts, it runs in
step and leaves the expressions alone.

The budgets of two runs may differ unless the runs are the same.
-/
import ArenaScheme.Proofs.Twin.Drafts

namespace ArenaScheme

/-- The symbols of all keywords are related. -/
structure Keywords.Agree (R : Handle → Handle → Prop) (kw kw' : Keywords) : Prop where
  quote : R kw.quote kw'.quote
  quasiquote : R kw.quasiquote kw'.quasiquote
  unquote : R kw.unquote kw'.unquote
  unquoteSplicing : R kw.unquoteSplicing kw'.unquoteSplicing
  conditional : R kw.conditional kw'.conditional
  sequence : R kw.sequence kw'.sequence
  clauses : R kw.clauses kw'.clauses
  otherwise : R kw.otherwise kw'.otherwise
  definition : R kw.definition kw'.definition
  assignment : R kw.assignment kw'.assignment
  conjunction : R kw.conjunction kw'.conjunction
  disjunction : R kw.disjunction kw'.disjunction
  binding : R kw.binding kw'.binding
  lambda : R kw.lambda kw'.lambda
  apply : R kw.apply kw'.apply
  eval : R kw.eval kw'.eval
  theEnvironment : R kw.theEnvironment kw'.theEnvironment

lemma Keywords.Agree.mono {R S : Handle → Handle → Prop} {kw kw' : Keywords}
    (h : ∀ {a b}, R a b → S a b) (hw : kw.Agree R kw') : kw.Agree S kw' where
  quote := h hw.quote
  quasiquote := h hw.quasiquote
  unquote := h hw.unquote
  unquoteSplicing := h hw.unquoteSplicing
  conditional := h hw.conditional
  sequence := h hw.sequence
  clauses := h hw.clauses
  otherwise := h hw.otherwise
  definition := h hw.definition
  assignment := h hw.assignment
  conjunction := h hw.conjunction
  disjunction := h hw.disjunction
  binding := h hw.binding
  lambda := h hw.lambda
  apply := h hw.apply
  eval := h hw.eval
  theEnvironment := h hw.theEnvironment

/-- Steps of one kind with related objects. -/
inductive Step.Agree (R : Handle → Handle → Prop) : Step → Step → Prop
  | done {v v' : Handle} (hv : R v v') : Agree R (.done v) (.done v')
  | eval {expr expr' : Handle} (he : R expr expr') : Agree R (.eval expr) (.eval expr')
  | body {seq seq' : Handle} (hs : R seq seq') : Agree R (.body seq) (.body seq')

namespace Twin

open Heap HeapM

variable {ε α α' β β' : Type} [Fault ε] {W : Regime} {ρ σ τ : Twin} {R : Twin → Twin → Prop}
  {r : Role} {a b v v' : Handle} {k k' m n : Nat} {A : Nat → Prop} {kw kw' : Keywords}
  {nested nested' : Nested}

/-! ## What is given -/

/-- A twin on which steps may be taken: the slots in `A` hold expressions under evaluation, which
have been left alone since the twin was `ρ`, and the keywords of both runs have lasting symbols. -/
structure Ready (W : Regime) (A : Nat → Prop) (kw kw' : Keywords) (ρ σ : Twin) : Prop where
  valid : σ.Valid W
  active : σ.Active A
  since : Lasts 0 A ρ σ
  words : kw.Agree σ.Lasting kw'

/-- What has happened so far does not matter. -/
lemma Ready.anew (h : Ready W A kw kw' ρ σ) : Ready W A kw kw' σ σ :=
  ⟨h.valid, h.active, Motion.refl _ σ, h.words⟩

lemma Ready.lasts (h : Ready W A kw kw' ρ σ) (hl : Lasts m A σ τ) (hvt : τ.Valid W) :
    Ready W A kw kw' ρ τ :=
  ⟨hvt, hl.active h.active, h.since.trans (hl.mono (Nat.zero_le _) fun _ h => h),
    h.words.mono hl.lasting⟩

lemma Ready.keeps (h : Ready W A kw kw' ρ σ) (hk : Keeps σ τ) (hvt : τ.Valid W) :
    Ready W A kw kw' ρ τ := h.lasts (hk.lasts 0 A) hvt

lemma Ready.push (h : Ready W A kw kw' ρ σ) (hr : σ.rel r v v')
    (hj : ∀ j, r = .draft j → j ≤ σ.left.roots.size) : Ready W A kw kw' ρ (σ.push v v') :=
  h.lasts (m := 0) (lasts_push h.valid.depth (Nat.zero_le _) (fun _ hi => h.active.lt hi) v v')
    (h.valid.push hr hj)

lemma Ready.lt (h : Ready W A kw kw' ρ σ) (i : Nat) (hi : A i) : i < σ.left.roots.size :=
  h.active.lt hi

/-- A symbol is the one of a keyword in both runs or in neither. -/
lemma Ready.word_iff (h : Ready W A kw kw' ρ σ) (hab : σ.rel r a b) {w w' : Handle}
    (hw : σ.Lasting w w') : a = w ↔ b = w' := h.valid.eq_iff hab hw.1

lemma Ready.isQuotation (h : Ready W A kw kw' ρ σ) (hab : σ.rel r a b) :
    kw.isQuotation a ↔ kw'.isQuotation b := by
  simp only [Keywords.isQuotation, Bool.or_eq_true, beq_iff_eq, h.word_iff hab h.words.quasiquote,
    h.word_iff hab h.words.unquote, h.word_iff hab h.words.unquoteSplicing]

/-- Both evaluators run in step on corresponding parts of expressions under evaluation. -/
def Nests (W : Regime) (A : Nat → Prop) (kw kw' : Keywords) (ρ : Twin) (nested nested' : Nested) :
    Prop :=
  ∀ {σ : Twin} {e e' : Handle} {m : Nat}, Ready W A kw kw' ρ σ → σ.Sees A e e' →
    m ≤ σ.left.roots.size →
    Runs W (Evolves m A) (nested e) (nested' e') σ fun v v' τ => τ.rel .shown v v'

/-! ## Budgets -/

/-- The left run has used up its budget. -/
lemma Runs.spent {x : HeapM ε α} {y : Nat → HeapM ε α'} {Q : α → α' → Twin → Prop}
    (hb : W.same → 0 = k) (hx : x σ.left = .halt .unfinished)
    (hy : y 0 σ.right = .halt .unfinished) : Runs W R x (y k) σ Q :=
  .halt_left (c := .unfinished) trivial hx fun hs => by
    rw [← hb hs]
    exact hy

/-- The left run has not used up its budget. -/
lemma Runs.spend {x : HeapM ε α} {y : Nat → HeapM ε α'} {Q : α → α' → Twin → Prop}
    (hb : W.same → k + 1 = k') (hy : y 0 σ.right = .halt .unfinished)
    (hf : ∀ l, (W.same → k = l) → Runs W R x (y (l + 1)) σ Q) : Runs W R x (y k') σ Q := by
  cases k' with
  | zero => exact .halt_right (c := .unfinished) (fun hs => absurd (hb hs) (by simp)) trivial hy
  | succ l => exact hf l fun hs => Nat.succ.inj (hb hs)

/-! ## Bodies -/

/-- Evaluating a body up to its last expression. -/
lemma Runs.ofBody (hn : Nests W A kw kw' ρ nested nested') (hb : W.same → k = k')
    (h : Ready W A kw kw' ρ σ) (hs : σ.Sees A a b) (hm : m ≤ σ.left.roots.size) :
    Runs W (Evolves m A) (Step.ofBody nested k a) (Step.ofBody nested' k' b) σ
      fun s s' τ => s.Agree (τ.rel .shown) s' := by
  induction k generalizing k' σ a b with
  | zero => exact .spent (y := (Step.ofBody nested' · b)) hb rfl rfl
  | succ k ih =>
    refine .spend (y := (Step.ofBody nested' · b)) hb rfl fun l hb => ?_
    have hv := h.valid
    refine .asPair hv hs.1 (fun x c x' c' hp hp' => ?_) fun _ => .raise hv _ _
    have hxc := hs.pair hv hp hp'
    refine .ite (hv.eq_sentinel_iff hxc.2.1 (by decide)) (fun _ => .pure hv (.eval hxc.1.1))
      fun _ => ?_
    refine (hn h hxc.1 hm).bind fun _ _ τ hvt he _ => ?_
    exact ih hb (h.lasts he.1 hvt) (he.sees hxc.2) (he.depth ▸ hm)

end Twin

end ArenaScheme
