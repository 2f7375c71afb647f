/-
# Turns that leave suspended expressions intact

A run is compared with itself: a twin whose two heaps are the same says that the objects of one heap
fit together, and two actions in step that are the same action come to an end that is none of the
fatal halts.  So all that is known of actions in step holds of the one run.

The program may now change pairs.  The evaluator still works on nothing but shown objects, as long
as the expressions that are suspended stay as they are; and if it is given no budget where they do
not, then it can be relied on by every turn.  A calm evaluator is of this kind, and it does what the
evaluator does wherever suspended expressions are left intact.
-/
import ArenaScheme.Proofs.Suspension.Activations

namespace ArenaScheme

open Heap HeapM Evaluator

namespace Twin

variable {ε α : Type} [Fault ε] {W : Regime} {σ τ : Twin} {R S : Twin → Twin → Prop} {x : HeapM ε α}
  {Q Q' : α → α → Twin → Prop} {ctx : Context} {kw : Keywords} {nested : Nested} {k m n : Nat}
  {A B : Nat → Prop} {focus : Focus} {a : Handle}

/-! ## One run -/

lemma Valid.right_eq (hv : σ.Valid W) (hs : W.same) : σ.right = σ.left := (hv.same hs).1.symm

/-- How one run ends. -/
inductive Ends (W : Regime) (R : Twin → Twin → Prop) (σ : Twin) (Q : α → α → Twin → Prop) :
    Outcome ε α → Prop
  | ok {a : α} {τ : Twin} (hv : τ.Valid W) (hR : R σ τ) (hQ : Q a a τ) : Ends W R σ Q (.ok a τ.left)
  | error {e : ε} {τ : Twin} (hv : τ.Valid W) (hR : R σ τ) (hm : Fault.matched τ e e) :
      Ends W R σ Q (.error e τ.left)
  | halt {c : Halt} (hc : c.Limit) : Ends W R σ Q (.halt c)

lemma Runs.ends (hx : Runs W R x x σ Q) (hv : σ.Valid W) (hs : W.same) :
    Ends W R σ Q (x σ.left) := by
  unfold Runs at hx
  rw [hv.right_eq hs] at hx
  revert hx
  generalize ho : x σ.left = o
  intro hx
  cases o with
  | ok a h =>
    cases hx with
    | ok hq =>
      obtain ⟨τ, rfl, -, hvt, hR, hQ⟩ := hq
      exact .ok hvt hR hQ
    | left hn _ | right hn _ => exact absurd hs hn
  | error e h =>
    cases hx with
    | error hq =>
      obtain ⟨τ, rfl, -, hvt, hR, hm⟩ := hq
      exact .error hvt hR hm
    | left hn _ | right hn _ => exact absurd hs hn
  | halt c =>
    cases hx with
    | halt hc => exact .halt hc
    | left hn _ | right hn _ => exact absurd hs hn

lemma Runs.of_ends (hx : Ends W R σ Q (x σ.left)) (hv : σ.Valid W) (hs : W.same) :
    Runs W R x x σ Q := by
  unfold Runs
  rw [hv.right_eq hs]
  revert hx
  generalize x σ.left = o
  intro hx
  cases hx with
  | ok hvt hR hQ => exact .ok ⟨_, rfl, hvt.right_eq hs, hvt, hR, hQ⟩
  | error hvt hR hm => exact .error ⟨_, rfl, hvt.right_eq hs, hvt, hR, hm⟩
  | halt hc => exact .halt hc

namespace Ends

variable {o : Outcome ε α}

/-- Going on from a twin further on. -/
lemma from_later (ho : Ends W S τ Q o) (hR : ∀ υ, S τ υ → R σ υ) : Ends W R σ Q o := by
  cases ho with
  | ok hv hS hQ => exact .ok hv (hR _ hS) hQ
  | error hv hS hm => exact .error hv (hR _ hS) hm
  | halt hc => exact .halt hc

/-- More is known of the motion from the heap that is left. -/
lemma sharpen {P : Heap → Prop} (ho : Ends W S σ Q o) (hl : o.Leaving P)
    (hR : ∀ τ, S σ τ → P τ.left → R σ τ) : Ends W R σ Q o := by
  cases ho with
  | ok hv hS hQ =>
    cases hl with
    | ok hP => exact .ok hv (hR _ hS hP) hQ
  | error hv hS hm =>
    cases hl with
    | error hP => exact .error hv (hR _ hS hP) hm
  | halt hc => exact .halt hc

/-- What comes next begins with the twin that the first action leaves. -/
lemma bind {β : Type} {f : α → HeapM ε β} {P : β → β → Twin → Prop} (hx : Ends W S σ Q (x σ.left))
    (hS : ∀ τ, S σ τ → R σ τ)
    (hf : ∀ a τ, x σ.left = .ok a τ.left → τ.Valid W → S σ τ → Q a a τ →
      Ends W R σ P (f a τ.left)) :
    Ends W R σ P ((x >>= f) σ.left) := by
  generalize ho : x σ.left = o at hx
  cases hx with
  | ok hv hR hQ =>
    rw [bind_of_ok ho]
    exact hf _ _ ho hv hR hQ
  | error hv hR hm =>
    rw [bind_of_error ho]
    exact .error hv (hS _ hR) hm
  | halt hc =>
    rw [bind_of_halt ho]
    exact .halt hc

end Ends

lemma Moves.evolves_of_upholds (hm : Moves W m A σ τ) (hk : σ.left.Upholds A τ.left) :
    Evolves m A σ τ := by
  rcases hm with he | ⟨-, ⟨v, hv, hne⟩, -⟩
  · exact he
  · exact absurd (hk v hv) hne

/-! ## Activations -/

/-- A twin at the beginning of a turn. -/
structure Begins (W : Regime) (ctx : Context) (A : Nat → Prop) (σ : Twin)
    (a : Activation) : Prop where
  left : σ.left = a.heap
  ready : Ready W A ctx.keywords ctx.keywords σ σ
  slot : σ.At a.slot.slot .shown
  fresh : ¬ A a.slot.slot

end Twin

/-- An evaluator that can be relied on does the same as the evaluator of an activation wherever the
activation asks for anything. -/
def Activation.Served (W : Regime) (ctx : Context) (A : Nat → Prop) (a : Activation) : Prop :=
  ∃ nested,
    (∀ ρ, Twin.Nests W (Twin.also A a.slot.slot) ctx.keywords ctx.keywords ρ nested nested) ∧
    ∀ sites s, a.Asks ctx sites s → nested s.expr s.heap = a.evaluator ctx s.expr s.heap

namespace Twin

variable {W : Regime} {ρ σ τ : Twin} {ctx : Context} {A B : Nat → Prop} {a z : Activation}
  {n k : Nat} {focus : Focus} {h : Heap} {sites : Set Site} {site : Site}

/-- Where pairs are never changed, the evaluator itself can be relied on. -/
lemma served_of_not_rewriting (hw : ¬ W.rewriting) (A : Nat → Prop) (a : Activation) :
    a.Served W ctx A :=
  ⟨a.evaluator ctx, fun _ => Loops.nests (loops_loop hw fun _ => rfl), fun _ _ _ => rfl⟩

/-- Where suspended expressions are left intact, a calm evaluator can take the place of the
evaluator. -/
lemma served_of_calm (hi : a.Intact ctx A)
    (hl : Loops W ctx.keywords ctx.keywords (also A a.slot.slot)
      (calm ctx (also A a.slot.slot) a.budget) (calm ctx (also A a.slot.slot) a.budget)) :
    a.Served W ctx A :=
  ⟨calmEval ctx (also A a.slot.slot) a.budget, fun _ => hl.nests, fun _ _ hs =>
    calmEval_of_intact fun _ hb hr => hi.inner hb hs hr⟩

/-- How a turn ends. -/
lemma Begins.turn (hb : σ.Begins W ctx A a) (hs : W.same) (hsv : a.Served W ctx A) :
    Ends W (Moves W a.slot.slot A) σ
      (fun t t' τ => t.Agree (τ.rel .shown) (τ.At a.slot.slot .shown) t')
      (a.turn ctx (a.evaluator ctx)) := by
  obtain ⟨nested, hn, hagree⟩ := hsv
  rw [← Activation.turn_congr hagree, Activation.turn, ← hb.left]
  exact (Runs.turn (hn σ) (fun _ => rfl) hb.ready hb.slot hb.fresh a.focus).ends hb.ready.valid hs

/-- Calm evaluators run in step with themselves. -/
lemma loops_calm (hs : W.same) :
    Loops W ctx.keywords ctx.keywords A (calm ctx A k) (calm ctx A k) := by
  induction k generalizing A with
  | zero =>
    intro _ σ n focus h ha hA
    have hzero : ∀ l, calm ctx A 0 ⟨n⟩ focus l = .halt .unfinished := fun l => ite_self _
    exact .halt (c := .unfinished) trivial (hzero _) (hzero _)
  | succ k ih =>
    intro _ σ n focus h ha hA
    refine .of_ends ?_ h.valid hs
    by_cases hi : Activation.Intact ctx A ⟨k, ⟨n⟩, focus, σ.left⟩
    · rw [calm_of_intact (by rintro _ ⟨⟩; exact hi), loop_succ]
      have hb : σ.Begins W ctx A ⟨k, ⟨n⟩, focus, σ.left⟩ := ⟨rfl, h.anew, ha, hA⟩
      have hturn : Ends W (Evolves n A) σ _
        (Evaluator.turn ctx (nestedEval ctx k) k ⟨n⟩ focus σ.left) :=
        (hb.turn hs (served_of_calm hi ih)).sharpen hi.turn fun _ => Moves.evolves_of_upholds
      refine hturn.bind (fun _ he => he) fun t τ ht hv he hq => ?_
      cases hq with
      | done hv' => exact .ok hv he hv'
      | again hat =>
        dsimp only
        rw [← calm_of_intact fun m hm => hi.again hm ht]
        exact ((ih _ (h.lasts he.1 hv) hat hA).ends hv hs).from_later fun _ => Motion.trans he
    · have hc : calm ctx A (k + 1) ⟨n⟩ focus σ.left = .halt .unfinished :=
        if_neg fun hall => hi (hall k rfl)
      rw [hc]
      exact .halt trivial

/-! ## From one activation to the next -/

/-- The first activation of an evaluation in the current environment. -/
lemma Ready.begins {W : Regime} {expr : Handle} {budget : Nat}
    (h : Ready W A ctx.keywords ctx.keywords ρ σ) (hs : W.same) (he : σ.rel .shown expr expr) :
    ((σ.push σ.left.currentEnv σ.left.currentEnv).push expr expr).Begins W ctx A
      (Activation.start budget expr σ.left.currentEnv σ.left) := by
  have hcur : σ.rel .shown σ.left.currentEnv σ.left.currentEnv := by
    have := h.valid.current
    rwa [h.valid.right_eq hs] at this
  have h1 := h.push hcur (by simp)
  have hsize : (σ.push σ.left.currentEnv σ.left.currentEnv).left.roots.size =
    σ.left.roots.size + 1 :=
    Array.size_push _
  have he1 : (σ.push σ.left.currentEnv σ.left.currentEnv).rel .shown expr expr := he
  have hat := at_push h1.valid he1
  rw [hsize] at hat
  refine ⟨rfl, (h1.push he (by simp)).anew, hat, fun hA => ?_⟩
  have := h.lt _ hA
  simp [Activation.start] at this

/-- Where a turn asks for an evaluation, it asks for a part of an expression under evaluation. -/
lemma Begins.asks (hb : σ.Begins W ctx A a) (hs : W.same) (hsv : a.Served W ctx A)
    (hq : a.Asks ctx sites site) : ∃ τ : Twin, τ.left = site.heap ∧
      Ready W (also A a.slot.slot) ctx.keywords ctx.keywords σ τ ∧
      τ.Sees (also A a.slot.slot) site.expr site.expr := by
  by_contra hno
  obtain ⟨nested, hn, hagree⟩ := hsv
  -- an evaluator that stops at the site can be relied on, since it never gets there
  have hstop : Nests W (also A a.slot.slot) ctx.keywords ctx.keywords σ
      (stopAt nested site .baseFrame) (stopAt nested site .baseFrame) := by
    intro τ e e' m h he hm
    obtain rfl : e = e' := (h.valid.same hs).2 he.1
    have hne : (⟨e, τ.left⟩ : Site) ≠ site := by
      rintro rfl
      exact hno ⟨τ, rfl, h, he⟩
    refine .of_ends ?_ h.valid hs
    rw [stopAt, if_neg hne]
    exact (hn σ h he hm).ends h.valid hs
  have hhalt : Evaluator.turn ctx (stopAt nested site .baseFrame) a.budget a.slot a.focus σ.left =
      .halt .baseFrame := by
    rw [hb.left]
    refine hq.halts (fun sites s hs hne => ?_) (if_pos rfl)
    rw [stopAt, if_neg hne]
    exact .inl (hagree sites s hs)
  have hbudget : W.same → a.budget = a.budget := fun _ => rfl
  have hends := (Runs.turn hstop hbudget hb.ready hb.slot hb.fresh a.focus).ends hb.ready.valid hs
  rw [hhalt] at hends
  cases hends with
  | halt hc => exact hc

lemma Begins.inner {budget : Nat} (hb : σ.Begins W ctx A a) (hs : W.same) (hsv : a.Served W ctx A)
    (hq : a.Asks ctx sites site) :
    ∃ τ : Twin, τ.Begins W ctx (also A a.slot.slot) (Activation.startAt budget site) := by
  obtain ⟨expr, heap⟩ := site
  obtain ⟨τ, hl, hr, he⟩ := hb.asks hs hsv hq
  obtain rfl : τ.left = heap := hl
  exact ⟨_, hr.begins hs he.1⟩

lemma Begins.again {budget : Nat} (hb : σ.Begins W ctx A a) (hs : W.same) (hsv : a.Served W ctx A)
    (ht : a.turn ctx (a.evaluator ctx) = .ok (.again focus) h) (hu : a.heap.Upholds A h) :
    ∃ τ : Twin, τ.Begins W ctx A ⟨budget, a.slot, focus, h⟩ := by
  have hturn := hb.turn hs hsv
  rw [ht] at hturn
  obtain @⟨_, τ, hv, hm, hq⟩ := hturn
  have he := hm.evolves_of_upholds (hb.left ▸ hu)
  cases hq with
  | again hat => exact ⟨τ, rfl, (hb.ready.lasts he.1 hv).anew, hat, hb.fresh⟩

/-- Where pairs are never changed, suspended expressions are not. -/
lemma Begins.upholds (hb : σ.Begins W ctx A a) (hs : W.same) (hw : ¬ W.rewriting) :
    (a.turn ctx (a.evaluator ctx)).Leaving (a.heap.Upholds A) := by
  have hturn := hb.turn hs (served_of_not_rewriting hw A a)
  have hkeeps : ∀ τ, Moves W a.slot.slot A σ τ → a.heap.Upholds A τ.left := fun τ hm v hv => by
    rw [← hb.left] at hv ⊢
    exact (hm.resolve_right fun h => hw h.1).part hv
  revert hturn
  generalize a.turn ctx (a.evaluator ctx) = o
  intro hturn
  cases hturn with
  | ok _ hm _ => exact .ok (hkeeps _ hm)
  | error _ hm _ => exact .error (hkeeps _ hm)
  | halt _ => exact .halt

end Twin

namespace Activation

variable {W : Regime} {σ : Twin} {ctx : Context} {A B : Nat → Prop} {a z : Activation}

/-- The invariant holds at the beginning of every turn, if all turns up to there leave suspended
expressions intact and have evaluators that can be relied on. -/
lemma GetsTo.begins (hz : GetsTo ctx A a B z) (hs : W.same) (hb : σ.Begins W ctx A a)
    (hstep : ∀ B y (τ : Twin), GetsTo ctx A a B y → τ.Begins W ctx B y →
      y.Served W ctx B ∧ (y.turn ctx (y.evaluator ctx)).Leaving (y.heap.Upholds B)) :
    ∃ τ : Twin, τ.Begins W ctx B z := by
  induction hz generalizing σ with
  | refl => exact ⟨σ, hb⟩
  | @again A B a z budget focus h hbud ht hz ih =>
    obtain ⟨hsv, hl⟩ := hstep A a σ (.refl A a) hb
    rw [ht] at hl
    obtain ⟨hu⟩ := hl
    obtain ⟨τ, hτ⟩ := hb.again hs hsv ht hu
    exact ih hτ fun B y τ hy => hstep B y τ (.again hbud ht hy)
  | @inner A B a z budget sites site hbud hq hr hz ih =>
    obtain ⟨hsv, -⟩ := hstep A a σ (.refl A a) hb
    obtain ⟨τ, hτ⟩ := hb.inner hs hsv hq
    exact ih hτ fun B y τ hy => hstep B y τ (.inner hbud hq hr hy)

/-- An activation that leaves suspended expressions intact has an evaluator that can be relied
on. -/
lemma Intact.served (hi : a.Intact ctx A) (hs : W.same) : a.Served W ctx A :=
  Twin.served_of_calm hi (Twin.loops_calm hs)

lemma Intact.begins (hi : a.Intact ctx A) (hs : W.same) (hb : σ.Begins W ctx A a)
    (hz : GetsTo ctx A a B z) : ∃ τ : Twin, τ.Begins W ctx B z :=
  hz.begins hs hb fun B y _ hy _ => ⟨(hi.getsTo hy).served hs, hi B y hy⟩

/-- Where pairs are never changed, all expressions are left intact. -/
lemma intact_of_begins (hb : σ.Begins W ctx A a) (hs : W.same) (hw : ¬ W.rewriting) :
    a.Intact ctx A := fun B z hz => by
  obtain ⟨τ, hτ⟩ := hz.begins hs hb fun B y τ _ hy =>
    ⟨Twin.served_of_not_rewriting hw B y, hy.upholds hs hw⟩
  exact hτ.upholds hs hw

end Activation

end ArenaScheme
