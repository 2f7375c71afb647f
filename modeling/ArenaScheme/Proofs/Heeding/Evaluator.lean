/-
# The evaluator is heedful

What an evaluation may be shown are its expression, the current frame, and what these lead to; and
all that it does is put together from a few elementary actions.  So it heeds whatever these heed.
-/
import ArenaScheme.Proofs.Heeding.Steps
import ArenaScheme.Proofs.Discipline.Evaluator

namespace ArenaScheme

open HeapM

namespace Concern

variable {ι : Type} [Concern ι] {C : ι} {α : Type} {v operands : Handle} {kw : Keywords}
  {nested : Nested}

/-! ## Bodies and templates -/

lemma ofBody (hn : Sparingly C nested) (budget : Nat) {seq : Handle} (hs : Spares C seq) :
    Heeds C (Step.ofBody nested budget seq) := by
  induction budget generalizing seq with
  | zero => exact halt
  | succ budget ih =>
    refine bind (asPair hs) fun parts hp => ?_
    cases parts with
    | none => exact raise _ _
    | some parts =>
      obtain ⟨he, hr⟩ := hp _ rfl
      exact ite (pure he) (bind (hn _ he) fun _ _ => ih hr)

section Templates

open Template

variable {copier : Copier} {out : Root} {last : Option Handle}

/-- A copier that is heedful. -/
abbrev Copying (C : ι) (copier : Copier) : Prop :=
  ∀ template level, Spares C template → Heeds C (copier template level)

lemma copyQuotation (hk : SparesWords C kw) (hn : Sparingly C nested) (hc : Copying C copier)
    {form : Handle}
    (level : Nat) (hf : Spares C form) : Heeds C (copyQuotation kw nested copier form level) := by
  refine bind (asPair hf) fun parts hp => ?_
  cases parts with
  | none => exact pure hf
  | some parts =>
    obtain ⟨hh, hr⟩ := hp _ rfl
    refine ite (bind (items? hr) fun vs hvs => ?_) (bind (items? hr) fun vs hvs => ?_)
    · split
      · exact bind (hc _ _ (hvs _ rfl _ (by simp))) fun _ hv =>
          list (by simpa using ⟨hk.quasiquote, hv⟩)
      · exact wrongOperands _ _
    · split
      · exact hn _ (hvs _ rfl _ (by simp))
      · exact bind (hc _ _ (hvs _ rfl _ (by simp))) fun _ hv => list (by simpa using ⟨hh, hv⟩)
      · exact wrongOperands _ _

lemma link (ho : ¬ Bars C out.slot) (hl : spared (Spares C) last) (hv : Spares C v) :
    Heeds C (link out last v) := by
  cases last with
  | some pair => exact setCdr (hl pair rfl) hv
  | none => exact store ho hv

lemma push (ho : ¬ Bars C out.slot) (hl : spared (Spares C) last) (hv : Spares C v) :
    Heeds C (push out last v) :=
  bind (cons hv (spares_emptyList C)) fun _ hc => bind (link ho hl hc) fun _ _ => pure hc

lemma spared_some (hv : Spares C v) : spared (Spares C) (some v) :=
  fun _ hu => Option.mem_some.mp hu ▸ hv

lemma splice (ho : ¬ Bars C out.slot) (hl : spared (Spares C) last) (hv : Spares C v) :
    Heeds C (splice out last v) := by
  refine bind (items? hv) fun vs hvs => ?_
  cases vs with
  | none => exact raise _ _
  | some vs =>
    refine rooted hv fun _ _ => foldlM hl fun last hl u hu => ?_
    exact bind (push ho hl (hvs vs rfl u hu)) fun _ hc => pure (spared_some hc)

lemma isSplice (level : Nat) (hv : Spares C v) : Heeds C (isSplice kw level v) := by
  refine ite (bind (asPair hv) fun parts _ => ?_) (pure trivial)
  cases parts with
  | none => exact pure trivial
  | some parts => exact pure trivial

lemma copySpine (hk : SparesWords C kw) (hn : Sparingly C nested) (hc : Copying C copier)
    (ho : ¬ Bars C out.slot) (level budget : Nat) (hl : spared (Spares C) last) {rest : Handle}
    (hr : Spares C rest) :
    Heeds C (copySpine kw nested copier out level budget last rest) := by
  induction budget generalizing last rest with
  | zero => exact halt
  | succ budget ih =>
    refine bind (asPair hr) fun parts hp => ?_
    cases parts with
    | none => exact bind (link ho hl hr) fun _ _ => contents ho
    | some parts =>
      obtain ⟨hi, hnext⟩ := hp _ rfl
      refine ite ?_ (bind (isSplice level hi) fun _ _ => ite ?_ ?_)
      · exact bind (copyQuotation hk hn hc level hr) fun _ hv =>
          bind (link ho hl hv) fun _ _ => contents ho
      · refine bind (cdr hi) fun _ ht => bind (items? ht) fun vs hvs => ?_
        split
        · exact bind (hn _ (hvs _ rfl _ (by simp))) fun _ hv =>
            bind (splice ho hl hv) fun _ hl => ih hl hnext
        · exact wrongOperands _ _
      · exact bind (hc _ _ hi) fun _ hv => bind (push ho hl hv) fun _ hcell =>
          ih (spared_some hcell) hnext

lemma copy (hk : SparesWords C kw) (hn : Sparingly C nested) (budget : Nat) :
    Copying C (Template.copy kw nested budget) := by
  induction budget with
  | zero => exact fun _ _ _ => halt
  | succ budget ih =>
    intro template level ht
    refine bind (asPair ht) fun parts _ => ?_
    cases parts with
    | none => exact pure ht
    | some parts =>
      refine ite (copyQuotation hk hn ih level ht) (rooted (spares_emptyList C) fun out ho => ?_)
      exact copySpine hk hn ih ho _ _ (fun _ hv => by cases hv) ht

end Templates

/-! ## Special forms -/

section Forms

open Form

lemma quote (ho : Spares C operands) : Heeds C (Form.quote operands) := by
  refine bind (items? ho) fun vs hvs => ?_
  split
  · exact pure (hvs _ rfl _ (by simp))
  · exact wrongOperands _ _

lemma quasiquote (hk : SparesWords C kw) (hn : Sparingly C nested) (budget : Nat)
    (ho : Spares C operands) :
    Heeds C (Form.quasiquote kw nested budget operands) := by
  refine bind (items? ho) fun vs hvs => ?_
  split
  · exact bind (copy hk hn budget _ 0 (hvs _ rfl _ (by simp))) fun _ hv => pure hv
  · exact wrongOperands _ _

lemma conditional (hn : Sparingly C nested) (ho : Spares C operands) :
    Heeds C (Form.conditional nested operands) := by
  refine bind (items? ho) fun vs hvs => ?_
  split
  · have hmem := hvs _ rfl
    exact bind (hn _ (hmem _ (by simp))) fun _ _ =>
      ite (pure (hmem _ (by simp))) (pure (hmem _ (by simp)))
  · exact wrongOperands _ _

lemma clauses (hn : Sparingly C nested) (budget : Nat) (ho : Spares C operands) :
    Heeds C (Form.clauses kw nested budget operands) := by
  induction budget generalizing operands with
  | zero => exact halt
  | succ budget ih =>
    refine bind (asPair ho) fun parts hp => ?_
    cases parts with
    | none => exact ite (pure (spares_emptyList C)) (raise _ _)
    | some parts =>
      obtain ⟨hc, hr⟩ := hp _ rfl
      refine bind (asPair hc) fun clause hclause => ?_
      cases clause with
      | none => exact raise _ _
      | some clause =>
        obtain ⟨ht, hb⟩ := hclause _ rfl
        refine bind (hasType _ hb) fun _ _ => ite (raise _ _) (ite (pure hb) ?_)
        exact bind (hn _ ht) fun _ _ => ite (pure hb) (ih hr)

lemma conjuncts (hn : Sparingly C nested) (budget : Nat) (ho : Spares C operands) :
    Heeds C (Form.conjuncts nested budget operands) := by
  induction budget generalizing operands with
  | zero => exact halt
  | succ budget ih =>
    refine bind (asPair ho) fun parts hp => ?_
    cases parts with
    | none => exact raise _ _
    | some parts =>
      obtain ⟨he, hr⟩ := hp _ rfl
      refine ite (pure he) (bind (hn _ he) fun _ _ => ite (ih hr) (pure ?_))
      exact spares_sentinel C (by decide)

lemma conjunction (hn : Sparingly C nested) (budget : Nat) (ho : Spares C operands) :
    Heeds C (Form.conjunction nested budget operands) :=
  ite (pure (spares_sentinel C (by decide))) (conjuncts hn budget ho)

lemma disjuncts (hn : Sparingly C nested) (budget : Nat) (ho : Spares C operands) :
    Heeds C (Form.disjuncts nested budget operands) := by
  induction budget generalizing operands with
  | zero => exact halt
  | succ budget ih =>
    refine bind (asPair ho) fun parts hp => ?_
    cases parts with
    | none => exact raise _ _
    | some parts =>
      obtain ⟨he, hr⟩ := hp _ rfl
      exact ite (pure he) (bind (hn _ he) fun _ hv => ite (pure hv) (ih hr))

lemma disjunction (hn : Sparingly C nested) (budget : Nat) (ho : Spares C operands) :
    Heeds C (Form.disjunction nested budget operands) :=
  ite (pure (spares_sentinel C (by decide))) (disjuncts hn budget ho)

/-- A closure is made in the current frame. -/
lemma closeOver {params body : Handle} (hp : Spares C params) (hb : Spares C body) :
    Heeds C (Form.closeOver params body) := by
  refine bind (walkSpine hp) fun w hw => bind (allM fun v hv => hasType _ (hw.1 v hv)) fun _ _ => ?_
  refine ite (raise _ _) ?_
  cases he : w.ending with
  | none => exact raise _ _
  | some ending =>
    refine bind (hasType _ (hw.2 ending he)) fun _ _ =>
      ite (raise _ _) (bind (hasType _ hb) fun _ _ => ?_)
    refine ite (raise _ _) (bind currentEnv fun env henv => alloc rfl fun c hc => ?_)
    rcases (by simpa [Datum.children] using hc : c = env ∨ c = params ∨ c = body) with
      rfl | rfl | rfl
    · exact henv
    · exact hp
    · exact hb

lemma lambda (ho : Spares C operands) : Heeds C (Form.lambda operands) := by
  refine bind (asPair ho) fun parts hp => ?_
  cases parts with
  | none => exact raise _ _
  | some parts => exact bind (closeOver (hp _ rfl).1 (hp _ rfl).2) fun _ hv => pure hv

lemma bindHere {name : Handle} (hn : Spares C name) (hv : Spares C v) :
    Heeds C (Form.bindHere name v) :=
  bind currentEnv fun _ he => bind (define he hn hv) fun _ hv => pure hv

lemma definition (hn : Sparingly C nested) (ho : Spares C operands) :
    Heeds C (Form.definition nested operands) := by
  refine bind (asPair ho) fun parts hp => ?_
  cases parts with
  | none => exact raise _ _
  | some parts =>
    obtain ⟨ht, hr⟩ := hp _ rfl
    refine bind (asPair ht) fun target htarget => ?_
    cases target with
    | some target =>
      obtain ⟨hname, hparams⟩ := htarget _ rfl
      refine bind (hasType _ hname) fun _ _ =>
        ite (bind (closeOver hparams hr) fun _ hv => ?_) (raise _ _)
      exact bindHere hname hv
    | none =>
      refine bind (hasType _ ht) fun _ _ => ite (bind (items? hr) fun vs hvs => ?_) (raise _ _)
      split
      · exact bind (hn _ (hvs _ rfl _ (by simp))) fun _ hv => bindHere ht hv
      · exact wrongOperands _ _

lemma assignment (hn : Sparingly C nested) (ho : Spares C operands) :
    Heeds C (Form.assignment nested operands) := by
  refine bind (items? ho) fun vs hvs => ?_
  split
  · have hmem := hvs _ rfl
    refine bind (hasType _ (hmem _ (by simp))) fun _ _ => ite ?_ (raise _ _)
    refine bind (hn _ (hmem _ (by simp))) fun _ hv => bind currentEnv fun _ he => ?_
    exact bind (assign he (hmem _ (by simp)) hv) fun _ hv => pure hv
  · exact wrongOperands _ _

lemma applyForm (hk : SparesWords C kw) (hn : Sparingly C nested) (ho : Spares C operands) :
    Heeds C (Form.apply kw nested operands) := by
  refine bind (items? ho) fun vs hvs => ?_
  split
  · have hmem := hvs _ rfl
    refine bind (hn _ (hmem _ (by simp))) fun args ha => bind (items? ha) fun elements he => ?_
    cases elements with
    | none => exact raise _ _
    | some elements =>
      refine rooted ha fun _ _ => rooted (spares_emptyList C) fun quoted hq =>
        bind (forM fun v hv => ?_) fun _ _ => ?_
      · have hv := he _ rfl v (List.mem_reverse.mp hv)
        refine bind (list (by simpa using ⟨hk.quote, hv⟩)) fun _ hi =>
          bind (contents hq) fun _ hc => ?_
        exact bind (cons hi hc) fun _ hp => store hq hp
      · exact bind (contents hq) fun _ hc => bind (cons (hmem _ (by simp)) hc) fun _ hp => pure hp
  · exact wrongOperands _ _

lemma evalForm (hn : Sparingly C nested) (ho : Spares C operands) :
    Heeds C (Form.eval nested operands) := by
  refine bind (items? ho) fun vs hvs => ?_
  split
  · have hmem := hvs _ rfl
    refine bind (hn _ (hmem _ (by simp))) fun target ht => rooted ht fun _ _ => ?_
    refine bind (hn _ (hmem _ (by simp))) fun env he => bind (hasType _ he) fun _ _ => ite ?_ ?_
    · exact bind (setCurrentEnv he) fun _ _ => pure ht
    · exact ite (raise _ _) (pure ht)
  · exact wrongOperands _ _

lemma theEnvironment (ho : Spares C operands) : Heeds C (Form.theEnvironment operands) := by
  refine bind (items? ho) fun vs _ => ?_
  split
  · exact bind currentEnv fun _ he => pure he
  · exact wrongOperands _ _

end Forms

/-! ## Steps and turns -/

variable {ctx : Context}

lemma ofPair (hh : HostHeeds C ctx.host) (hk : SparesWords C ctx.keywords) (hn : Sparingly C nested)
    (budget : Nat) {head : Handle} (hhead : Spares C head) (ho : Spares C operands) :
    Heeds C (Step.ofPair ctx nested budget head operands) := by
  refine ite (quote ho) ?_
  refine ite (quasiquote hk hn _ ho) ?_
  refine ite (conditional hn ho) ?_
  refine ite (pure ho) ?_
  refine ite (clauses hn _ ho) ?_
  refine ite (definition hn ho) ?_
  refine ite (assignment hn ho) ?_
  refine ite (conjunction hn _ ho) ?_
  refine ite (disjunction hn _ ho) ?_
  refine ite (bind (expand hk ho) fun _ hv => pure hv) ?_
  refine ite (lambda ho) ?_
  refine ite (applyForm hk hn ho) ?_
  refine ite (evalForm hn ho) ?_
  refine ite (theEnvironment ho) ?_
  exact ofCombination hh hn _ hhead ho

lemma ofExpr (hh : HostHeeds C ctx.host) (hk : SparesWords C ctx.keywords) (hn : Sparingly C nested)
    (budget : Nat) (hv : Spares C v) : Heeds C (Step.ofExpr ctx nested budget v) := by
  refine bind (datum hv) fun d hd => ?_
  cases d with
  | pair head operands =>
    exact ofPair hh hk hn _ (hd _ (by simp [Datum.children])) (hd _ (by simp [Datum.children]))
  | symbol name => exact bind currentEnv fun _ he => bind (lookup he hv) fun _ hw => pure hw
  | closure env params body => exact raise _ _
  | frame parent names values => exact raise _ _
  | _ => exact pure hv

lemma turn (hh : HostHeeds C ctx.host) (hk : SparesWords C ctx.keywords) (hn : Sparingly C nested)
    (budget : Nat) {slot : Root} (hs : ¬ Bars C slot.slot) (focus : Focus) :
    Heeds C (Evaluator.turn ctx nested budget slot focus) := by
  have hstep : ∀ v, Spares C v → Heeds C (Evaluator.step ctx nested budget focus v) := by
    intro v hv
    cases focus with
    | expr => exact ofExpr hh hk hn _ hv
    | body => exact ofBody hn _ hv
  refine bind (contents hs) fun v hv => bind (hstep v hv) fun step hstep => ?_
  cases step with
  | done v => exact pure hstep
  | eval expr => exact bind (store hs hstep) fun _ _ => pure trivial
  | body seq => exact bind (store hs hstep) fun _ _ => pure trivial

lemma loop (hh : HostHeeds C ctx.host) (hk : SparesWords C ctx.keywords) (budget : Nat)
    {slot : Root}
    (hs : ¬ Bars C slot.slot) (focus : Focus) : Heeds C (Evaluator.loop ctx budget slot focus) := by
  induction budget generalizing slot focus with
  | zero => exact halt
  | succ budget ih =>
    have hn : Sparingly C (Evaluator.nestedEval ctx budget) := fun expr he =>
      keepingEnv (rooted he fun _ hr => ih hr _)
    rw [Evaluator.loop_succ]
    refine bind (turn hh hk hn budget hs focus) fun t ht => ?_
    cases t with
    | done v => exact pure ht
    | again focus => exact ih hs focus

/-- A nested evaluation heeds whatever its caller has to heed. -/
lemma nestedEval (hh : HostHeeds C ctx.host) (hk : SparesWords C ctx.keywords) (budget : Nat) :
    Sparingly C (Evaluator.nestedEval ctx budget) := fun _ he =>
  keepingEnv (rooted he fun _ hr => loop hh hk budget hr _)

end Concern

end ArenaScheme
