/-
# What a turn asks for

A turn is a function of the evaluator that serves it, and it learns of the evaluator what it asks
for and nothing else.  So for any set of sites there are two cases.  Either whatever the evaluator
does at other sites makes no difference to the turn; or the turn comes to another site, and if the
evaluator halts there, then so does the turn.  This is proved for every action that has expressions
evaluated, from one to the next.

What is asked for at all is determined in this way, so two evaluators that agree on what a turn asks
for make the same turn.
-/
import ArenaScheme.Proofs.Discipline.Activations

namespace ArenaScheme

open Heap HeapM Evaluator

/-- Two evaluators do the same at some sites. -/
def Nested.AgreesOn (sites : Set Site) (nested nested' : Nested) : Prop :=
  ∀ site ∈ sites, nested' site.expr site.heap = nested site.expr site.heap

/-- An action, given as a function of an evaluator, learns nothing of the evaluator but what it asks
for. -/
def Consulting {α : Type} (F : Nested → EvalM α) : Prop :=
  ∀ (nested : Nested) (sites : Set Site) (h : Heap),
    (∀ nested', nested.AgreesOn sites nested' → F nested' h = F nested h) ∨
    ∃ site ∉ sites, ∀ nested' c, nested.AgreesOn sites nested' →
      nested' site.expr site.heap = .halt c → F nested' h = .halt c

namespace Consulting

variable {α β : Type} {F : Nested → EvalM α}

/-! ## Combinators -/

/-- An action that has nothing evaluated. -/
lemma const (x : EvalM α) : Consulting fun _ => x := fun _ _ _ => .inl fun _ _ => rfl

/-- Having an expression evaluated. -/
lemma nested (expr : Handle) : Consulting fun nested => nested expr := by
  intro nested sites h
  by_cases hm : (⟨expr, h⟩ : Site) ∈ sites
  · exact .inl fun nested' ha => ha _ hm
  · exact .inr ⟨⟨expr, h⟩, hm, fun _ _ _ hc => hc⟩

lemma bind {G : Nested → α → EvalM β} (hF : Consulting F)
    (hG : ∀ a, Consulting fun nested => G nested a) :
    Consulting fun nested => F nested >>= G nested := by
  intro nested sites h
  rcases hF nested sites h with heq | ⟨site, hs, hhalt⟩
  · cases hr : F nested h with
    | ok a k =>
      have hbind : ∀ nested', nested.AgreesOn sites nested' →
          (F nested' >>= G nested') h = G nested' a k := fun nested' ha =>
        bind_of_ok ((heq nested' ha).trans hr)
      rcases hG a nested sites k with heq' | ⟨site, hs, hhalt⟩
      · exact .inl fun nested' ha =>
          (hbind nested' ha).trans ((heq' nested' ha).trans (hbind nested fun _ _ => rfl).symm)
      · exact .inr ⟨site, hs, fun nested' c ha hc => (hbind nested' ha).trans
          (hhalt nested' c ha hc)⟩
    | error e k =>
      exact .inl fun nested' ha =>
        (bind_of_error ((heq nested' ha).trans hr)).trans (bind_of_error hr).symm
    | halt c =>
      exact .inl fun nested' ha =>
        (bind_of_halt ((heq nested' ha).trans hr)).trans (bind_of_halt hr).symm
  · exact .inr ⟨site, hs, fun nested' c ha hc => bind_of_halt (hhalt nested' c ha hc)⟩

lemma ite {p : Prop} [Decidable p] {G : Nested → EvalM α} (hF : p → Consulting F)
    (hG : ¬ p → Consulting G) :
    Consulting fun nested => if p then F nested else G nested := by
  by_cases hp : p
  · simp only [if_pos hp]
    exact hF hp
  · simp only [if_neg hp]
    exact hG hp

lemma ensuring (hF : Consulting F) (cleanup : EvalM Unit) :
    Consulting fun nested => ensuring (F nested) cleanup := by
  intro nested sites h
  rcases hF nested sites h with heq | ⟨site, hs, hhalt⟩
  · refine .inl fun nested' ha => ?_
    change HeapM.ensuring (F nested') cleanup h = HeapM.ensuring (F nested) cleanup h
    unfold HeapM.ensuring
    rw [heq nested' ha]
  · refine .inr ⟨site, hs, fun nested' c ha hc => ?_⟩
    change HeapM.ensuring (F nested') cleanup h = .halt c
    unfold HeapM.ensuring
    rw [hhalt nested' c ha hc]

lemma rooted {v : Handle} {G : Nested → Root → EvalM α}
    (hG : ∀ root, Consulting fun nested => G nested root) :
    Consulting fun nested => rooted v (G nested) :=
  bind (const _) fun root => ensuring (hG root) _

/-! ## Bodies and templates -/

lemma ofBody (budget : Nat) (seq : Handle) : Consulting fun nested =>
    Step.ofBody nested budget seq := by
  induction budget generalizing seq with
  | zero => exact const _
  | succ budget ih =>
    refine bind (const _) fun parts => ?_
    cases parts with
    | none => exact const _
    | some parts => exact ite (fun _ => const _) fun _ => bind (nested _) fun _ => ih _

section Templates

open Template

variable {copier : Nested → Copier} (kw : Keywords)

lemma copyQuotation (hc : ∀ template level, Consulting fun nested => copier nested template level)
    (form : Handle) (level : Nat) :
    Consulting fun nested => copyQuotation kw nested (copier nested) form level := by
  refine bind (const _) fun parts => ?_
  cases parts with
  | none => exact const _
  | some parts =>
    refine ite (fun _ => bind (const _) fun vs => ?_) fun _ => bind (const _) fun vs => ?_
    · split
      · exact bind (hc _ _) fun _ => const _
      · exact const _
    · split
      · exact nested _
      · exact bind (hc _ _) fun _ => const _
      · exact const _

lemma copySpine (hc : ∀ template level, Consulting fun nested => copier nested template level)
    (out : Root) (level budget : Nat) (last : Option Handle) (rest : Handle) :
    Consulting fun nested => copySpine kw nested (copier nested) out level budget last rest := by
  induction budget generalizing last rest with
  | zero => exact const _
  | succ budget ih =>
    refine bind (const _) fun parts => ?_
    cases parts with
    | none => exact const _
    | some parts =>
      refine ite (fun _ => bind (copyQuotation kw hc _ _) fun _ => const _) fun _ => ?_
      refine bind (const _) fun splicing => ite (fun _ => bind (const _) fun tail => ?_) fun _ => ?_
      · refine bind (const _) fun vs => ?_
        split
        · exact bind (nested _) fun _ => bind (const _) fun _ => ih _ _
        · exact const _
      · exact bind (hc _ _) fun _ => bind (const _) fun _ => ih _ _

lemma copy (budget : Nat) (template : Handle) (level : Nat) :
    Consulting fun nested => copy kw nested budget template level := by
  induction budget generalizing template level with
  | zero => exact const _
  | succ budget ih =>
    refine bind (const _) fun parts => ?_
    cases parts with
    | none => exact const _
    | some parts =>
      exact ite (fun _ => copyQuotation kw ih _ _) fun _ => rooted fun out =>
        copySpine kw ih _ _ _ _ _

end Templates

/-! ## Application -/

lemma evalOperands (budget : Nat) (last operands : Handle) :
    Consulting fun nested => Application.evalOperands nested budget last operands := by
  induction budget generalizing last operands with
  | zero => exact const _
  | succ budget ih =>
    refine bind (const _) fun parts => ?_
    cases parts with
    | none => exact const _
    | some parts =>
      exact bind (nested _) fun _ => bind (const _) fun _ => bind (const _) fun _ => ih _ _

lemma evalCombination (budget : Nat) (operator operands : Handle) :
    Consulting fun nested => Application.evalCombination nested budget operator operands :=
  bind (nested _) fun _ => bind (const _) fun _ => rooted fun _ =>
    bind (evalOperands _ _ _) fun _ => const _

/-! ## Special forms -/

lemma quasiquote (kw : Keywords) (budget : Nat) (operands : Handle) :
    Consulting fun nested => Form.quasiquote kw nested budget operands := by
  refine bind (const _) fun vs => ?_
  split
  · exact bind (copy kw _ _ _) fun _ => const _
  · exact const _

lemma conditional (operands : Handle) : Consulting fun nested =>
    Form.conditional nested operands := by
  refine bind (const _) fun vs => ?_
  split
  · exact bind (nested _) fun _ => const _
  · exact const _

lemma clauses (kw : Keywords) (budget : Nat) (operands : Handle) :
    Consulting fun nested => Form.clauses kw nested budget operands := by
  induction budget generalizing operands with
  | zero => exact const _
  | succ budget ih =>
    refine bind (const _) fun parts => ?_
    cases parts with
    | none => exact const _
    | some parts =>
      refine bind (const _) fun clause => ?_
      cases clause with
      | none => exact const _
      | some clause =>
        refine bind (const _) fun pair => ite (fun _ => const _) fun _ =>
          ite (fun _ => const _) fun _ => ?_
        exact bind (nested _) fun v => ite (fun _ => const _) fun _ => ih _

lemma conjuncts (budget : Nat) (operands : Handle) :
    Consulting fun nested => Form.conjuncts nested budget operands := by
  induction budget generalizing operands with
  | zero => exact const _
  | succ budget ih =>
    refine bind (const _) fun parts => ?_
    cases parts with
    | none => exact const _
    | some parts =>
      refine ite (fun _ => const _) fun _ => bind (nested _) fun v => ?_
      exact ite (fun _ => ih _) fun _ => const _

lemma disjuncts (budget : Nat) (operands : Handle) :
    Consulting fun nested => Form.disjuncts nested budget operands := by
  induction budget generalizing operands with
  | zero => exact const _
  | succ budget ih =>
    refine bind (const _) fun parts => ?_
    cases parts with
    | none => exact const _
    | some parts =>
      refine ite (fun _ => const _) fun _ => bind (nested _) fun v => ?_
      exact ite (fun _ => const _) fun _ => ih _

lemma variableDefinition (name operands : Handle) :
    Consulting fun nested => Form.variableDefinition nested name operands := by
  refine bind (const _) fun symbol => ite (fun _ => bind (const _) fun vs => ?_) fun _ => const _
  split
  · exact bind (nested _) fun _ => const _
  · exact const _

lemma definition (operands : Handle) : Consulting fun nested =>
    Form.definition nested operands := by
  refine bind (const _) fun parts => ?_
  cases parts with
  | none => exact const _
  | some parts =>
    refine bind (const _) fun target => ?_
    cases target with
    | some target => exact const _
    | none => exact variableDefinition _ _

lemma assignment (operands : Handle) : Consulting fun nested =>
    Form.assignment nested operands := by
  refine bind (const _) fun vs => ?_
  split
  · refine bind (const _) fun symbol => ite (fun _ => ?_) fun _ => const _
    exact bind (nested _) fun _ => const _
  · exact const _

lemma applyForm (kw : Keywords) (operands : Handle) :
    Consulting fun nested => Form.apply kw nested operands := by
  refine bind (const _) fun vs => ?_
  split
  · exact bind (nested _) fun args => const _
  · exact const _

lemma evalForm (operands : Handle) : Consulting fun nested => Form.eval nested operands := by
  refine bind (const _) fun vs => ?_
  split
  · exact bind (nested _) fun target => rooted fun _ => bind (nested _) fun env => const _
  · exact const _

/-! ## Steps and turns -/

variable {ctx : Context}

lemma ofPair (budget : Nat) (head operands : Handle) :
    Consulting fun nested => Step.ofPair ctx nested budget head operands := by
  refine ite (fun _ => const _) fun _ => ?_
  refine ite (fun _ => quasiquote _ _ _) fun _ => ?_
  refine ite (fun _ => conditional _) fun _ => ?_
  refine ite (fun _ => const _) fun _ => ?_
  refine ite (fun _ => clauses _ _ _) fun _ => ?_
  refine ite (fun _ => definition _) fun _ => ?_
  refine ite (fun _ => assignment _) fun _ => ?_
  refine ite (fun _ => ite (fun _ => const _) fun _ => conjuncts _ _) fun _ => ?_
  refine ite (fun _ => ite (fun _ => const _) fun _ => disjuncts _ _) fun _ => ?_
  refine ite (fun _ => const _) fun _ => ?_
  refine ite (fun _ => const _) fun _ => ?_
  refine ite (fun _ => applyForm _ _) fun _ => ?_
  refine ite (fun _ => evalForm _) fun _ => ?_
  refine ite (fun _ => const _) fun _ => ?_
  exact bind (evalCombination _ _ _) fun _ => const _

lemma ofExpr (budget : Nat) (expr : Handle) :
    Consulting fun nested => Step.ofExpr ctx nested budget expr := by
  refine bind (const _) fun d => ?_
  cases d with
  | pair head operands => exact ofPair _ _ _
  | _ => exact const _

lemma turn (budget : Nat) (slot : Root) (focus : Focus) :
    Consulting fun nested => Evaluator.turn ctx nested budget slot focus := by
  have hstep : ∀ v, Consulting fun nested => Evaluator.step ctx nested budget focus v := fun v => by
    cases focus with
    | expr => exact ofExpr _ _
    | body => exact ofBody _ _
  exact bind (const _) fun v => bind (hstep v) fun step => const _

end Consulting

namespace Activation

variable {ctx : Context} {a : Activation} {nested : Nested} {sites P : Set Site} {site : Site}

/-- A turn that is served at some sites only comes to the end that it comes to anyway, or it asks
for something else. -/
lemma served_or_asks (ctx : Context) (a : Activation) (sites : Set Site) :
    (∀ nested, (a.evaluator ctx).AgreesOn sites nested →
      a.turn ctx nested = a.turn ctx (a.evaluator ctx)) ∨
      ∃ site ∉ sites, a.Asks ctx sites site ∧ ∀ nested c, (a.evaluator ctx).AgreesOn sites nested →
        nested site.expr site.heap = .halt c → a.turn ctx nested = .halt c := by
  refine (Consulting.turn a.budget a.slot a.focus (a.evaluator ctx) sites a.heap).imp_right ?_
  rintro ⟨site, hs, hhalt⟩
  refine ⟨site, hs, fun c => hhalt _ c (fun s hm => ?_) (if_pos rfl), hhalt⟩
  have hne : (⟨s.expr, s.heap⟩ : Site) ≠ site := fun he => hs (he ▸ hm)
  rw [stopAt, if_neg hne, onlyAt, if_pos hm]

/-- Evaluators that agree on all that a turn asks for make the same turn. -/
lemma turn_congr (hn : ∀ sites site, a.Asks ctx sites site →
    nested site.expr site.heap = a.evaluator ctx site.expr site.heap) :
    a.turn ctx nested = a.turn ctx (a.evaluator ctx) := by
  rcases served_or_asks ctx a {s | nested s.expr s.heap = a.evaluator ctx s.expr s.heap} with
    heq | ⟨site, hs, ha, -⟩
  · exact heq nested fun _ hs => hs
  · exact absurd (hn _ site ha) hs

/-- A turn asks for an evaluation whatever the evaluator does there.  So it halts if the evaluator
halts there, and at all other sites that the turn asks for does what it is expected to do or halts
likewise. -/
lemma Asks.halts {c : Halt} (ha : a.Asks ctx sites site)
    (hn : ∀ sites s, a.Asks ctx sites s → s ≠ site →
      nested s.expr s.heap = a.evaluator ctx s.expr s.heap ∨ nested s.expr s.heap = .halt c)
    (hc : nested site.expr site.heap = .halt c) : a.turn ctx nested = .halt c := by
  set S : Set Site :=
    {s | s ≠ site ∧ s ∈ sites ∧ nested s.expr s.heap = a.evaluator ctx s.expr s.heap}
    with hS
  have hagree : ∀ c, (a.evaluator ctx).AgreesOn S
      (stopAt (onlyAt (a.evaluator ctx) sites) site c) := fun c s hs => by
    rw [stopAt, if_neg hs.1, onlyAt, if_pos hs.2.1]
  rcases served_or_asks ctx a S with heq | ⟨s, hs, hask, hhalt⟩
  · -- the turn would not depend on the site
    have h1 := (heq _ (hagree .baseFrame)).symm.trans (ha .baseFrame)
    have h2 := (heq _ (hagree .unfinished)).symm.trans (ha .unfinished)
    simp [h1] at h2
  · by_cases hsite : s = site
    · subst hsite
      exact hhalt nested c (fun t ht => ht.2.2) hc
    · -- another site that is not served comes first, but then the turn halts there
      by_cases hm : s ∈ sites
      · rcases hn S s hask hsite with he | he
        · exact absurd ⟨hsite, hm, he⟩ hs
        · exact hhalt nested c (fun t ht => ht.2.2) he
      · have hstop : stopAt (onlyAt (a.evaluator ctx) sites) site .baseFrame s.expr s.heap =
            .halt .unfinished := by
          rw [stopAt, if_neg hsite, onlyAt, if_neg hm]
        have := (hhalt _ _ (hagree _) hstop).symm.trans (ha .baseFrame)
        simp at this

end Activation

end ArenaScheme
