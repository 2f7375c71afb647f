/-
# Errors as operands

The evaluation of an operand may fail, or it may have an error object as its value, be it that a
variable is bound to one or that one is quoted.  In the first case the form that the operand belongs
to fails with the same error.  In the second case it does not: a choice takes the error object for
true, as it takes any object but the false one, and whatever needs an object of a certain type
reports that the error object is not of that type.
-/
import ArenaScheme.Proofs.Bindings
import ArenaScheme.Proofs.Consuming.Splices
import ArenaScheme.Proofs.Templates.Evaluation

namespace ArenaScheme

open Heap HeapM

variable {ctx : Context} {kw : Keywords} {nested : Nested} {host : Array HostProcedure}
  {W : Nat → Prop} {s : Prop} {part : Heap → Handle → Handle → Handle → Prop} {truth : Bool}
  {kind : ErrorKind} {message : String} {budget n m : Nat}
  {list later item rest clause body expr operand operands e v : Handle} {h k l : Heap}

/-! ## Reports -/

/-- The action fails because an object is of the wrong type, and the error is raised in the heap
`l`.  If there is no room for the error object, then the action fails for want of memory. -/
def Outcome.Complains {α : Type} (o : Outcome Handle α) (l : Heap) (message : String) : Prop :=
  ∃ e k, l.Reports .wrongType message e k ∧ o.FailsWith e k

lemma exists_raise {α : Type} (hw : l.WellFormed) (message : String) :
    ∃ e k, (raise .wrongType message : EvalM α) l = .error e k ∧
      l.Reports .wrongType message e k := by
  have hk : ErrorKind.wrongType ≠ .outOfMemory := by decide
  obtain ⟨_, _, -, hfalse⟩ | hr := (raise_finishes (α := α) hw hk message).cases
  · exact hfalse.elim
  · exact hr

lemma Outcome.Complains.raise {α : Type} (hw : l.WellFormed) (message : String) :
    ((raise .wrongType message : EvalM α) l).Complains l message := by
  obtain ⟨e, k, hrun, hr⟩ := exists_raise (α := α) hw message
  exact ⟨e, k, hr, k, hrun, .refl k⟩

namespace Outcome

lemma FailsWith.of_error {α : Type} {o : Outcome Handle α} (ho : o = .error e l) :
    o.FailsWith e l :=
  ⟨l, ho, .refl l⟩

lemma Complains.rooted {α : Type} {f : Root → EvalM α} (hroom : h.roots.size < h.rootSlots)
    (ho : ArenaScheme.Orderly host W s (f ⟨h.roots.size⟩))
    (hf : (f ⟨h.roots.size⟩ { h with roots := h.roots.push v }).Complains l message) :
    ((HeapM.rooted v f) h).Complains l message := by
  obtain ⟨e, k, hr, hf⟩ := hf
  exact ⟨e, k, hr, hf.rooted hroom ho⟩

end Outcome

/-! ## Error objects -/

namespace Heap

/-- An error object counts as true. -/
lemma isTruthy_of_error (hs : l.HasSentinels) (he : l.object? e = some (.error kind message)) :
    e.isTruthy = true := by
  by_contra hf
  obtain rfl : e = .falseObject := by simpa using hf
  have hfalse : l.object? .falseObject = some (.bool false) := hs .falseObject (by decide)
  rw [hfalse] at he
  cases he

/-- An error object is no list. -/
lemma items?_of_error {ε : Type} (hs : l.HasSentinels)
    (he : l.object? e = some (.error kind message)) :
    (items? e : HeapM ε (Option (List Handle))) l = .ok none l := by
  refine items?_of_atom (isLive_of_object? he) (by rw [pairAt, he]; rfl) ?_
  rintro rfl
  rw [hs.emptyList] at he
  cases he

end Heap

/-! ## The parts of a list, one after another -/

namespace Form

/-- A clause with a test other than `else`, and with a body. -/
structure IsClause (kw : Keywords) (h : Heap) (clause test body : Handle) : Prop where
  pair : h.object? clause = some (.pair test body)
  body : (h.pairAt body).isSome
  test : test ≠ kw.otherwise

/-- The expression of a clause is its test. -/
def IsTest (kw : Keywords) (h : Heap) (clause _rest test : Handle) : Prop :=
  ∃ body, IsClause kw h clause test body

/-- Operands are expressions themselves, and the last one is different from the others. -/
def IsOperand (_h : Heap) (operand rest expr : Handle) : Prop := expr = operand ∧ rest ≠ .emptyList

/-- A form gets from a list to a later part of it: it evaluates the expressions of the parts one
after another, and the values have that truth. -/
inductive Reaches (nested : Nested) (part : Heap → Handle → Handle → Handle → Prop) (truth : Bool) :
    Nat → Handle → Heap → Nat → Handle → Heap → Prop
  | refl (n : Nat) (list : Handle) (h : Heap) : Reaches nested part truth n list h n list h
  | next {n m : Nat} {list item rest expr v later : Handle} {h k l : Heap}
      (hl : h.object? list = some (.pair item rest)) (hp : part h item rest expr)
      (hv : nested expr h = .ok v k)
      (ht : v.isTruthy = truth) (hr : Reaches nested part truth n rest k m later l) :
      Reaches nested part truth (n + 1) list h m later l

/-- What has a later part is not empty. -/
lemma Reaches.ne_emptyList (hr : Reaches nested part truth n list h m later k) (hs : h.HasSentinels)
    (hl : k.object? later = some (.pair item rest)) : list ≠ .emptyList := by
  rintro rfl
  cases hr with
  | refl =>
    rw [hs.emptyList] at hl
    cases hl
  | next hlist _ _ _ _ =>
    rw [hs.emptyList] at hlist
    cases hlist

/-- A round on a clause. -/
lemma clauses_round {test : Handle} (hl : h.object? list = some (.pair clause rest))
    (hc : IsClause kw h clause test body) :
    clauses kw nested (n + 1) list h = (do
      if (← nested test).isTruthy then return Step.body body else clauses kw nested n rest) h := by
  obtain ⟨⟨x, y⟩, hbody⟩ := Option.isSome_iff_exists.mp hc.body
  rw [clauses, bind_of_ok (asPair_apply hl)]
  dsimp only [Datum.pair?]
  rw [bind_of_ok (asPair_apply hc.pair)]
  dsimp only [Datum.pair?]
  rw [bind_of_ok (hasType_apply (pairAt_eq_some.mp hbody) .pair), if_neg (by simp [Datum.type]),
    if_neg hc.test]

/-- A round on an operand of `and`. -/
lemma conjuncts_round (hl : h.object? list = some (.pair expr rest)) (hr : rest ≠ .emptyList) :
    conjuncts nested (n + 1) list h = (do
      if (← nested expr).isTruthy then conjuncts nested n rest else return Step.done .falseObject)
        h := by
  rw [conjuncts, bind_of_ok (asPair_apply hl)]
  dsimp only [Datum.pair?]
  rw [if_neg hr]

/-- A round on an operand of `or`. -/
lemma disjuncts_round (hl : h.object? list = some (.pair expr rest)) (hr : rest ≠ .emptyList) :
    disjuncts nested (n + 1) list h = (do
      let v ← nested expr
      if v.isTruthy then return Step.done v else disjuncts nested n rest) h := by
  rw [disjuncts, bind_of_ok (asPair_apply hl)]
  dsimp only [Datum.pair?]
  rw [if_neg hr]

namespace Reaches

/-- What goes on with the rest of a list after each part gets to the later part. -/
lemma eq_of_round {form : Nat → Handle → EvalM Step}
    (hround : ∀ {n list item rest expr v h k}, h.object? list = some (.pair item rest) →
      part h item rest expr →
      nested expr h = .ok v k → v.isTruthy = truth → form (n + 1) list h = form n rest k)
    (hr : Reaches nested part truth n list h m later k) : form n list h = form m later k := by
  induction hr with
  | refl => rfl
  | next hl hp hv ht _ ih => exact (hround hl hp hv ht).trans ih

lemma clauses_eq (hr : Reaches nested (IsTest kw) false n list h m later k) :
    clauses kw nested n list h = clauses kw nested m later k := by
  refine hr.eq_of_round fun hl hp hv ht => ?_
  obtain ⟨body, hc⟩ := hp
  rw [clauses_round hl hc, bind_of_ok hv, if_neg (by simp [ht])]

lemma conjuncts_eq (hr : Reaches nested IsOperand true n list h m later k) :
    conjuncts nested n list h = conjuncts nested m later k := by
  refine hr.eq_of_round fun hl hp hv ht => ?_
  obtain ⟨rfl, hrest⟩ := hp
  rw [conjuncts_round hl hrest, bind_of_ok hv, if_pos ht]

lemma disjuncts_eq (hr : Reaches nested IsOperand false n list h m later k) :
    disjuncts nested n list h = disjuncts nested m later k := by
  refine hr.eq_of_round fun hl hp hv ht => ?_
  obtain ⟨rfl, hrest⟩ := hp
  rw [disjuncts_round hl hrest, bind_of_ok hv, if_neg (by simp [ht])]

end Reaches

end Form

open Form

/-! ## Operands -/

/-- What a step wants the value of an operand for. -/
inductive Use
  /-- It is the predicate of an `if` form with that consequent. -/
  | predicate (consequent : Handle)
  /-- It is the test of a `cond` clause with that body. -/
  | test (body : Handle)
  /-- It is an operand of `and`, others come after it, and this is what is left of the budget for
  them. -/
  | conjunct (budget : Nat) (rest : Handle)
  /-- It is an operand of `or`, and others come after it. -/
  | disjunct
  /-- It is the operator of a combination with these operands. -/
  | operator (operands : Handle)
  /-- It is the list of arguments of an `apply` form. -/
  | arguments
  /-- It is to be spliced into a template. -/
  | spliced
  /-- It is the environment of an `eval` form. -/
  | environment
deriving DecidableEq, Repr

/-- A step on `expr` in the heap `h` gets to the evaluation of an operand in the heap `k`. -/
inductive Demands (ctx : Context) (nested : Nested) (budget : Nat) (h : Heap) (expr : Handle) :
    Use → Handle → Heap → Prop
  | predicate {operand operands consequent alternative : Handle}
      (he : h.object? expr = some (.pair ctx.keywords.conditional operands))
      (ho : h.Elements operands [operand, consequent, alternative]) :
      Demands ctx nested budget h expr (.predicate consequent) operand h
  | test {n : Nat} {operand operands later clause rest body : Handle} {k : Heap}
      (he : h.object? expr = some (.pair ctx.keywords.clauses operands))
      (hr : Reaches nested (IsTest ctx.keywords) false budget operands h (n + 1) later k)
      (hl : k.object? later = some (.pair clause rest))
      (hc : IsClause ctx.keywords k clause operand body) :
      Demands ctx nested budget h expr (.test body) operand k
  | conjunct {n : Nat} {operand operands later rest : Handle} {k : Heap}
      (he : h.object? expr = some (.pair ctx.keywords.conjunction operands))
      (hr : Reaches nested IsOperand true budget operands h (n + 1) later k)
      (hl : k.object? later = some (.pair operand rest)) (hrest : rest ≠ .emptyList) :
      Demands ctx nested budget h expr (.conjunct n rest) operand k
  | disjunct {n : Nat} {operand operands later rest : Handle} {k : Heap}
      (he : h.object? expr = some (.pair ctx.keywords.disjunction operands))
      (hr : Reaches nested IsOperand false budget operands h (n + 1) later k)
      (hl : k.object? later = some (.pair operand rest)) (hrest : rest ≠ .emptyList) :
      Demands ctx nested budget h expr .disjunct operand k
  | operator {operand operands : Handle} (he : h.object? expr = some (.pair operand operands))
      (hk : operand ∉ ctx.keywords.heads) : Demands ctx nested budget h expr
      (.operator operands) operand h
  | arguments {procedure operand operands : Handle}
      (he : h.object? expr = some (.pair ctx.keywords.apply operands))
      (ho : h.Elements operands [procedure, operand]) :
      Demands ctx nested budget h expr .arguments operand h
  | spliced {template operand operands : Handle} {k : Heap}
      (he : h.object? expr = some (.pair ctx.keywords.quasiquote operands))
      (ho : h.Elements operands [template])
      (hs : Template.Splices ctx.keywords nested budget (.part template 0) h operand k) :
      Demands ctx nested budget h expr .spliced operand k
  /-- The expression that is to be evaluated there comes first, and its value is held. -/
  | environment {inner target operand operands : Handle} {k : Heap}
      (he : h.object? expr = some (.pair ctx.keywords.eval operands))
      (ho : h.Elements operands [inner, operand])
      (hv : nested inner h = .ok target k) (hroom : k.roots.size < k.rootSlots) :
      Demands ctx nested budget h expr .environment operand { k with roots := k.roots.push target }

namespace Use

/-- The value of the operand, which is evaluated in the heap `k`, is `e`, and the heap is `l` when
the step deals with it.  In a combination, the operands are evaluated before that, and the list of
all values is held. -/
def Receives (nested : Nested) (budget : Nat) (operand : Handle) (k : Heap) (e : Handle)
    (l : Heap) : Use → Prop
  | .operator operands =>
    ∃ call args m, Application.evalCombination nested budget operand operands k = .ok call m ∧
      m.object? call = some (.pair e args) ∧ m.roots.size < m.rootSlots ∧
      l = { m with roots := m.roots.push call }
  | _ => nested operand k = .ok e l

/-- What comes of a step that deals with the error object `e` in the heap `l`. -/
def Treats (nested : Nested) (e : Handle) (l : Heap) (o : Outcome Handle Step) : Use → Prop
  | .predicate consequent => o = .ok (.eval consequent) l
  | .test body => o = .ok (.body body) l
  | .conjunct budget rest => o = conjuncts nested budget rest l
  | .disjunct => o = .ok (.done e) l
  | .operator _ => o.Complains l "can't apply an object of type error"
  | .arguments => o.Complains l "apply expects a list of arguments"
  | .spliced => o.Complains l "cannot splice an improper list"
  | .environment => o.Complains l "eval expects an environment or #f"

end Use

/-! ## Steps -/

/-- What a step does with errors where it has an operand evaluated. -/
structure Accepts (nested : Nested) (budget : Nat) (use : Use) (operand : Handle) (k : Heap)
    (o : Outcome Handle Step) : Prop where
  /-- It passes on the error that the evaluation fails with. -/
  failure : ∀ e l, nested operand k = .error e l → o.FailsWith e l
  /-- An error object is a value for it. -/
  value : ∀ e l kind message, use.Receives nested budget operand k e l → l.WellFormed →
    l.HasSentinels →
    l.object? e = some (.error kind message) → use.Treats nested e l o

lemma step_pair {head : Handle} (he : h.object? expr = some (.pair head operands)) :
    Evaluator.step ctx nested budget .expr expr h =
      Step.ofPair ctx nested budget head operands h := by
  rw [Evaluator.step, Step.ofExpr, bind_of_ok (datum_apply he)]

section Forms

variable (hn : ctx.keywords.heads.Nodup)
include hn

lemma ofPair_choices :
    Step.ofPair ctx nested budget ctx.keywords.conditional operands = conditional nested operands ∧
    Step.ofPair ctx nested budget ctx.keywords.clauses operands =
      clauses ctx.keywords nested budget operands ∧
    Step.ofPair ctx nested budget ctx.keywords.conjunction operands =
      conjunction nested budget operands ∧
    Step.ofPair ctx nested budget ctx.keywords.disjunction operands =
      disjunction nested budget operands := by
  simp only [Keywords.heads, List.nodup_cons, List.mem_cons, List.not_mem_nil, or_false, not_or]
    at hn
  refine ⟨?_, ?_, ?_, ?_⟩ <;> simp [Step.ofPair, hn, Ne.symm]

lemma ofPair_consumers :
    Step.ofPair ctx nested budget ctx.keywords.apply operands =
      Form.apply ctx.keywords nested operands ∧
    Step.ofPair ctx nested budget ctx.keywords.quasiquote operands =
      quasiquote ctx.keywords nested budget operands ∧
    Step.ofPair ctx nested budget ctx.keywords.eval operands = Form.eval nested operands := by
  simp only [Keywords.heads, List.nodup_cons, List.mem_cons, List.not_mem_nil, or_false, not_or]
    at hn
  refine ⟨?_, ?_, ?_⟩ <;> simp [Step.ofPair, hn, Ne.symm]

end Forms

lemma ofPair_combination (hk : operand ∉ ctx.keywords.heads) :
    Step.ofPair ctx nested budget operand operands =
      Application.ofCombination ctx.host nested budget operand operands := by
  simp only [Keywords.heads, List.mem_cons, List.not_mem_nil, or_false, not_or] at hk
  simp [Step.ofPair, hk]

namespace Accepts

variable {use : Use} {o : Outcome Handle Step}

/-- All that a choice looks at is whether the value is true. -/
lemma of_choice {x : Handle → EvalM Step} {y : EvalM Step}
    (ho : o = (do let v ← nested operand; if v.isTruthy then x v else y) k)
    (hr : ∀ e l, use.Receives nested budget operand k e l → nested operand k = .ok e l)
    (ht : ∀ e l, use.Treats nested e l (x e l)) : Accepts nested budget use operand k o where
  failure e l he := .of_error (ho.trans (bind_of_error he))
  value e l kind message hreceives _ hs he := by
    rw [ho, bind_of_ok (hr e l hreceives), if_pos (isTruthy_of_error hs he)]
    exact ht e l

lemma operator (hb : HostBalanced ctx.host) (he : h.object? expr = some (.pair operand operands))
    (hk : operand ∉ ctx.keywords.heads) :
    Accepts nested budget (.operator operands) operand h
      (Evaluator.step ctx nested budget .expr expr h) := by
  rw [step_pair he, ofPair_combination hk, Application.ofCombination]
  constructor
  · intro e l hf
    exact .bind (.bind (.of_error hf))
  · rintro e l kind message ⟨call, args, m, hrun, hcall, hroom, rfl⟩ hw _ herror
    rw [bind_of_ok hrun]
    refine .rooted (W := fun _ => False) hroom
      (.bind (.expect _ _ _) fun _ => Watched.orderly_apply hb _ _) ?_
    rw [bind_of_ok (pairParts_apply (h := { m with roots := m.roots.push call })
      (pairAt_eq_some.mpr hcall))]
    dsimp only
    rw [Application.apply, bind_of_ok (datum_apply herror)]
    exact .raise hw _

section Forms

variable (hn : ctx.keywords.heads.Nodup)
include hn

lemma predicate {consequent alternative : Handle}
    (he : h.object? expr = some (.pair ctx.keywords.conditional operands))
    (ho : h.Elements operands [operand, consequent, alternative]) :
    Accepts nested budget (.predicate consequent) operand h
      (Evaluator.step ctx nested budget .expr expr h) := by
  have hstep : Evaluator.step ctx nested budget .expr expr h = (do
      if (← nested operand).isTruthy then return Step.eval consequent else
        return Step.eval alternative) h := by
    rw [step_pair he, (ofPair_choices hn).1, conditional, bind_of_ok (items?_of_elements ho)]
  exact of_choice hstep (fun _ _ => id) fun _ _ => rfl

lemma test (he : h.object? expr = some (.pair ctx.keywords.clauses operands))
    (hr : Reaches nested (IsTest ctx.keywords) false budget operands h (n + 1) later k)
    (hl : k.object? later = some (.pair clause rest))
    (hc : IsClause ctx.keywords k clause operand body) :
    Accepts nested budget (.test body) operand k
      (Evaluator.step ctx nested budget .expr expr h) := by
  have hstep : Evaluator.step ctx nested budget .expr expr h =
      clauses ctx.keywords nested (n + 1) later k := by
    rw [step_pair he, (ofPair_choices hn).2.1, hr.clauses_eq]
  exact of_choice (hstep.trans (clauses_round hl hc)) (fun _ _ => id) fun _ _ => rfl

lemma conjunct (hs : h.HasSentinels)
    (he : h.object? expr = some (.pair ctx.keywords.conjunction operands))
    (hr : Reaches nested IsOperand true budget operands h (n + 1) later k)
    (hl : k.object? later = some (.pair operand rest)) (hrest : rest ≠ .emptyList) :
    Accepts nested budget (.conjunct n rest) operand k
      (Evaluator.step ctx nested budget .expr expr h) := by
  have hstep : Evaluator.step ctx nested budget .expr expr h =
      conjuncts nested (n + 1) later k := by
    rw [step_pair he, (ofPair_choices hn).2.2.1, conjunction, if_neg (hr.ne_emptyList hs hl),
      hr.conjuncts_eq]
  exact of_choice (hstep.trans (conjuncts_round hl hrest)) (fun _ _ => id) fun _ _ => rfl

lemma disjunct (hs : h.HasSentinels)
    (he : h.object? expr = some (.pair ctx.keywords.disjunction operands))
    (hr : Reaches nested IsOperand false budget operands h (n + 1) later k)
    (hl : k.object? later = some (.pair operand rest)) (hrest : rest ≠ .emptyList) :
    Accepts nested budget .disjunct operand k (Evaluator.step ctx nested budget .expr expr h) := by
  have hstep : Evaluator.step ctx nested budget .expr expr h =
      disjuncts nested (n + 1) later k := by
    rw [step_pair he, (ofPair_choices hn).2.2.2, disjunction, if_neg (hr.ne_emptyList hs hl),
      hr.disjuncts_eq]
  exact of_choice (hstep.trans (disjuncts_round hl hrest)) (fun _ _ => id) fun _ _ => rfl

lemma arguments {procedure : Handle}
    (he : h.object? expr = some (.pair ctx.keywords.apply operands))
    (ho : h.Elements operands [procedure, operand]) :
    Accepts nested budget .arguments operand h (Evaluator.step ctx nested budget .expr expr h) := by
  rw [step_pair he, (ofPair_consumers hn).1, Form.apply, bind_of_ok (items?_of_elements ho)]
  dsimp only
  constructor
  · intro e l hf
    exact .of_error (bind_of_error hf)
  · intro e l kind message hr hw hs herror
    rw [bind_of_ok hr, bind_of_ok (items?_of_error hs herror)]
    exact .raise hw _

lemma spliced {template : Handle}
    (hnested : ∀ expr, Orderly host (fun _ => False) False (nested expr))
    (he : h.object? expr = some (.pair ctx.keywords.quasiquote operands))
    (ho : h.Elements operands [template])
    (hs : Template.Splices ctx.keywords nested budget (.part template 0) h operand k) :
    Accepts nested budget .spliced operand k (Evaluator.step ctx nested budget .expr expr h) := by
  rw [step_pair he, (ofPair_consumers hn).2.1, quasiquote, bind_of_ok (items?_of_elements ho)]
  dsimp only
  constructor
  · intro e l hf
    exact .bind (hs.fails hnested fun _ _ => .bind (.of_error hf))
  · intro e l kind message hr hw hsent herror
    -- wherever it is to be spliced in, the same error is raised
    obtain ⟨e', m, hrun, hreports⟩ :=
      exists_raise (α := Option Handle) hw "cannot splice an improper list"
    refine ⟨e', m, hreports, .bind (hs.fails hnested fun out last => ?_)⟩
    rw [bind_of_ok hr, Template.splice, bind_of_ok (items?_of_error hsent herror)]
    exact .of_error hrun

lemma environment {inner target : Handle}
    (hnested : ∀ expr, Orderly host (fun _ => False) False (nested expr))
    (he : h.object? expr = some (.pair ctx.keywords.eval operands))
    (ho : h.Elements operands [inner, operand]) (hv : nested inner h = .ok target k)
    (hroom : k.roots.size < k.rootSlots) :
    Accepts nested budget .environment operand { k with roots := k.roots.push target }
      (Evaluator.step ctx nested budget .expr expr h) := by
  have hbody : ArenaScheme.Orderly host (fun _ => False) True (do
      let env ← nested operand
      if ← hasType .environment env then
        setCurrentEnv env
        return Step.eval target
      else if env.isTruthy then raise .wrongType "eval expects an environment or #f"
      else return Step.eval target) := by
    refine .bind ((hnested operand).mono (fun _ => id) False.elim) fun env =>
      .bind (.hasType _ _) fun frame => ?_
    refine .ite (fun _ => .bind (.setCurrentEnv _) fun _ => .pure _) fun _ => ?_
    exact .ite (fun _ => .raise _ _) fun _ => .pure _
  rw [step_pair he, (ofPair_consumers hn).2.2, Form.eval, bind_of_ok (items?_of_elements ho)]
  dsimp only
  rw [bind_of_ok hv]
  constructor
  · intro e l hf
    exact .rooted hroom hbody (.of_error (bind_of_error hf))
  · intro e l kind message hr hw hs herror
    refine .rooted hroom hbody ?_
    rw [bind_of_ok hr, bind_of_ok (hasType_apply herror .environment),
      if_neg (by simp [Datum.type]), if_pos (isTruthy_of_error hs herror)]
    exact .raise hw _

end Forms

end Accepts

/-- What an evaluation does with errors where it has an operand evaluated.

* If the evaluation of the operand fails, then so does the form, with the same error.
* If the value of the operand is an error object, it is dealt with as a value.  A predicate, a test
  and an operand of `and` count as true, so evaluation goes on with the consequent, with the body
  and with the other operands; an operand of `or` counts as true as well, and so it is the value of
  the form.  An operator, a list of arguments, a list that is to be spliced in and an environment
  are of the wrong type, and the form fails with another error that says so, or with the one for
  want of memory. -/
theorem error_objects_are_operands (hb : HostBalanced ctx.host) (hn : ctx.keywords.heads.Nodup)
    (hs : h.HasSentinels) {use : Use}
    (hd : Demands ctx (Evaluator.nestedEval ctx n) budget h expr use operand k) :
    (∀ e l, Evaluator.nestedEval ctx n operand k = .error e l →
      (Evaluator.step ctx (Evaluator.nestedEval ctx n) budget .expr expr h).FailsWith e l) ∧
    ∀ e l kind message, use.Receives (Evaluator.nestedEval ctx n) budget operand k e l →
      l.WellFormed →
      l.HasSentinels → l.object? e = some (.error kind message) →
      use.Treats (Evaluator.nestedEval ctx n) e l
        (Evaluator.step ctx (Evaluator.nestedEval ctx n) budget .expr expr h) := by
  have hnested : ∀ expr, Orderly ctx.host (fun _ => False) False
    (Evaluator.nestedEval ctx n expr) :=
    fun expr => .nestedEval hb n expr
  suffices ha : Accepts (Evaluator.nestedEval ctx n) budget use operand k
      (Evaluator.step ctx (Evaluator.nestedEval ctx n) budget .expr expr h) from
      ⟨ha.failure, ha.value⟩
  cases hd with
  | predicate he ho => exact .predicate hn he ho
  | test he hr hl hc => exact .test hn he hr hl hc
  | conjunct he hr hl hrest => exact .conjunct hn hs he hr hl hrest
  | disjunct he hr hl hrest => exact .disjunct hn hs he hr hl hrest
  | operator he hk => exact .operator hb he hk
  | arguments he ho => exact .arguments hn he ho
  | spliced he ho hsplice => exact .spliced hn hnested he ho hsplice
  | environment he ho hv hroom => exact .environment hn hnested he ho hv hroom

/-- The form `(and #t e #t)` is there, and `e` is bound to an error object. -/
def conjoining : Heap where
  cells := #[.emptyList, .bool true, .bool false, .exhausted,
    .pair ⟨24⟩ ⟨5⟩, .pair .trueObject ⟨6⟩, .pair ⟨13⟩ ⟨7⟩, .pair .trueObject .emptyList,
    .error .user "boom", .pair ⟨13⟩ .emptyList, .pair ⟨8⟩ .emptyList, .free none none,
    .frame none ⟨9⟩ ⟨10⟩, .symbol "e", .symbol "quote", .symbol "quasiquote", .symbol "unquote",
    .symbol "unquote-splicing", .symbol "if", .symbol "begin", .symbol "cond", .symbol "else",
    .symbol "define", .symbol "set!", .symbol "and", .symbol "or", .symbol "let", .symbol "lambda",
    .symbol "apply", .symbol "eval", .symbol "the-environment"]
  capacity := 8
  free := some 11
  freeCount := 1
  collections := 0
  roots := #[⟨4⟩]
  rootSlots := 8
  symbols := ∅
  baseEnv := ⟨12⟩
  currentEnv := ⟨12⟩
  audited := true

/-- Its keywords. -/
def conjoiningContext : Context where
  host := #[]
  keywords := ⟨⟨14⟩, ⟨15⟩, ⟨16⟩, ⟨17⟩, ⟨18⟩, ⟨19⟩, ⟨20⟩, ⟨21⟩, ⟨22⟩, ⟨23⟩, ⟨24⟩, ⟨25⟩, ⟨26⟩, ⟨27⟩,
    ⟨28⟩, ⟨29⟩, ⟨30⟩⟩

lemma wellFormed_conjoining : conjoining.WellFormed where
  toClosed := by decide
  free := ⟨[11], .of_list ⟨rfl, none, rfl, rfl⟩ (by decide) (by decide) rfl⟩
  table := by simp [conjoining]

lemma hasSentinels_conjoining : conjoining.HasSentinels :=
  .of_take rfl

/-- The error object counts as true, and the last operand is what is evaluated instead of the
form. -/
theorem error_objects_are_operands_conjoining :
    HostBalanced conjoiningContext.host ∧ conjoiningContext.keywords.heads.Nodup ∧
    conjoining.HasSentinels ∧
    Demands conjoiningContext (Evaluator.nestedEval conjoiningContext 1) 3 conjoining ⟨4⟩
      (.conjunct 1 ⟨7⟩) ⟨13⟩
      conjoining ∧
    Evaluator.nestedEval conjoiningContext 1 ⟨13⟩ conjoining = .ok ⟨8⟩ conjoining ∧
    conjoining.WellFormed ∧
    conjoining.object? ⟨8⟩ = some (.error .user "boom") ∧
    Evaluator.step conjoiningContext (Evaluator.nestedEval conjoiningContext 1) 3 .expr
      ⟨4⟩ conjoining =
      .ok (.eval .trueObject) conjoining := by
  have hb : HostBalanced conjoiningContext.host :=
    fun p hm => absurd hm (by simp [conjoiningContext])
  have hn : conjoiningContext.keywords.heads.Nodup := by decide
  have hframe : conjoining.IsFrame conjoining.currentEnv := ⟨none, ⟨9⟩, ⟨10⟩, rfl⟩
  have htrue : Evaluator.nestedEval conjoiningContext 1 .trueObject conjoining =
    .ok .trueObject conjoining :=
    (Means.constant rfl (by decide)).nestedEval wellFormed_conjoining hasSentinels_conjoining
      rfl hframe (by decide)
  have hzip : conjoining.Zips ⟨9⟩ ⟨10⟩ [(⟨13⟩, ⟨8⟩)] := .cons rfl rfl (.stop (.inl rfl))
  have herror : Evaluator.nestedEval conjoiningContext 1 ⟨13⟩ conjoining = .ok ⟨8⟩ conjoining :=
    (Means.bound rfl (.root rfl hzip) rfl).nestedEval wellFormed_conjoining
      hasSentinels_conjoining rfl hframe
      (by decide)
  have hd : Demands conjoiningContext (Evaluator.nestedEval conjoiningContext 1) 3 conjoining ⟨4⟩
    (.conjunct 1 ⟨7⟩)
      ⟨13⟩ conjoining :=
    .conjunct rfl (.next rfl ⟨rfl, by decide⟩ htrue rfl (.refl 2 ⟨6⟩ conjoining)) rfl (by decide)
  refine ⟨hb, hn, hasSentinels_conjoining, hd, herror, wellFormed_conjoining, rfl, ?_⟩
  exact (error_objects_are_operands hb hn hasSentinels_conjoining hd).2
    ⟨8⟩ conjoining .user "boom" herror
    wellFormed_conjoining hasSentinels_conjoining rfl

/-! ## Programs with an error object -/

open Interpreter

/-- The value of a datum, or what is wrong with it. -/
def Interpreter.Report.answer : Report → String
  | .value _ text _ => text
  | .failed failure _ | .unreadable failure => failure.message

/-- Set up a machine that has no procedures, and bind `e` to an error object. -/
def installError : HeapM Failure Context := do
  let keywords ← Keywords.intern
  reporting do
    let name ← intern "e"
    let _ ← define (← baseEnv) name (← makeError .user "boom")
  return ⟨keywords, #[]⟩

/-- The answers to the data of a text on such a machine. -/
def answersToError (text : String) : List String :=
  match installError { Heap.ofSizing ⟨40, 16⟩ with audited := false } with
  | .ok ctx h => (reportAll ctx 20 text h).reports.map Report.answer
  | _ => []

/-- Of the forms that need the value of `e`, only `or` fails with this error: it has it for its
value. -/
theorem error_objects_not_passed_on :
    answersToError
      "(if e 1 2) (cond (e 1) (else 2)) (and e 1) (or e 1) (e) (apply + e) `(0 ,@e) (eval 1 e)" =
      ["1", "1", "1", "user-error: boom", "type-error: can't apply an object of type error",
        "type-error: apply expects a list of arguments",
          "type-error: cannot splice an improper list",
        "type-error: eval expects an environment or #f"] := by
  decide +kernel

end ArenaScheme
