/-
# The evaluator

The evaluator takes one step after the other until a step gives a value.  The expression that is
being worked on is held in one root slot, and every step that does not give a value replaces it
there.  So however many steps an evaluation takes, at the start of each of them the root stack is
one slot deeper than it was at first.

Expressions whose values a step needs are evaluated by the same loop started anew, with the frame
to return to held in a further slot.

Programs need not come to an end, so the evaluator is given a budget.  It bounds how many steps
follow and enclose each other, and an evaluation that exceeds it halts as unfinished.
-/
import ArenaScheme.Eval.Forms

namespace ArenaScheme

namespace Step

open HeapM

/-- A step on a pair, which is a special form if its head is a keyword and a combination
otherwise. -/
def ofPair (ctx : Context) (nested : Nested) (budget : Nat) (head operands : Handle) :
    EvalM Step :=
  let kw := ctx.keywords
  if head = kw.quote then Form.quote operands
  else if head = kw.quasiquote then Form.quasiquote kw nested budget operands
  else if head = kw.conditional then Form.conditional nested operands
  else if head = kw.sequence then pure (.body operands)
  else if head = kw.clauses then Form.clauses kw nested budget operands
  else if head = kw.definition then Form.definition nested operands
  else if head = kw.assignment then Form.assignment nested operands
  else if head = kw.conjunction then Form.conjunction nested budget operands
  else if head = kw.disjunction then Form.disjunction nested budget operands
  else if head = kw.binding then do return .eval (← Let.expand kw operands)
  else if head = kw.lambda then Form.lambda operands
  else if head = kw.apply then Form.apply kw nested operands
  else if head = kw.eval then Form.eval nested operands
  else if head = kw.theEnvironment then Form.theEnvironment operands
  else Application.ofCombination ctx.host nested budget head operands

/-- A step on an expression.  Symbols are variables, closures and environments cannot be evaluated,
and all other atoms are their own values. -/
def ofExpr (ctx : Context) (nested : Nested) (budget : Nat) (expr : Handle) : EvalM Step := do
  match ← datum expr with
  | .pair head operands => ofPair ctx nested budget head operands
  | .symbol _ => return .done (← lookup (← currentEnv) expr)
  | .closure .. => raise .wrongType "can't evaluate a closure"
  | .frame .. => raise .wrongType "can't evaluate an environment"
  | _ => return .done expr

end Step

/-- What is in the root slot of an evaluation. -/
inductive Focus
  | expr
  | body
deriving DecidableEq, Repr

/-- The result of a turn: the value, or what has been put into the root slot. -/
inductive Turn
  | done (v : Handle)
  | again (focus : Focus)
deriving DecidableEq, Repr

namespace Evaluator

open HeapM

/-- A step on what is in the root slot. -/
def step (ctx : Context) (nested : Nested) (budget : Nat) : Focus → Handle → EvalM Step
  | .expr, v => Step.ofExpr ctx nested budget v
  | .body, v => Step.ofBody nested budget v

/-- Take one step and put what is to be evaluated next into the root slot. -/
@[inline]
def turn (ctx : Context) (nested : Nested) (budget : Nat) (slot : Root) (focus : Focus) :
    EvalM Turn := do
  match ← step ctx nested budget focus (← contents slot) with
  | .done v => return .done v
  | .eval expr =>
    store slot expr
    return .again .expr
  | .body seq =>
    store slot seq
    return .again .body

/-- Evaluate an expression by taking turns with it in a root slot of its own. -/
@[inline]
def runWith (loop : Root → Focus → EvalM Handle) (expr : Handle) : EvalM Handle :=
  rooted expr fun slot => loop slot .expr

/-- Take turns until there is a value. -/
def loop (ctx : Context) : Nat → Root → Focus → EvalM Handle
  | 0, _, _ => halt .unfinished
  | budget + 1, slot, focus => do
    let nested : Nested := fun expr => keepingEnv (runWith (loop ctx budget) expr)
    match ← turn ctx nested budget slot focus with
    | .done v => return v
    | .again focus => loop ctx budget slot focus

/-- Evaluate an expression where names are looked up now; the evaluation may leave another frame to
look names up in. -/
def run (ctx : Context) (budget : Nat) (expr : Handle) : EvalM Handle :=
  runWith (loop ctx budget) expr

/-- Evaluate an expression in an environment.  The result is an object in any case, an error object
if the evaluation failed. -/
def evaluate {ε : Type} (ctx : Context) (budget : Nat) (expr env : Handle) : HeapM ε Handle :=
  recover (keepingEnv do
    setCurrentEnv env
    run ctx budget expr) id

/-- Evaluate an expression in the current environment. -/
def eval {ε : Type} (ctx : Context) (budget : Nat) (expr : Handle) : HeapM ε Handle := do
  evaluate ctx budget expr (← currentEnv)

end Evaluator

end ArenaScheme
