/-
# Special forms

A special form is an expression whose head is a keyword.  Each decides for itself which of its
operands are evaluated, and when.
-/
import ArenaScheme.Eval.Quasiquote
import ArenaScheme.Eval.Application
import ArenaScheme.Let

namespace ArenaScheme

namespace Form

open HeapM

/-! ## Quotation -/

/-- `(quote datum)` -/
def quote (operands : Handle) : EvalM Step := do
  match ← items? operands with
  | some [datum] => return .done datum
  | _ => wrongOperands "quote" 1

/-- `(quasiquote template)` -/
def quasiquote (kw : Keywords) (nested : Nested) (budget : Nat) (operands : Handle) :
    EvalM Step := do
  match ← items? operands with
  | some [template] => return .done (← Template.copy kw nested budget template 0)
  | _ => wrongOperands "quasiquote" 1

/-! ## Choices -/

/-- `(if predicate consequent alternative)` -/
def conditional (nested : Nested) (operands : Handle) : EvalM Step := do
  match ← items? operands with
  | some [predicate, consequent, alternative] =>
    if (← nested predicate).isTruthy then return .eval consequent
    else return .eval alternative
  | _ => wrongOperands "if" 3

/-- `(cond (test body ...) ...)`, where `else` as a test always holds.  Without a test that holds
the value is the empty list. -/
def clauses (kw : Keywords) (nested : Nested) : Nat → Handle → EvalM Step
  | 0, _ => halt .unfinished
  | budget + 1, operands => do
    match ← asPair operands with
    | none =>
      if operands = .emptyList then return .done .emptyList
      else raise .malformed "cond clauses aren't a proper list"
    | some (clause, rest) =>
      match ← asPair clause with
      | none => raise .malformed "malformed cond clause"
      | some (test, body) =>
        if !(← hasType .pair body) then raise .malformed "malformed cond clause"
        else if test = kw.otherwise then return .body body
        else if (← nested test).isTruthy then return .body body
        else clauses kw nested budget rest

/-- The operands of `and`, of which there is at least one. -/
def conjuncts (nested : Nested) : Nat → Handle → EvalM Step
  | 0, _ => halt .unfinished
  | budget + 1, operands => do
    match ← asPair operands with
    | none => raise .malformed "operands to and aren't a proper list"
    | some (expr, rest) =>
      if rest = .emptyList then return .eval expr
      else if (← nested expr).isTruthy then conjuncts nested budget rest
      else return .done .falseObject

/-- `(and expr ...)` -/
def conjunction (nested : Nested) (budget : Nat) (operands : Handle) : EvalM Step :=
  if operands = .emptyList then pure (.done .trueObject) else conjuncts nested budget operands

/-- The operands of `or`, of which there is at least one. -/
def disjuncts (nested : Nested) : Nat → Handle → EvalM Step
  | 0, _ => halt .unfinished
  | budget + 1, operands => do
    match ← asPair operands with
    | none => raise .malformed "operands to or aren't a proper list"
    | some (expr, rest) =>
      if rest = .emptyList then return .eval expr
      else
        let v ← nested expr
        if v.isTruthy then return .done v else disjuncts nested budget rest

/-- `(or expr ...)` -/
def disjunction (nested : Nested) (budget : Nat) (operands : Handle) : EvalM Step :=
  if operands = .emptyList then pure (.done .falseObject) else disjuncts nested budget operands

/-! ## Procedures and variables -/

/-- Close over the current frame.  The parameters have to be symbols: a proper list of them, a
dotted list, or a single one; and there has to be a body. -/
def closeOver (params body : Handle) : EvalM Handle := do
  let spine ← walkSpine params
  if !(← spine.visited.allM (hasType .symbol)) then
    raise .malformed "lambda parameter is not a symbol"
  else
    match spine.ending with
    | none => raise .malformed "malformed lambda parameter list"
    | some ending =>
      if ending ≠ .emptyList && !(← hasType .symbol ending) then
        raise .malformed "malformed lambda parameter list"
      else if !(← hasType .pair body) then raise .malformed "lambda body is empty"
      else makeClosure (← currentEnv) params body

/-- `(lambda params body ...)` -/
def lambda (operands : Handle) : EvalM Step := do
  match ← asPair operands with
  | none => raise .malformed "missing parameter list to lambda"
  | some (params, body) => return .done (← closeOver params body)

/-- Bind a symbol in the current frame. -/
def bindHere (name v : Handle) : EvalM Step := do
  return .done (← define (← currentEnv) name v)

/-- `(define (name . params) body ...)` -/
def procedureDefinition (name params body : Handle) : EvalM Step := do
  if ← hasType .symbol name then bindHere name (← closeOver params body)
  else raise .malformed "name for defined function is not a symbol"

/-- `(define name expr)` -/
def variableDefinition (nested : Nested) (name operands : Handle) : EvalM Step := do
  if ← hasType .symbol name then
    match ← items? operands with
    | some [expr] => bindHere name (← nested expr)
    | _ => wrongOperands "define" 1
  else raise .malformed "malformed define"

/-- Either kind of definition. -/
def definition (nested : Nested) (operands : Handle) : EvalM Step := do
  match ← asPair operands with
  | none => raise .malformed "malformed define"
  | some (target, rest) =>
    match ← asPair target with
    | some (name, params) => procedureDefinition name params rest
    | none => variableDefinition nested target rest

/-- `(set! name expr)` -/
def assignment (nested : Nested) (operands : Handle) : EvalM Step := do
  match ← items? operands with
  | some [name, expr] =>
    if ← hasType .symbol name then
      let v ← nested expr
      return .done (← assign (← currentEnv) name v)
    else raise .malformed "set! target is not a symbol"
  | _ => wrongOperands "set!" 2

/-! ## Application and evaluation -/

/-- `(apply procedure arguments)` becomes a combination in which each argument is quoted. -/
def apply (kw : Keywords) (nested : Nested) (operands : Handle) : EvalM Step := do
  match ← items? operands with
  | some [procedure, expr] =>
    let args ← nested expr
    match ← items? args with
    | none => raise .wrongType "apply expects a list of arguments"
    | some vs =>
      rooted args fun _ => rooted .emptyList fun quoted => do
        vs.reverse.forM fun v => do
          let item ← list [kw.quote, v]
          store quoted (← cons item (← contents quoted))
        return .eval (← cons procedure (← contents quoted))
  | _ => wrongOperands "apply" 2

/-- `(eval expr env)`, where false stands for the current environment. -/
def eval (nested : Nested) (operands : Handle) : EvalM Step := do
  match ← items? operands with
  | some [expr, place] =>
    let target ← nested expr
    rooted target fun _ => do
      let env ← nested place
      if ← hasType .environment env then
        setCurrentEnv env
        return .eval target
      else if env.isTruthy then raise .wrongType "eval expects an environment or #f"
      else return .eval target
  | _ => wrongOperands "eval" 2

/-- `(the-environment)` -/
def theEnvironment (operands : Handle) : EvalM Step := do
  match ← items? operands with
  | some [] => return .done (← currentEnv)
  | _ => wrongOperands "the-environment" 0

end Form

end ArenaScheme
