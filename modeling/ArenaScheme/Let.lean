/-
# Expanding `let`

A `let` form stands for an application of a `lambda` expression:

* `(let ((n v) ...) body ...)` expands to `((lambda (n ...) body ...) v ...)`;
* `(let name ((n v) ...) body ...)` expands to
  `((lambda () (define name (lambda (n ...) body ...)) (name v ...)))`.

The expansion shares the initial values and the body with the form, so the form has to be reachable
while it is expanded.
-/
import ArenaScheme.Heap.Spine
import ArenaScheme.Keywords

namespace ArenaScheme

namespace Let

open HeapM

/-- The name and the initial value of one binding, which must be a list of these two. -/
def splitBinding (complaint : String) (binding : Handle) : EvalM (Handle × Handle) := do
  match ← items? binding with
  | some [name, initial] =>
    if ← hasType .symbol name then return (name, initial)
    else raise .malformed complaint
  | _ => raise .malformed complaint

/-- New lists of the names and of the initial values of all bindings. -/
def splitBindings (complaint : String) (bindings : Handle) : EvalM (Handle × Handle) := do
  match ← items? bindings with
  | none => raise .malformed complaint
  | some entries =>
    let parts ← entries.mapM (splitBinding complaint)
    let names ← list (parts.map Prod.fst)
    rooted names fun _ => do
      let initials ← list (parts.map Prod.snd)
      return (names, initials)

/-- Expand `(let bindings body ...)`. -/
def expandPlain (kw : Keywords) (bindings body : Handle) : EvalM Handle := do
  if !(← hasType .pair body) then raise .malformed "let has no body"
  else
    let (names, initials) ← splitBindings "malformed let bindings" bindings
    rooted names fun _ => rooted initials fun _ => do
      let rest ← cons names body
      let lambda ← cons kw.lambda rest
      cons lambda initials

/-- Expand `(let name bindings body ...)`, given what follows the name. -/
def expandNamed (kw : Keywords) (name rest : Handle) : EvalM Handle := do
  match ← asPair rest with
  | none => raise .malformed "malformed named let"
  | some (bindings, body) =>
    if !(← hasType .pair body) then raise .malformed "named let has no body"
    else
      let (names, initials) ← splitBindings "malformed named let bindings" bindings
      rooted names fun _ => rooted initials fun _ => do
        let call ← cons name initials
        rooted call fun _ => do
          let inner ← cons kw.lambda (← cons names body)
          let definition ← list [kw.definition, name, inner]
          let outer ← list [kw.lambda, .emptyList, definition, call]
          list [outer]

/-- Expand a `let` form, given its operands. -/
def expand (kw : Keywords) (operands : Handle) : EvalM Handle := do
  match ← asPair operands with
  | none => raise .malformed "malformed let"
  | some (first, rest) =>
    if ← hasType .symbol first then expandNamed kw first rest
    else expandPlain kw first rest

end Let

end ArenaScheme
