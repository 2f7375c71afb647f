/-
# Steps of evaluation

Evaluating an expression is a sequence of steps.  A step either gives the value, or says what is to
be evaluated in its place: an expression, or the body of a procedure.  What stands in its place is
evaluated without anything of the step being left behind, so tail calls take no room.

A step may need the values of other expressions first, such as the operands of a call.  How those
are evaluated is a parameter of every step, `nested`.
-/
import ArenaScheme.Environment
import ArenaScheme.Keywords
import ArenaScheme.Procedures

namespace ArenaScheme

/-- A procedure of the host: it receives the list of arguments, and an error object that it returns
counts as a failure. -/
abbrev HostProcedure := Handle → EvalM Handle

/-- What evaluation depends on beside the heap. -/
structure Context where
  keywords : Keywords
  /-- The table of procedures that the host supplies. -/
  host : Array HostProcedure

/-- How to evaluate an expression whose value a step needs before it can go on. -/
abbrev Nested := Handle → EvalM Handle

/-- The result of a step. -/
inductive Step
  /-- The value. -/
  | done (v : Handle)
  /-- An expression to be evaluated instead. -/
  | eval (expr : Handle)
  /-- A body to be evaluated instead: a list of expressions of which the last gives the value. -/
  | body (seq : Handle)
deriving DecidableEq, Repr

namespace HeapM

/-- Fail because a special form has the wrong number of operands. -/
def wrongOperands {α : Type} (form : String) (wanted : Nat) : EvalM α :=
  raise .malformed
    (form ++ " expects " ++ toString wanted ++ " operand" ++ (if wanted = 1 then "" else "s"))

/-- Run an action and then look names up where they were looked up before. -/
@[inline]
def keepingEnv {α : Type} (x : EvalM α) : EvalM α := do
  let saved ← currentEnv
  rooted saved fun _ => ensuring x (setCurrentEnv saved)

end HeapM

namespace Step

open HeapM

/-- Evaluate all but the last expression of a body, and go on with the last. -/
def ofBody (nested : Nested) : Nat → Handle → EvalM Step
  | 0, _ => halt .unfinished
  | budget + 1, seq => do
    match ← asPair seq with
    | none => raise .malformed "sequence of expressions isn't a proper list"
    | some (expr, rest) =>
      if rest = .emptyList then return .eval expr
      else
        let _ ← nested expr
        ofBody nested budget rest

end Step

end ArenaScheme
