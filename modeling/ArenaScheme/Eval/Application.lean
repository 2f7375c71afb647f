/-
# Application

A combination is evaluated from left to right, the operator first, and the values are collected in
one new list, so that a single root slot keeps all of them.  Then the first of them is applied to
the rest.

A foreign procedure is called at once.  Applying a closure makes a frame for its parameters, whose
parent is the frame that the closure was made in, and goes on with its body.
-/
import ArenaScheme.Eval.Step

namespace ArenaScheme

namespace Application

open HeapM

/-! ## Evaluating a combination -/

/-- Evaluate operands one after the other and append their values at the pair `last`. -/
def evalOperands (nested : Nested) : Nat → Handle → Handle → EvalM Unit
  | 0, _, _ => halt .unfinished
  | budget + 1, last, operands => do
    match ← asPair operands with
    | none =>
      if operands = .emptyList then return
      else raise .malformed "operands aren't a proper list"
    | some (expr, rest) =>
      let cell ← cons (← nested expr) .emptyList
      setCdr last cell
      evalOperands nested budget cell rest

/-- The list of the values of the operator and of all operands. -/
def evalCombination (nested : Nested) (budget : Nat) (operator operands : Handle) :
    EvalM Handle := do
  let first ← cons (← nested operator) .emptyList
  rooted first fun head => do
    evalOperands nested budget first operands
    contents head

/-! ## Binding parameters -/

/-- The first so many elements of a list, which must have as many, and what is left of it. -/
def splitArguments : Nat → Handle → EvalM (List Handle × Handle)
  | 0, args => return ([], args)
  | n + 1, args => do
    match ← asPair args with
    | none => halt (.unreachable "argument list shorter than its length")
    | some (arg, rest) =>
      let (firsts, rest) ← splitArguments n rest
      return (arg :: firsts, rest)

/-- New lists of some names and of their values. -/
def pairUp (names values : List Handle) : EvalM (Handle × Handle) := do
  let names ← list names
  rooted names fun _ => do
    let values ← list values
    return (names, values)

/-- The parallel lists of names and of values that a parameter specification and a list of
arguments give rise to.  A proper list of parameters and the arguments are used as they are; a
dotted list or a lone symbol gathers the arguments that are left in a list. -/
def bindParameters (params args : Handle) : EvalM (Handle × Handle) := do
  let given := (← length? args).getD 0
  match ← length? params with
  | some wanted =>
    if wanted = given then return (params, args)
    else
      raise .arity ("expected " ++ toString wanted ++ " argument(s), got " ++ toString given)
  | none =>
    if ← hasType .symbol params then pairUp [params] [args]
    else
      let spine ← walkSpine params
      let required := spine.visited.length
      if given < required then
        raise .arity
          ("expected at least " ++ toString required ++ " argument(s), got " ++ toString given)
      else
        let (firsts, rest) ← splitArguments required args
        pairUp (spine.visited ++ [spine.ending.getD .emptyList]) (firsts ++ [rest])

/-! ## Applying -/

/-- Call the code of a foreign procedure. -/
def callNative (host : Array HostProcedure) (code : Native) (args : Handle) : EvalM Handle :=
  match code with
  | .builtin procedure => procedure.call args
  | .host slot =>
    match host[slot]? with
    | some procedure => procedure args
    | none => halt (.outOfRange host.size slot)

/-- Call a foreign procedure; an error object is a failure whichever way it comes back. -/
def applyForeign (host : Array HostProcedure) (code : Native) (args : Handle) : EvalM Step := do
  let v ← recover (callNative host code args) id
  if ← hasType .error v then fail v else return .done v

/-- Enter a closure: its parameters are bound in a new frame, and its body comes next. -/
def applyClosure (env params body args : Handle) : EvalM Step := do
  let (names, values) ← bindParameters params args
  rooted names fun _ => rooted values fun _ => do
    setCurrentEnv env
    let _ ← pushFrame names values
  return .body body

/-- Apply an object to a list of arguments. -/
def apply (host : Array HostProcedure) (procedure args : Handle) : EvalM Step := do
  match ← datum procedure with
  | .foreign _ code => applyForeign host code args
  | .closure env params body => applyClosure env params body args
  | d => raise .wrongType ("can't apply an object of type " ++ d.type.name)

/-- Evaluate a combination and apply its first value to the others. -/
def ofCombination (host : Array HostProcedure) (nested : Nested) (budget : Nat)
    (operator operands : Handle) : EvalM Step := do
  let call ← evalCombination nested budget operator operands
  rooted call fun _ => do
    let (procedure, args) ← pairParts call
    apply host procedure args

end Application

end ArenaScheme
