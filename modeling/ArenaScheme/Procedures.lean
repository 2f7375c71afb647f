/-
# The built-in procedures

A built-in procedure receives its evaluated arguments as one proper list and returns an object or
fails.  All of them check their arguments in one order: first how many there are; then whether one
of them is an error object, and the first that is becomes the failure of the call, untouched; and
only then their types.  The exception is the test for error objects, which has to look at one.
-/
import ArenaScheme.Heap.Spine
import ArenaScheme.Number.Arithmetic

namespace ArenaScheme

namespace Builtin

open HeapM

/-! ## Checking arguments -/

/-- The elements of an argument list. -/
def arguments (args : Handle) : EvalM (List Handle) := return (← items? args).getD []

/-- Fail because there are too few or too many arguments. -/
def wrongCount {α : Type} (b : Builtin) (wanted given : Nat) : EvalM α :=
  raise .arity (b.name ++ " expects " ++ toString wanted ++ " argument(s), got " ++ toString given)

/-- Fail because an argument has the wrong type. -/
def wrongArgument {α : Type} (b : Builtin) (wanted : String) (v : Handle) : EvalM α := do
  raise .wrongType (b.name ++ " expects " ++ wanted ++ ", got " ++ (← typeOf v).name)

/-- Fail with the first error object among the arguments, if there is one. -/
def passErrors (vs : List Handle) : EvalM Unit :=
  vs.forM fun v => do
    if ← hasType .error v then fail v

/-- The one argument, which may be an error object. -/
def anyArgument (b : Builtin) (args : Handle) : EvalM Handle := do
  match ← arguments args with
  | [x] => return x
  | vs => b.wrongCount 1 vs.length

/-- The one argument. -/
def oneArgument (b : Builtin) (args : Handle) : EvalM Handle := do
  let x ← b.anyArgument args
  passErrors [x]
  return x

/-- The two arguments. -/
def twoArguments (b : Builtin) (args : Handle) : EvalM (Handle × Handle) := do
  match ← arguments args with
  | [x, y] =>
    passErrors [x, y]
    return (x, y)
  | vs => b.wrongCount 2 vs.length

/-- No argument at all. -/
def noArgument (b : Builtin) (args : Handle) : EvalM Unit := do
  match ← arguments args with
  | [] => return
  | vs => b.wrongCount 0 vs.length

/-- Any number of arguments from a least number on. -/
def manyArguments (b : Builtin) (least : Nat) (args : Handle) : EvalM (List Handle) := do
  let vs ← arguments args
  if vs.length < least then
    raise .arity (b.name ++ " expects at least " ++ toString least ++ " argument(s), got " ++
      toString vs.length)
  else
    passErrors vs
    return vs

/-! ## Numbers -/

/-- The value of an argument that must be a number. -/
def numberArgument (b : Builtin) (v : Handle) : EvalM Num := do
  match ← datum v with
  | .int n => return .int n
  | .real x => return .real x
  | _ => b.wrongArgument "numbers" v

/-- The values of arguments that must all be numbers. -/
def numbers (b : Builtin) (least : Nat) (args : Handle) : EvalM (List Num) := do
  (← b.manyArguments least args).mapM b.numberArgument

/-- The object of a number, or the error object of a fault. -/
def makeNumber (b : Builtin) : Except ArithmeticFault Num → EvalM Handle
  | .ok (.int n) => makeInt n
  | .ok (.real x) => makeReal x
  | .error .overflow => raise .wrongType ("integer overflow in " ++ b.name)
  | .error .divisionByZero => raise .wrongType "division by zero"

/-- What a rule makes of the first of at least one number and of the others. -/
def calculate (b : Builtin) (rule : Num → List Num → Except ArithmeticFault Num) (args : Handle) :
    EvalM Handle := do
  match ← b.numbers 1 args with
  | n :: ns => b.makeNumber (rule n ns)
  | [] => halt (.unreachable "numbers() enforces at least one operand")

/-! ## Tests -/

/-- Whether an object has a property. -/
def holdsOf (property : Property) (v : Handle) : EvalM Bool :=
  match property with
  | .null => pure (v == .emptyList)
  | .pair => hasType .pair v
  | .symbol => hasType .symbol v
  | .number => isNumber v
  | .integer => hasType .integer v
  | .real => hasType .real v
  | .string => hasType .string v
  | .char => hasType .character v
  | .boolean => hasType .boolean v
  | .procedure => isProcedure v

/-! ## Calls -/

/-- Call a built-in procedure with a list of arguments. -/
def call (b : Builtin) (args : Handle) : EvalM Handle :=
  match b with
  | add => do b.makeNumber (Num.sum (← b.numbers 0 args))
  | multiply => do b.makeNumber (Num.product (← b.numbers 0 args))
  | subtract => b.calculate Num.difference args
  | divide => b.calculate Num.quotient args
  | compare relation => do return .ofBool (relation.holds (← b.numbers 1 args))
  | car => do
    let x ← b.oneArgument args
    match ← asPair x with
    | some (head, _) => return head
    | none => b.wrongArgument "a pair" x
  | cdr => do
    let x ← b.oneArgument args
    match ← asPair x with
    | some (_, rest) => return rest
    | none => b.wrongArgument "a pair" x
  | cons => do
    let (head, rest) ← b.twoArguments args
    HeapM.cons head rest
  | list => do
    let _ ← b.manyArguments 0 args
    append args .emptyList
  | length => do
    let x ← b.oneArgument args
    match ← length? x with
    | some n => makeInt (Int64.ofNat n)
    | none => b.wrongArgument "a proper list" x
  | setCar => do
    let (pair, v) ← b.twoArguments args
    if ← hasType .pair pair then
      HeapM.setCar pair v
      return .emptyList
    else b.wrongArgument "a pair" pair
  | setCdr => do
    let (pair, v) ← b.twoArguments args
    if ← hasType .pair pair then
      HeapM.setCdr pair v
      return .emptyList
    else b.wrongArgument "a pair" pair
  | test property => do return .ofBool (← holdsOf property (← b.oneArgument args))
  | isError => do return .ofBool (← hasType .error (← b.anyArgument args))
  | same => do
    let (x, y) ← b.twoArguments args
    return .ofBool (x == y)
  | negate => do return .ofBool !(← b.oneArgument args).isTruthy
  | raiseError => do
    let x ← b.oneArgument args
    match ← datum x with
    | .str message => raise .user message
    | _ => b.wrongArgument "a string" x
  | collectGarbage => do
    b.noArgument args
    makeInt (Int64.ofNat (← collect).freed)

end Builtin

end ArenaScheme
