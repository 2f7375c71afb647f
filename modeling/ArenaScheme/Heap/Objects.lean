/-
# Making objects, looking at them and changing them

Allocation takes the first cell of the free list.  When the list is empty, one collection runs
first, and it also keeps what the new object refers to, so that the operands of a constructor need
no root of their own.  If there is still no free cell, allocation fails with the sentinel for
exhausted memory.

The accessors demand an object of the right type.  Their callers have checked it, so anything else
is a fault of the host, and a halt.
-/
import ArenaScheme.Heap.Roots

namespace ArenaScheme

namespace Heap

/-- A heap that has a free cell if a collection that keeps `extra` can find one. -/
def prepare (h : Heap) (extra : List Handle) : Except Halt Heap :=
  if h.free.isNone then (h.collectKeeping extra).map (·.2) else .ok h

end Heap

namespace HeapM

variable {ε α : Type}

/-! ## Allocation -/

/-- Put an object into a free cell. -/
def alloc (d : Datum) : EvalM Handle := fun h =>
  match h.prepare d.children with
  | .error c => .halt c
  | .ok h => match h.free with
    | none => .error .outOfMemory h
    | some i => match h.claim i d with
      | .ok h => .ok ⟨i⟩ h
      | .error c => .halt c

/-- Put an object into a new permanent cell. -/
def allocPermanent (d : Datum) : HeapM ε Handle := changeWith (Heap.addPermanent d)

/-- A new pair. -/
def cons (car cdr : Handle) : EvalM Handle := alloc (.pair car cdr)

/-- A new integer. -/
def makeInt (n : Int64) : EvalM Handle := alloc (.int n)

/-- A new real. -/
def makeReal (x : Flonum) : EvalM Handle := alloc (.real x)

/-- A new character. -/
def makeChar (byte : UInt8) : EvalM Handle := alloc (.char byte)

/-- A new string. -/
def makeString (s : String) : EvalM Handle := alloc (.str s)

/-- A new closure. -/
def makeClosure (env params body : Handle) : EvalM Handle := alloc (.closure env params body)

/-- A new frame. -/
def makeFrame (parent : Option Handle) (names values : Handle) : EvalM Handle :=
  alloc (.frame parent names values)

/-- A foreign procedure lives for ever. -/
def makeForeign (name : String) (code : Native) : HeapM ε Handle :=
  allocPermanent (.foreign name code)

/-- An error object.  All failures for want of memory share one object, and it also stands in for
an error object that there is no memory for. -/
def makeError (kind : ErrorKind) (message : String) : HeapM ε Handle :=
  if kind = .outOfMemory then pure .outOfMemory
  else recover (alloc (.error kind message)) id

/-- Fail with a new error object. -/
def raise (kind : ErrorKind) (message : String) : EvalM α := do
  fail (← makeError kind message)

/-! ## Inspection -/

/-- The contents of a cell. -/
@[inline]
def datum (v : Handle) : HeapM ε Datum := inspect (·.read v)

/-- The type of an object. -/
def typeOf (v : Handle) : HeapM ε DatumType := return (← datum v).type

/-- Whether an object has the given type. -/
def hasType (t : DatumType) (v : Handle) : HeapM ε Bool := return (← typeOf v) == t

/-- Whether an object is a number of either type. -/
def isNumber (v : Handle) : HeapM ε Bool := do
  let t ← typeOf v
  return t == .integer || t == .real

/-- Whether an object can be applied. -/
def isProcedure (v : Handle) : HeapM ε Bool := do
  let t ← typeOf v
  return t == .closure || t == .foreign

/-- Head and tail, if the object is a pair. -/
def asPair (v : Handle) : HeapM ε (Option (Handle × Handle)) := return (← datum v).pair?

/-- The part of an object that must be of the type `wanted`. -/
@[inline]
def expect (wanted : DatumType) (part : Datum → Option α) (v : Handle) : HeapM ε α := do
  let d ← datum v
  match part d with
  | some a => pure a
  | none => halt (.mismatch wanted v d.type)

/-- Head and tail of a pair. -/
def pairParts (v : Handle) : HeapM ε (Handle × Handle) := expect .pair Datum.pair? v

/-- The head of a pair. -/
def car (v : Handle) : HeapM ε Handle := return (← pairParts v).1

/-- The tail of a pair. -/
def cdr (v : Handle) : HeapM ε Handle := return (← pairParts v).2

/-- The value of an integer. -/
def intValue (v : Handle) : HeapM ε Int64 := expect .integer Datum.int? v

/-- The value of a real. -/
def realValue (v : Handle) : HeapM ε Flonum := expect .real Datum.real? v

/-- The byte of a character. -/
def charValue (v : Handle) : HeapM ε UInt8 := expect .character Datum.char? v

/-- The value of a boolean. -/
def boolValue (v : Handle) : HeapM ε Bool := expect .boolean Datum.bool? v

/-- The contents of a string. -/
def stringValue (v : Handle) : HeapM ε String := expect .string Datum.str? v

/-- The name of a symbol. -/
def symbolName (v : Handle) : HeapM ε String := expect .symbol Datum.symbol? v

/-- The kind and the message of an error object. -/
def errorParts (v : Handle) : HeapM ε (ErrorKind × String) := expect .error Datum.error? v

/-- The name and the code of a foreign procedure. -/
def foreignParts (v : Handle) : HeapM ε (String × Native) := expect .foreign Datum.foreign? v

/-- The frame, the parameters and the body of a closure. -/
def closureParts (v : Handle) : HeapM ε (Handle × Handle × Handle) :=
  expect .closure Datum.closure? v

/-- The parent, the names and the values of a frame. -/
def frameParts (v : Handle) : HeapM ε (Option Handle × Handle × Handle) :=
  expect .environment Datum.frame? v

/-! ## Mutation -/

/-- Replace the contents of a cell that is known to exist. -/
def overwrite (v : Handle) (d : Datum) : HeapM ε Unit := change (·.setCell v.index d)

/-- Replace the head of a pair. -/
def setCar (pair v : Handle) : HeapM ε Unit := do
  let (_, cdr) ← pairParts pair
  overwrite pair (.pair v cdr)

/-- Replace the tail of a pair. -/
def setCdr (pair v : Handle) : HeapM ε Unit := do
  let (car, _) ← pairParts pair
  overwrite pair (.pair car v)

/-- Replace both lists of a frame. -/
def setBindings (frame names values : Handle) : HeapM ε Unit := do
  let (parent, _, _) ← frameParts frame
  overwrite frame (.frame parent names values)

/-! ## The whole heap -/

/-- Run a collection. -/
def collect : HeapM ε Collection := attempt Heap.collect

/-- Give up every object, symbol and binding and start over with an arena of the same sizes.  No
root may be held.  A last collection runs first, so that an audit misses nothing. -/
def reset : HeapM ε Unit := do
  let depth ← observe (·.roots.size)
  if depth = 0 then
    let _ ← collect
    change Heap.renewed
  else halt (.liveRoots depth)

end HeapM

end ArenaScheme
