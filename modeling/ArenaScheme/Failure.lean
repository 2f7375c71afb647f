/-
# Failures reported to the host

An error object lives in the arena.  What leaves the arena is a failure: a description of it that
stays valid when the object is gone.  A text that cannot be read is a failure too, although there
is no error object for it.
-/
import ArenaScheme.Text.Token
import ArenaScheme.Heap.Objects

namespace ArenaScheme

/-- Why there is no value. -/
inductive Failure
  /-- The source text is not the text of a datum. -/
  | unreadable (fault : ReadFault)
  /-- The evaluation gave an error object of that kind and with that message. -/
  | raised (kind : ErrorKind) (message : String)
  /-- There was no cell left. -/
  | outOfMemory
deriving DecidableEq, Repr

namespace Failure

/-- The name of the kind of failure. -/
def kindName : Failure → String
  | unreadable _ => "read-error"
  | raised kind _ => kind.name
  | outOfMemory => ErrorKind.outOfMemory.name

/-- The wording of a failure. -/
def message : Failure → String
  | unreadable fault => "read error: " ++ fault.message
  | raised kind text => kind.name ++ ": " ++ text
  | outOfMemory => "out of memory"

/-- The failure that an error object describes. -/
def ofError (kind : ErrorKind) (text : String) : Failure :=
  if kind = .outOfMemory then outOfMemory else raised kind text

end Failure

namespace HeapM

variable {ε α : Type}

/-- Copy an error object out of the arena. -/
def failureOf (v : Handle) : HeapM ε Failure := do
  let (kind, text) ← errorParts v
  return .ofError kind text

/-- Report the error object that an action fails with. -/
def reporting (x : EvalM α) : HeapM Failure α := fun h =>
  match x h with
  | .ok a h => .ok a h
  | .error e h => (do fail (← failureOf e)) h
  | .halt c => .halt c

end HeapM

end ArenaScheme
