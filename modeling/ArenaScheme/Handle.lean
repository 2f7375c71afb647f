/-
# Handles

A handle names one cell of the arena by its position.  Handles are compared as positions, and
that comparison is all there is to the identity of objects: two occurrences of a symbol are the
same object because both are the one handle of the symbol's cell.

The first four cells of every arena are sentinels: the empty list, the two truth values, and the
error object that is handed out when the arena is exhausted.  Each has one handle for the life of
the arena, so they are recognised without looking into the arena at all.
-/

namespace ArenaScheme

/-- The position of a cell in the arena. -/
structure Handle where
  index : Nat
deriving DecidableEq, Repr, Inhabited

namespace Handle

/-- The empty list. -/
def emptyList : Handle := ⟨0⟩

/-- The canonical true object. -/
def trueObject : Handle := ⟨1⟩

/-- The canonical false object. -/
def falseObject : Handle := ⟨2⟩

/-- The error object shared by all failures for want of memory. -/
def outOfMemory : Handle := ⟨3⟩

/-- Sentinels come first in every arena; this is how many there are. -/
def sentinelCount : Nat := 4

/-- The canonical object for a truth value. -/
def ofBool (b : Bool) : Handle := if b then trueObject else falseObject

/-- Every object but the canonical false counts as true, zero and the empty list included. -/
def isTruthy (v : Handle) : Bool := v != falseObject

/-- How a handle is named in a diagnostic: a sentinel by what it is, any other by its position. -/
def describe (v : Handle) : String :=
  if v = emptyList then "Value(())"
  else if v = trueObject then "Value(#t)"
  else if v = falseObject then "Value(#f)"
  else if v = outOfMemory then "Value(oom)"
  else "Value(" ++ toString v.index ++ ")"

@[simp] theorem isTruthy_eq_false_iff {v : Handle} : v.isTruthy = false ↔ v = falseObject := by
  simp [isTruthy]

@[simp] theorem isTruthy_ofBool (b : Bool) : (ofBool b).isTruthy = b := by
  cases b <;> rfl

end Handle

end ArenaScheme
