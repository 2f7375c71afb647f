/-
# Fatal halts

Most failures are error objects that a program can meet and pass on.  A halt is not: it ends the
machine, because the host broke a rule of the arena or because the bounded stack of roots is full.
The last two causes stand for computations without an answer: a search of a frame that never ends,
and an evaluation that uses up the budget of steps that it is given.
-/
import ArenaScheme.Datum

namespace ArenaScheme

/-- Why the machine stopped for good. -/
inductive Halt
  /-- One root too many for a stack of that many slots. -/
  | rootOverflow (slots : Nat)
  /-- A root was released that was not the latest one. -/
  | rootOrder (slot depth : Nat)
  /-- The base frame has no parent to return to. -/
  | baseFrame
  /-- Names were to be looked up in an object that is no frame. -/
  | currentNotFrame
  /-- The arena was to be emptied while roots were held. -/
  | liveRoots (depth : Nat)
  /-- An accessor met an object of another type than it serves. -/
  | mismatch (wanted : DatumType) (object : Handle) (found : DatumType)
  /-- A cell on the free list is in use. -/
  | corruptFreeList (cell : Nat) (found : DatumType)
  /-- A collection found that a free cell can be reached. -/
  | danglingReference (object : Handle)
  /-- A free cell was to be printed. -/
  | printingFree (object : Handle)
  /-- A position beyond the end of a table. -/
  | outOfRange (size index : Nat)
  /-- A branch was taken that cannot be taken, for the reason given. -/
  | unreachable (reason : String)
  /-- A search of frames has met no end in as many positions as there are cells, so there is
  none. -/
  | endlessSearch
  /-- The budget of steps is used up. -/
  | unfinished
deriving DecidableEq, Repr

/-- The wording of a halt. -/
def Halt.message : Halt → String
  | rootOverflow slots => "root stack overflow (" ++ toString slots ++ " slots)"
  | rootOrder slot depth =>
      "root released out of order: slot " ++ toString slot ++ " released with depth " ++
        toString depth
  | baseFrame => "cannot pop the base frame"
  | currentNotFrame => "current environment must be a frame"
  | liveRoots depth => "heap reset with " ++ toString depth ++ " live root slots"
  | mismatch wanted object found =>
      "expected " ++ wanted.name ++ " but " ++ object.describe ++ " is a " ++ found.name
  | corruptFreeList cell found =>
      "freelist corrupted: cell " ++ toString cell ++ " holds a " ++ found.name
  | danglingReference object => "live reference to free cell " ++ object.describe
  | printingFree object => "printing reclaimed cell " ++ object.describe
  | outOfRange size index =>
      "index out of bounds: the len is " ++ toString size ++ " but the index is " ++
        toString index
  | unreachable reason => "internal error: entered unreachable code: " ++ reason
  | endlessSearch => "the search for a binding never ends"
  | unfinished => "evaluation budget exhausted"

end ArenaScheme
