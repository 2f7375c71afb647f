/-
# Reading data

The reader turns tokens into objects.  It works through the tokens one by one and keeps a stack of
what is unfinished: lists of which some elements are there, and marks whose datum is still to
come.  A token either opens something, and then the stack grows; or it completes a datum, and then
the datum goes to whatever is on top of the stack, which may be completed in turn.  When a datum is
completed on the empty stack, it is the result.

Objects are made in the order of the tokens.  A list under construction is held in a root slot of
its own and extended at its end, so a collection in the middle of a long text keeps it; when the
reading fails, the slots of all unfinished lists are released.
-/
import ArenaScheme.Failure
import ArenaScheme.Text.Lexer
import ArenaScheme.Heap.Spine
import ArenaScheme.Heap.Symbols

namespace ArenaScheme

/-- A failed reading, with the position at which it stopped. -/
structure ReadFailure where
  failure : Failure
  position : Nat
deriving DecidableEq, Repr

/-- A datum that has been read. -/
structure Reading where
  datum : Handle
  /-- The position after the datum. -/
  stop : Nat
  /-- What follows it. -/
  rest : Scan

namespace Reader

open HeapM

/-- Something unfinished that waits for a datum. -/
inductive Pending
  /-- A list, with its last pair if it has elements. -/
  | items (list : Root) (last : Option Handle)
  /-- A list with a dot after its last pair. -/
  | tail (list : Root) (last : Handle)
  /-- A mark, as the symbol it stands for. -/
  | mark (symbol : Handle)
deriving DecidableEq, Repr

/-- What has to come next. -/
inductive Goal
  /-- A datum, or the end of a list. -/
  | datum
  /-- The end of a list that has its tail. -/
  | closing (list : Root)
deriving DecidableEq, Repr

/-- What a datum leads to: it is the result, or there is more to read. -/
inductive Progress
  | done (datum : Handle)
  | more (goal : Goal) (pending : List Pending)

/-! ## Giving up -/

/-- Release the slots of unfinished lists. -/
def abandon {ε : Type} : List Pending → HeapM ε Unit
  | [] => pure ()
  | .items list _ :: pending | .tail list _ :: pending => do
    let _ ← release list
    abandon pending
  | .mark _ :: pending => abandon pending

/-- Release the slots of everything unfinished. -/
def abandonGoal {ε : Type} (goal : Goal) (pending : List Pending) : HeapM ε Unit := do
  match goal with
  | .datum => abandon pending
  | .closing list =>
    let _ ← release list
    abandon pending

/-- Give up reading because of a fault. -/
def refuse {α : Type} (goal : Goal) (pending : List Pending) (fault : ReadFault)
    (position : Nat) : HeapM ReadFailure α := do
  abandonGoal goal pending
  fail ⟨.unreadable fault, position⟩

/-- Make objects for a datum at a position, or give up reading.  Only memory can be missing. -/
def building {α : Type} (pending : List Pending) (position : Nat) (x : EvalM α) :
    HeapM ReadFailure α := fun h =>
  let giveUp : HeapM ReadFailure α := do
    abandon pending
    fail ⟨.outOfMemory, position⟩
  match x h with
  | .ok a h => .ok a h
  | .error _ h => giveUp h
  | .halt c => .halt c

/-! ## Going on -/

/-- The object of a literal. -/
def makeLiteral : Literal → EvalM Handle
  | .bool b => pure (.ofBool b)
  | .int n => makeInt n
  | .real x => makeReal x
  | .char byte => makeChar byte
  | .str s => makeString s
  | .symbol name => intern name

/-- Hand a datum to what waits for it. -/
def complete (v : Handle) : List Pending → EvalM Progress
  | [] => pure (.done v)
  | .items list last :: pending => do
    let cell ← cons v .emptyList
    match last with
    | some pair => setCdr pair cell
    | none => store list cell
    return .more .datum (.items list (some cell) :: pending)
  | .tail list last :: pending => do
    setCdr last v
    return .more (.closing list) pending
  | .mark symbol :: pending => do
    complete (← HeapM.list [symbol, v]) pending

/-- The end of a list completes the datum that it is. -/
def closeList (list : Root) (pending : List Pending) (position : Nat) :
    HeapM ReadFailure Progress := do
  let v ← release list
  building pending position (complete v pending)

/-- Whether a literal is a dot by itself, which between the elements of a list is no symbol. -/
def isDot : Literal → Bool
  | .symbol name => name == "."
  | _ => false

/-- The effect of a token where a datum or the end of a list may come. -/
def advance (pending : List Pending) (lexeme : Lexeme) : HeapM ReadFailure Progress :=
  match lexeme.token with
  | .opening => do
    let list ← acquire .emptyList
    return .more .datum (.items list none :: pending)
  | .closing =>
    match pending with
    | .items list _ :: pending => closeList list pending lexeme.stop
    | _ => refuse .datum pending .unexpectedClosing lexeme.start
  | .mark quotation => do
    let symbol ← intern quotation.name
    return .more .datum (.mark symbol :: pending)
  | .literal literal =>
    match isDot literal, pending with
    | true, .items list (some last) :: pending => pure (.more .datum (.tail list last :: pending))
    | true, .items _ none :: _ => refuse .datum pending .nothingBeforeDot lexeme.start
    | _, _ => building pending lexeme.stop (do complete (← makeLiteral literal) pending)

/-- The effect of a token where a certain goal has to be met. -/
def take (goal : Goal) (pending : List Pending) (lexeme : Lexeme) :
    HeapM ReadFailure Progress :=
  match goal, lexeme.token with
  | .datum, _ => advance pending lexeme
  | .closing list, .closing => closeList list pending lexeme.stop
  | .closing _, _ => refuse goal pending .closingExpected (lexeme.start + 1)

/-- The fault of a text that ends with something unfinished. -/
def incomplete : Goal → List Pending → ReadFault
  | .closing _, _ => .closingExpected
  | .datum, .items .. :: _ => .unterminatedList
  | .datum, _ => .unexpectedEnd

/-- The effect of the end of the scan. -/
def finish {α : Type} (ending : Ending) (goal : Goal) (pending : List Pending) :
    HeapM ReadFailure (Option α) :=
  match ending, goal, pending with
  | .endOfText _, .datum, [] => pure none
  | .endOfText stop, _, _ => refuse goal pending (incomplete goal pending) stop
  | .fault _ start _, .closing _, _ => refuse goal pending .closingExpected (start + 1)
  | .fault cause _ stop, .datum, _ => refuse goal pending cause stop

/-- Read on with something unfinished. -/
def readFrom (ending : Ending) (goal : Goal) (pending : List Pending) :
    List Lexeme → HeapM ReadFailure (Option Reading)
  | [] => finish ending goal pending
  | lexeme :: rest => do
    match ← take goal pending lexeme with
    | .done v => return some ⟨v, lexeme.stop, ⟨rest, ending⟩⟩
    | .more goal pending => readFrom ending goal pending rest

end Reader

/-- Read the first datum of a scan; there is none at the end of the text. -/
def HeapM.read (scan : Scan) : HeapM ReadFailure (Option Reading) :=
  Reader.readFrom scan.ending .datum [] scan.lexemes

end ArenaScheme
