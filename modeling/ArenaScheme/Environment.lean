/-
# Environments

An environment is a chain of frames.  A frame binds names by two parallel lists: the symbol at a
position of the first is bound to the object at the same position of the second.  A name is looked
up in the frame itself, then in its parent and so on; the base frame ends the chain.  A host may
link lists, and even frames, into circles.  A search that goes round for ever has no answer, which
is a halt here; a bound on the number of positions tells it apart from one that ends.

A binding is identified with the pair of the list of values that holds it, its slot, and an
assignment replaces the head of that pair.  A new binding is put in front of both lists.
-/
import ArenaScheme.Heap.Spine
import ArenaScheme.Heap.Symbols

namespace ArenaScheme

namespace Heap

/-- The slot of `symbol` in two parallel lists, looked for in at most the given number of
positions; there is no answer if the lists have not ended by then. -/
def slotIn (h : Heap) (symbol : Handle) : Nat → Handle → Handle → Except Halt (Option Handle)
  | 0, _, _ => .error .endlessSearch
  | positions + 1, names, values => do
    match ← h.read names, ← h.read values with
    | .pair name names, .pair _ rest =>
      if name = symbol then .ok (some values) else slotIn h symbol positions names rest
    | _, _ => .ok none

/-- The parent and the two lists of a frame. -/
def frameAt (h : Heap) (v : Handle) : Except Halt (Option Handle × Handle × Handle) :=
  match h.read v with
  | .ok (.frame parent names values) => .ok (parent, names, values)
  | .ok d => .error (.mismatch .environment v d.type)
  | .error c => .error c

/-- The slot of `symbol` in the one frame given.  Lists that have not ended after as many positions
as there are cells only repeat themselves. -/
def localSlot (h : Heap) (frame symbol : Handle) : Except Halt (Option Handle) := do
  let (_, names, values) ← h.frameAt frame
  h.slotIn symbol (h.cells.size + 1) names values

/-- The slot of `symbol` in the nearest of at most the given number of frames; there is no answer if
the base frame has not been reached by then. -/
def slotFrom (h : Heap) (symbol : Handle) : Nat → Handle → Except Halt (Option Handle)
  | 0, _ => .error .endlessSearch
  | frames + 1, frame => do
    match ← h.localSlot frame symbol with
    | some slot => .ok (some slot)
    | none =>
      match ← h.frameAt frame with
      | (some parent, _, _) => slotFrom h symbol frames parent
      | (none, _, _) => .ok none

/-- The slot of `symbol` in the nearest frame of an environment that binds it. -/
def nearestSlot (h : Heap) (env symbol : Handle) : Except Halt (Option Handle) :=
  h.slotFrom symbol (h.cells.size + 1) env

end Heap

namespace HeapM

variable {ε α : Type}

/-- The frame in which names are looked up now. -/
def currentEnv : HeapM ε Handle := observe (·.currentEnv)

/-- The outermost frame. -/
def baseEnv : HeapM ε Handle := observe (·.baseEnv)

/-- Look names up in another object from now on. -/
def switchEnv (env : Handle) : HeapM ε Unit := change ({ · with currentEnv := env })

/-- Look names up in another frame from now on.  If the heap is audited, it has to be a frame. -/
def setCurrentEnv (env : Handle) : HeapM ε Unit := do
  if ← observe (·.audited) then
    if !(← hasType .environment env) then halt .currentNotFrame
  switchEnv env

/-- Make a child of the current frame and switch to it. -/
def pushFrame (names values : Handle) : EvalM Handle := do
  let frame ← makeFrame (some (← currentEnv)) names values
  switchEnv frame
  return frame

/-- Return to the parent of the current frame. -/
def popFrame : HeapM ε Unit := do
  match ← frameParts (← currentEnv) with
  | (some parent, _, _) => switchEnv parent
  | (none, _, _) => halt .baseFrame

/-- The object that an environment binds a symbol to. -/
def find? (env symbol : Handle) : HeapM ε (Option Handle) := do
  match ← inspect (·.nearestSlot env symbol) with
  | some slot => return some (← car slot)
  | none => return none

/-- Fail because a symbol is not bound. -/
def unbound (symbol : Handle) : EvalM α := do
  raise .unboundVariable (← symbolName symbol)

/-- The object that an environment binds a symbol to; it is an error if there is none. -/
def lookup (env symbol : Handle) : EvalM Handle := do
  match ← find? env symbol with
  | some v => return v
  | none => unbound symbol

/-- Bind a symbol in the one frame given.  An existing binding of that frame is overwritten.  A new
one is installed only when both lists have been extended, so the frame never has lists of
different lengths. -/
def define (env symbol v : Handle) : EvalM Handle := do
  match ← inspect (·.localSlot env symbol) with
  | some slot =>
    setCar slot v
    return v
  | none =>
    rooted env fun _ => rooted v fun _ => do
      let (_, names, values) ← frameParts env
      let names ← cons symbol names
      rooted names fun _ => do
        let values ← cons v values
        setBindings env names values
        return v

/-- Overwrite the nearest binding of a symbol; it is an error if there is none. -/
def assign (env symbol v : Handle) : EvalM Handle := do
  match ← inspect (·.nearestSlot env symbol) with
  | some slot =>
    setCar slot v
    return v
  | none => unbound symbol

end HeapM

end ArenaScheme
