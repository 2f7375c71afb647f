/-
# The arena

The arena is one array of cells in three regions:

* the four sentinels;
* the collectible cells, as many as the arena's capacity, each of which is in use or free;
* the permanent cells, appended as they are needed: the base frame, every symbol and every foreign
  procedure.  They never become free.

The free cells form a doubly linked list that runs through the cells themselves, so a free list
costs no memory of its own.  Beside the cells, a heap holds everything that keeps objects alive:
the stack of roots, the base frame and the current frame; and the table of symbols.

A heap may be audited.  Then two rules that everyone who holds handles has to keep are checked as
the heap is used, and a halt follows as soon as one is found broken: names are looked up in frames
only, and what can be reached is never free.  A heap that is not audited goes on regardless.
-/
import Std.Data.TreeMap
import ArenaScheme.Sizing
import ArenaScheme.Datum
import ArenaScheme.Halt

namespace ArenaScheme

/-- The state of the arena and of all that refers into it. -/
structure Heap where
  cells : Array Datum
  /-- The number of collectible cells. -/
  capacity : Nat
  /-- The first cell of the free list. -/
  free : Option Nat
  /-- The length of the free list. -/
  freeCount : Nat
  /-- How many collections have been run. -/
  collections : Nat
  /-- The root stack, oldest slot first. -/
  roots : Array Handle
  /-- How many slots the root stack may have. -/
  rootSlots : Nat
  /-- The cell of every symbol by its name. -/
  symbols : Std.TreeMap String Handle
  /-- The outermost frame. -/
  baseEnv : Handle
  /-- The frame in which names are looked up now. -/
  currentEnv : Handle
  /-- Whether the heap is audited. -/
  audited : Bool

namespace Heap

/-! ## Regions -/

/-- The position of the first collectible cell. -/
def regionStart : Nat := Handle.sentinelCount

/-- The position after the last collectible cell. -/
def regionEnd (h : Heap) : Nat := regionStart + h.capacity

/-- Collectible cells are the ones that the collector may reclaim. -/
def Collectible (h : Heap) (i : Nat) : Prop := regionStart ≤ i ∧ i < h.regionEnd

instance (h : Heap) (i : Nat) : Decidable (h.Collectible i) :=
  inferInstanceAs (Decidable (_ ∧ _))

/-- The number of collectible cells in use. -/
def liveCount (h : Heap) : Nat := h.capacity - h.freeCount

/-! ## A new arena -/

/-- The contents of the sentinels. -/
def sentinels : List Datum :=
  [.emptyList, .bool true, .bool false, .error .outOfMemory "out of memory"]

/-- The `k`-th collectible cell of a new arena, linked to its neighbours. -/
def freshCell (capacity k : Nat) : Datum :=
  .free (if k = 0 then none else some (regionStart + k - 1))
    (if k + 1 < capacity then some (regionStart + k + 1) else none)

/-- A frame without bindings and without a parent. -/
def rootFrame : Datum := .frame none .emptyList .emptyList

/-- A heap in which every collectible cell is free, in ascending order, and whose only permanent
cell is the base frame.  It is not audited. -/
def ofSizing (s : Sizing) : Heap where
  cells := sentinels.toArray ++ Array.ofFn (fun k : Fin s.arenaCells => freshCell s.arenaCells k)
    |>.push rootFrame
  capacity := s.arenaCells
  free := if s.arenaCells = 0 then none else some regionStart
  freeCount := s.arenaCells
  collections := 0
  roots := #[]
  rootSlots := s.rootSlots
  symbols := ∅
  baseEnv := ⟨regionStart + s.arenaCells⟩
  currentEnv := ⟨regionStart + s.arenaCells⟩
  audited := false

/-- The same heap, audited from now on. -/
def audit (h : Heap) : Heap := { h with audited := true }

/-- The sizes that a heap was created with. -/
def sizing (h : Heap) : Sizing := ⟨h.capacity, h.rootSlots⟩

/-- A new heap of the same sizes, which is audited if this one is. -/
def renewed (h : Heap) : Heap := { ofSizing h.sizing with audited := h.audited }

/-! ## Looking at cells and changing them -/

/-- The contents of a cell, if the handle names one. -/
def datum? (h : Heap) (v : Handle) : Option Datum := h.cells[v.index]?

/-- The contents of a cell; a handle beyond the end of the arena is a halt. -/
@[inline]
def read (h : Heap) (v : Handle) : Except Halt Datum :=
  match h.cells[v.index]? with
  | some d => .ok d
  | none => .error (.outOfRange h.cells.size v.index)

/-- Whether the cell exists and holds an object. -/
def isLive (h : Heap) (v : Handle) : Bool :=
  match h.cells[v.index]? with
  | some d => !d.isFree
  | none => false

/-- Replace the contents of one cell. -/
def setCell (h : Heap) (i : Nat) (d : Datum) : Heap :=
  { h with cells := h.cells.setIfInBounds i d }

/-- Append a permanent cell. -/
def addPermanent (d : Datum) (h : Heap) : Handle × Heap :=
  (⟨h.cells.size⟩, { h with cells := h.cells.push d })

@[simp] theorem cells_setCell (h : Heap) (i : Nat) (d : Datum) :
    (h.setCell i d).cells = h.cells.setIfInBounds i d := rfl

/-! ## The free list -/

/-- Change the backward link of a free cell. -/
def setPrevious (h : Heap) (i : Nat) (previous : Option Nat) : Heap :=
  match h.cells[i]? with
  | some (.free _ next) => h.setCell i (.free previous next)
  | _ => h

/-- Change the backward link of the cell at the head of a list that may be empty. -/
def setHeadPrevious (h : Heap) (head previous : Option Nat) : Heap :=
  match head with
  | some i => h.setPrevious i previous
  | none => h

/-- Put a cell at the head of the free list, dropping what it held. -/
def reclaim (h : Heap) (i : Nat) : Heap :=
  let head := h.free
  let h := (h.setHeadPrevious head (some i)).setCell i (.free none head)
  { h with free := some i, freeCount := h.freeCount + 1 }

/-- Take the cell `i` at the head of the free list into use for `d`. -/
def claim (h : Heap) (i : Nat) (d : Datum) : Except Halt Heap :=
  match h.cells[i]? with
  | some (.free _ next) =>
    let h := (h.setHeadPrevious next none).setCell i d
    .ok { h with free := next, freeCount := h.freeCount - 1 }
  | some other => .error (.corruptFreeList i other.type)
  | none => .error (.outOfRange h.cells.size i)

end Heap

end ArenaScheme
