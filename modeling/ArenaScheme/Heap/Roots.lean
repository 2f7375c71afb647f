/-
# The root stack

A collection may run whenever a cell is allocated, and it keeps only what it can reach.  An object
that an action still needs, and that nothing durable refers to, is therefore held in a slot of the
root stack.  A slot is a variable: its owner reads and replaces the contents through the `Root`
that names it, and a collection sees the latest contents.

The stack is bounded, and slots are released in the reverse order of their acquisition.  Breaking
either rule is a halt.  `rooted` keeps the second rule by construction: it acquires a slot, runs
an action with it, and releases it whether the action returns or fails.
-/
import ArenaScheme.Heap.Action

namespace ArenaScheme

/-- The name of an occupied slot of the root stack. -/
structure Root where
  slot : Nat
deriving DecidableEq, Repr

namespace HeapM

variable {ε α : Type}

/-- Occupy a new slot. -/
def acquire (v : Handle) : HeapM ε Root := fun h =>
  if h.roots.size < h.rootSlots then
    .ok ⟨h.roots.size⟩ { h with roots := h.roots.push v }
  else .halt (.rootOverflow h.rootSlots)

/-- Give up the latest slot and return its contents. -/
def release (root : Root) : HeapM ε Handle := fun h =>
  match h.roots.back? with
  | some v =>
    if h.roots.size = root.slot + 1 then .ok v { h with roots := h.roots.pop }
    else .halt (.rootOrder root.slot h.roots.size)
  | none => .halt (.rootOrder root.slot 0)

/-- The contents of a slot. -/
def contents (root : Root) : HeapM ε Handle := fun h =>
  match h.roots[root.slot]? with
  | some v => .ok v h
  | none => .halt (.outOfRange h.roots.size root.slot)

/-- Replace the contents of a slot. -/
def store (root : Root) (v : Handle) : HeapM ε Unit := fun h =>
  if root.slot < h.roots.size then
    .ok () { h with roots := h.roots.setIfInBounds root.slot v }
  else .halt (.outOfRange h.roots.size root.slot)

/-- Run an action while an object is held in a slot of its own. -/
@[inline]
def rooted (v : Handle) (body : Root → HeapM ε α) : HeapM ε α := do
  let root ← acquire v
  ensuring (body root) (do let _ ← release root)

/-- Run an action while each of several objects is held in a slot, the first in the oldest. -/
def rootedAll (vs : List Handle) (body : HeapM ε α) : HeapM ε α :=
  match vs with
  | [] => body
  | v :: vs => rooted v fun _ => rootedAll vs body

end HeapM

end ArenaScheme
