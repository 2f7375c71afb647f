/-
# Lists

A list is a chain of pairs, its spine.  The chain may end in the empty list, and the list is
proper; it may end in any other object, and the list is dotted; or it may loop back into itself.

A walk down the spine finds out which with two cursors.  In each round the fast one moves over two
pairs and the slow one over one pair; on a circular spine the fast one catches up with the slow
one before the slow one has been everywhere once.  That bounds the rounds of a walk by the number
of cells.
-/
import ArenaScheme.Heap.Objects

namespace ArenaScheme

/-- What a walk down a spine has met. -/
structure Walk where
  /-- The heads of the pairs that the fast cursor went over, in order. -/
  visited : List Handle
  /-- The object that ends the spine; there is none if the spine is circular. -/
  ending : Option Handle

namespace Walk

/-- The elements, if the list is proper. -/
def items? (w : Walk) : Option (List Handle) :=
  if w.ending = some .emptyList then some w.visited else none

end Walk

namespace Heap

/-- The tail of a pair. -/
def cdr (h : Heap) (v : Handle) : Except Halt Handle :=
  match h.read v with
  | .ok (.pair _ next) => .ok next
  | .ok d => .error (.mismatch .pair v d.type)
  | .error c => .error c

/-- Walk on for at most the given number of rounds. -/
def walkFrom (h : Heap) : Nat → Handle → Handle → Array Handle → Except Halt Walk
  | 0, _, _, seen => .ok ⟨seen.toList, none⟩
  | rounds + 1, slow, fast, seen => do
    match ← h.read fast with
    | .pair first second =>
      match ← h.read second with
      | .pair head fast =>
        let slow ← h.cdr slow
        let seen := (seen.push first).push head
        if slow = fast then .ok ⟨seen.toList, none⟩ else walkFrom h rounds slow fast seen
      | _ => .ok ⟨(seen.push first).toList, some second⟩
    | _ => .ok ⟨seen.toList, some fast⟩

/-- Walk down the spine of an object. -/
def walkSpine (h : Heap) (v : Handle) : Except Halt Walk :=
  h.walkFrom (h.cells.size + 1) v v #[]

end Heap

namespace HeapM

variable {ε : Type}

/-- Walk down the spine of an object. -/
def walkSpine (v : Handle) : HeapM ε Walk := inspect (·.walkSpine v)

/-- The elements of a proper list; dotted and circular lists have none. -/
def items? (v : Handle) : HeapM ε (Option (List Handle)) := return (← walkSpine v).items?

/-- The length of a proper list. -/
def length? (v : Handle) : HeapM ε (Option Nat) := return (← items? v).map List.length

/-- A new proper list of the given objects, each of which is rooted while the spine is built. -/
def list (vs : List Handle) : EvalM Handle :=
  rootedAll vs (vs.foldrM cons .emptyList)

/-- A new copy of the proper list `front` that ends in `back`.  Nothing is copied if `front` is
empty. -/
def append (front back : Handle) : EvalM Handle := do
  if front = .emptyList then return back
  match ← items? front with
  | none => raise .wrongType "cannot splice an improper list"
  | some vs =>
    rooted front fun _ => rooted back fun result => do
      vs.reverse.forM fun v => do
        store result (← cons v (← contents result))
      contents result

end HeapM

end ArenaScheme
