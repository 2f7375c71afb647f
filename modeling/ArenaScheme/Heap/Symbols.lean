/-
# Symbols

Every name has at most one symbol in a heap.  Its cell is permanent, and the table of symbols says
which it is.  So symbols are compared by their handles alone, and making one never takes a
collectible cell.
-/
import ArenaScheme.Heap.Objects

namespace ArenaScheme

namespace Heap

/-- The symbol of a name, if there is one. -/
def findSymbol (h : Heap) (name : String) : Option Handle := h.symbols[name]?

/-- The number of symbols. -/
def symbolCount (h : Heap) : Nat := h.symbols.size

/-- The symbol of a name, made if need be. -/
def intern (name : String) (h : Heap) : Handle × Heap :=
  match h.symbols[name]? with
  | some symbol => (symbol, h)
  | none =>
    let (symbol, h) := h.addPermanent (.symbol name)
    (symbol, { h with symbols := h.symbols.insert name symbol })

end Heap

namespace HeapM

variable {ε : Type}

/-- The symbol of a name, made if need be. -/
def intern (name : String) : HeapM ε Handle := changeWith (Heap.intern name)

end HeapM

end ArenaScheme
