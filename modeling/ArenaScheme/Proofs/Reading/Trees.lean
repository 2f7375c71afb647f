/-
# Data as trees

What a text describes does not depend on a heap: it is a tree whose leaves are the empty list and
the literals.  An object stands for a tree if unfolding it gives the tree.
-/
import ArenaScheme.Heap.Symbols
import ArenaScheme.Proofs.FreeList
import ArenaScheme.Text.Token

namespace ArenaScheme

/-- A datum apart from any heap. -/
inductive Tree
  | emptyList
  | leaf (literal : Literal)
  | pair (car cdr : Tree)
deriving DecidableEq, Repr

/-- What a literal takes a cell for.  There is one object for each truth value and one for each
symbol, and they are not made. -/
def Literal.datum? : Literal → Option Datum
  | int n => some (.int n)
  | real x => some (.real x)
  | char byte => some (.char byte)
  | str text => some (.str text)
  | bool _ | symbol _ => none

lemma Literal.not_free {l : Literal} {d : Datum} (hd : l.datum? = some d) : d.isFree = false := by
  cases l <;> cases hd <;> rfl

lemma Literal.no_children {l : Literal} {d : Datum} (hd : l.datum? = some d) : d.children = [] := by
  cases l <;> cases hd <;> rfl

namespace Tree

/-- The elements of a list in front of what follows them. -/
def list (elements : List Tree) (tail : Tree) : Tree := elements.foldr .pair tail

@[simp] lemma list_nil (tail : Tree) : list [] tail = tail := rfl

@[simp] lemma list_cons (t : Tree) (ts : List Tree) (tail : Tree) :
    list (t :: ts) tail = .pair t (list ts tail) := rfl

lemma list_append (ts us : List Tree) (tail : Tree) :
    list (ts ++ us) tail = list ts (list us tail) := by
  simp [list]

/-- The number of cells that a datum is made of. -/
def cells : Tree → Nat
  | emptyList => 0
  | leaf l => if l.datum?.isSome then 1 else 0
  | pair a b => a.cells + b.cells + 1

/-- The cells of the elements of a list and of the pairs that hold them. -/
def spineCells : List Tree → Nat
  | [] => 0
  | t :: ts => t.cells + 1 + spineCells ts

@[simp] lemma spineCells_nil : spineCells [] = 0 := rfl

@[simp] lemma spineCells_cons (t : Tree) (ts : List Tree) :
    spineCells (t :: ts) = t.cells + 1 + spineCells ts := rfl

@[simp] lemma spineCells_append (ts us : List Tree) :
    spineCells (ts ++ us) = spineCells ts + spineCells us := by
  induction ts with
  | nil => simp
  | cons t ts ih => simp [ih, Nat.add_assoc]

lemma cells_list (ts : List Tree) (tail : Tree) :
    (list ts tail).cells = spineCells ts + tail.cells := by
  induction ts with
  | nil => simp
  | cons t ts ih =>
    rw [list_cons, cells, ih, spineCells_cons]
    omega

end Tree

/-- What a mark in front of a datum stands for. -/
def Quotation.form (quotation : Quotation) (t : Tree) : Tree :=
  .list [.leaf (.symbol quotation.name), t] .emptyList

namespace Heap

/-- The object at `v` is the one that a literal stands for.  Symbols are the ones of the table. -/
def IsLiteral (h : Heap) : Literal → Handle → Prop
  | .bool b, v => v = .ofBool b
  | .symbol name, v => h.findSymbol name = some v
  | l, v => h.object? v = l.datum?

/-- The object at `v` unfolds into the tree. -/
def Unfolds (h : Heap) : Tree → Handle → Prop
  | .emptyList, v => v = .emptyList
  | .leaf l, v => h.IsLiteral l v
  | .pair a b, v => ∃ x y, h.object? v = some (.pair x y) ∧ h.Unfolds a x ∧ h.Unfolds b y

end Heap

end ArenaScheme
