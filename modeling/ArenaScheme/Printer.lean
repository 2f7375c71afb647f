/-
# Printed forms

Every object has a printed form.  Atoms print as they are written in programs; procedures,
environments and error objects print as descriptions.  A list prints its elements in parentheses,
with a dot before the object that ends a dotted list.

Objects may be circular, so printing is cut off in two ways.  An object nested more than a thousand
levels deep prints as three dots.  And a list is printed while a second cursor follows along its
spine at half the speed: when the printing comes back to that cursor, the list is circular, and
its rest prints as three dots.
-/
import ArenaScheme.Heap.Spine
import ArenaScheme.Number.Fixed

namespace ArenaScheme

namespace Printer

/-- How many levels of nesting are printed before an object is cut off. -/
def levels : Nat := 1001

/-- A character, by name where it would not be seen. -/
def charText (byte : UInt8) : String :=
  "#\\" ++
    (if byte = 0x20 then "space"
      else if byte = 0x0A then "newline"
      else if byte = 0x09 then "tab"
      else String.singleton (Char.ofUInt8 byte))

/-- One character of a string, escaped where that is needed to read it back. -/
def escaped : Char → List Char
  | '"' => ['\\', '"']
  | '\\' => ['\\', '\\']
  | '\n' => ['\\', 'n']
  | '\t' => ['\\', 't']
  | '\r' => ['\\', 'r']
  | c => [c]

/-- A string in quotes. -/
def stringText (s : String) : String :=
  "\"" ++ String.ofList (s.toList.flatMap escaped) ++ "\""

/-- The printed form of an object that is not a pair. -/
def atomText (v : Handle) : Datum → Except Halt String
  | .emptyList => .ok "()"
  | .bool b => .ok (if b then "#t" else "#f")
  | .int n => .ok (toString n.toInt)
  | .real x => .ok (Number.fixedText x)
  | .char byte => .ok (charText byte)
  | .str s => .ok (stringText s)
  | .symbol name => .ok name
  | .error kind message => .ok ("#<error " ++ kind.name ++ ": " ++ message ++ ">")
  | .foreign name _ => .ok ("#<foreign-function " ++ name ++ ">")
  | .closure .. => .ok "#<closure>"
  | .frame .. => .ok "#<environment>"
  | .pair .. => .ok ""
  | .free .. => .error (.printingFree v)

/-- Print the rest of a list from `current` on, where `out` is what has been printed of it.  The
cursor `slow` moves at every other step, and `due` says whether it moves at this one. -/
def spineText (h : Heap) (element : Handle → Except Halt String) :
    Nat → Bool → Handle → Handle → String → Except Halt String
  | 0, _, _, _, out => .ok (out ++ " ...)")
  | steps + 1, due, slow, current, out => do
    match ← h.read current with
    | .emptyList => .ok (out ++ ")")
    | .pair head next =>
      if current = slow then .ok (out ++ " ...)")
      else
        let text ← element head
        let slow ← if due then h.cdr slow else pure slow
        spineText h element steps (!due) slow next (out ++ " " ++ text)
    | _ => .ok (out ++ " . " ++ (← element current) ++ ")")

/-- The printed form of an object with the given number of levels left.  Going twice along every
cell is more than enough for a spine. -/
def textAt (h : Heap) : Nat → Handle → Except Halt String
  | 0, _ => .ok "..."
  | levels + 1, v => do
    match ← h.read v with
    | .pair head next =>
      let text ← textAt h levels head
      spineText h (textAt h levels) (2 * h.cells.size + 2) false v next ("(" ++ text)
    | d => atomText v d

end Printer

/-- The printed form of an object. -/
def Heap.print (h : Heap) (v : Handle) : Except Halt String := Printer.textAt h Printer.levels v

/-- The printed form of an object. -/
def HeapM.print {ε : Type} (v : Handle) : HeapM ε String := inspect (·.print v)

end ArenaScheme
