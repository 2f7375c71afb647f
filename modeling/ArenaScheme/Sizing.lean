/-
# Sizes of an arena

An arena is created with a fixed number of collectible cells and a fixed number of root slots.
Both have defaults, and both can be overridden by a count written as text.  An override that is
not a positive count of at most sixty-four bits is ignored.
-/

namespace ArenaScheme

/-- How large an arena and its root stack are. -/
structure Sizing where
  /-- The number of collectible cells. -/
  arenaCells : Nat
  /-- The number of root slots. -/
  rootSlots : Nat
deriving DecidableEq, Repr

namespace Sizing

/-- The sizes used when nothing else is asked for. -/
def standard : Sizing := ⟨65536, 4096⟩

/-- A tiny arena, in which collections are frequent. -/
def small : Sizing := ⟨1024, 512⟩

/-- The characters that may surround a count: the white space of Unicode. -/
def isSpace (c : Char) : Bool :=
  let n := c.toNat
  (9 ≤ n && n ≤ 13) || n == 0x20 || n == 0x85 || n == 0xA0 || n == 0x1680 ||
    (0x2000 ≤ n && n ≤ 0x200A) || n == 0x2028 || n == 0x2029 || n == 0x202F || n == 0x205F ||
    n == 0x3000

/-- Remove white space from both ends. -/
def trim (cs : List Char) : List Char :=
  ((cs.dropWhile isSpace).reverse.dropWhile isSpace).reverse

/-- The number written by decimal digits, if there are only digits. -/
def digits? (cs : List Char) : Option Nat :=
  cs.foldlM (fun n c => if c.isDigit then some (10 * n + (c.toNat - '0'.toNat)) else none) 0

/-- A count: decimal digits after an optional plus sign, at most the largest sixty-four bit word.
-/
def count? (cs : List Char) : Option Nat :=
  let body := match cs with
    | '+' :: rest => rest
    | _ => cs
  if body.isEmpty then none else (digits? body).filter (· < Nat.pow 2 64)

/-- The size that an override asks for, or the default where it is missing or no positive count. -/
def override (text : Option String) (default : Nat) : Nat :=
  match text with
  | none => default
  | some s => match count? (trim s.toList) with
    | some (n + 1) => n + 1
    | _ => default

/-- The standard sizes with an override for either. -/
def ofOverrides (arenaCells rootSlots : Option String) : Sizing :=
  ⟨override arenaCells standard.arenaCells, override rootSlots standard.rootSlots⟩

/-- The variable of the environment that overrides the number of cells. -/
def arenaCellsVariable : String := "SCM_ARENA_CELLS"

/-- The variable of the environment that overrides the number of root slots. -/
def rootSlotsVariable : String := "SCM_ROOT_SLOTS"

end Sizing

end ArenaScheme
