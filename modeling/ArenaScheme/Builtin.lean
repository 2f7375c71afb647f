/-
# Names of the built-in procedures

The base frame of a running machine binds thirty-one procedures.  They fall into a few families:
the four arithmetic operations, the five comparisons, the ten tests for a kind of object, and a
dozen procedures of their own.  The families are reflected in the type, so that the behaviour of a
family is written once.
-/

namespace ArenaScheme

/-- The relation that a comparison procedure checks between neighbouring arguments. -/
inductive Comparison
  | equal
  | less
  | greater
  | atMost
  | atLeast
deriving DecidableEq, Repr

/-- The question that a test procedure asks about its one argument. -/
inductive Property
  | null
  | pair
  | symbol
  | number
  | integer
  | real
  | string
  | char
  | boolean
  | procedure
deriving DecidableEq, Repr

/-- A built-in procedure. -/
inductive Builtin
  | add
  | subtract
  | multiply
  | divide
  | compare (relation : Comparison)
  | car
  | cdr
  | cons
  | list
  | length
  | setCar
  | setCdr
  | test (property : Property)
  | isError
  | same
  | negate
  | raiseError
  | collectGarbage
deriving DecidableEq, Repr

namespace Comparison

/-- The name that programs use. -/
def name : Comparison → String
  | equal => "="
  | less => "<"
  | greater => ">"
  | atMost => "<="
  | atLeast => ">="

end Comparison

namespace Property

/-- The name that programs use. -/
def name : Property → String
  | null => "null?"
  | pair => "pair?"
  | symbol => "symbol?"
  | number => "number?"
  | integer => "integer?"
  | real => "real?"
  | string => "string?"
  | char => "char?"
  | boolean => "boolean?"
  | procedure => "procedure?"

end Property

namespace Builtin

/-- The name that programs use, which also stands in the procedure's error messages. -/
def name : Builtin → String
  | add => "+"
  | subtract => "-"
  | multiply => "*"
  | divide => "/"
  | compare relation => relation.name
  | car => "car"
  | cdr => "cdr"
  | cons => "cons"
  | list => "list"
  | length => "length"
  | setCar => "set-car!"
  | setCdr => "set-cdr!"
  | test property => property.name
  | isError => "error?"
  | same => "eq?"
  | negate => "not"
  | raiseError => "error"
  | collectGarbage => "gc"

/-- All built-in procedures, in the order in which a new machine binds them.  The order decides
which cells their bindings occupy. -/
def all : List Builtin :=
  [add, subtract, multiply, divide,
    compare .equal, compare .less, compare .greater, compare .atMost, compare .atLeast,
    car, cdr, cons, list, length, setCar, setCdr,
    test .null, test .pair, test .symbol, test .number, test .integer, test .real, test .string,
    test .char, test .boolean, test .procedure,
    isError, same, negate, raiseError, collectGarbage]

theorem mem_all (b : Builtin) : b ∈ all := by
  cases b with
  | compare r => cases r <;> decide
  | test p => cases p <;> decide
  | _ => decide

end Builtin

end ArenaScheme
