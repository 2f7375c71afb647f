/-
# What a cell holds

A cell of the arena either is free, and then it is a link of the list of free cells, or it holds
one object.  Atoms carry their value; pairs, closures and frames carry handles of other cells,
their children.  The children are all that the collector ever follows.
-/
import ArenaScheme.Handle
import ArenaScheme.Builtin
import ArenaScheme.Number.Flonum

namespace ArenaScheme

/-- Why an evaluation failed. -/
inductive ErrorKind
  /-- A special form of the wrong shape. -/
  | malformed
  /-- A name without a binding. -/
  | unboundVariable
  /-- A procedure called with the wrong number of arguments. -/
  | arity
  /-- An operand of the wrong type. -/
  | wrongType
  /-- No cell left, not even after a collection. -/
  | outOfMemory
  /-- Raised by the program itself. -/
  | user
deriving DecidableEq, Repr

namespace ErrorKind

/-- The name under which a kind of error is reported. -/
def name : ErrorKind → String
  | malformed => "syntax-error"
  | unboundVariable => "unbound-variable"
  | arity => "arity-error"
  | wrongType => "type-error"
  | outOfMemory => "out-of-memory"
  | user => "user-error"

/-- Every kind of error. -/
def all : List ErrorKind := [malformed, unboundVariable, arity, wrongType, outOfMemory, user]

/-- The kind with the given name. -/
def ofName? (s : String) : Option ErrorKind := all.find? (·.name == s)

end ErrorKind

/-- The code behind a foreign procedure: one of the built-in procedures, or an entry of the table
of procedures that the host supplies. -/
inductive Native
  | builtin (procedure : Builtin)
  | host (slot : Nat)
deriving DecidableEq, Repr

/-- The types of objects, and of the free cells between them. -/
inductive DatumType
  | free
  | emptyList
  | boolean
  | integer
  | real
  | character
  | string
  | symbol
  | error
  | foreign
  | pair
  | closure
  | environment
deriving DecidableEq, Repr

/-- The name of a type in diagnostics. -/
def DatumType.name : DatumType → String
  | free => "free cell"
  | emptyList => "empty list"
  | boolean => "boolean"
  | integer => "integer"
  | real => "real"
  | character => "character"
  | string => "string"
  | symbol => "symbol"
  | error => "error"
  | foreign => "foreign function"
  | pair => "pair"
  | closure => "closure"
  | environment => "environment"

/-- The contents of a cell. -/
inductive Datum
  /-- A free cell, linked to its neighbours on the free list. -/
  | free (previous next : Option Nat)
  | emptyList
  | bool (b : Bool)
  | int (n : Int64)
  | real (x : Flonum)
  /-- A character is one byte. -/
  | char (byte : UInt8)
  | str (text : String)
  | symbol (name : String)
  | error (kind : ErrorKind) (message : String)
  | foreign (name : String) (code : Native)
  | pair (car cdr : Handle)
  /-- A procedure: the frame it was made in, its parameter specification and its body. -/
  | closure (env params body : Handle)
  /-- One level of bindings.  The names and the values are parallel lists; the base frame has no
  parent. -/
  | frame (parent : Option Handle) (names values : Handle)
deriving DecidableEq, Inhabited

namespace Datum

/-- The type of a cell's contents. -/
def type : Datum → DatumType
  | free .. => .free
  | emptyList => .emptyList
  | bool _ => .boolean
  | int _ => .integer
  | real _ => .real
  | char _ => .character
  | str _ => .string
  | symbol _ => .symbol
  | error .. => .error
  | foreign .. => .foreign
  | pair .. => .pair
  | closure .. => .closure
  | frame .. => .environment

/-- The handles that a cell holds on to. -/
def children : Datum → List Handle
  | pair car cdr => [car, cdr]
  | closure env params body => [env, params, body]
  | frame parent names values => parent.toList ++ [names, values]
  | _ => []

/-- Whether the cell is on the free list, as opposed to holding an object. -/
def isFree (d : Datum) : Bool := d.type == .free

/-! ## The parts of an object of a given type -/

/-- The head and the tail of a pair. -/
def pair? : Datum → Option (Handle × Handle)
  | pair car cdr => some (car, cdr)
  | _ => none

/-- The value of an integer. -/
def int? : Datum → Option Int64
  | int n => some n
  | _ => none

/-- The value of a real. -/
def real? : Datum → Option Flonum
  | real x => some x
  | _ => none

/-- The byte of a character. -/
def char? : Datum → Option UInt8
  | char b => some b
  | _ => none

/-- The value of a boolean. -/
def bool? : Datum → Option Bool
  | bool b => some b
  | _ => none

/-- The contents of a string. -/
def str? : Datum → Option String
  | str s => some s
  | _ => none

/-- The name of a symbol. -/
def symbol? : Datum → Option String
  | symbol name => some name
  | _ => none

/-- The kind and the message of an error object. -/
def error? : Datum → Option (ErrorKind × String)
  | error kind message => some (kind, message)
  | _ => none

/-- The name and the code of a foreign procedure. -/
def foreign? : Datum → Option (String × Native)
  | foreign name code => some (name, code)
  | _ => none

/-- The frame, the parameters and the body of a closure. -/
def closure? : Datum → Option (Handle × Handle × Handle)
  | closure env params body => some (env, params, body)
  | _ => none

/-- The parent, the names and the values of a frame. -/
def frame? : Datum → Option (Option Handle × Handle × Handle)
  | frame parent names values => some (parent, names, values)
  | _ => none

end Datum

end ArenaScheme
