/-
# Options of the command line

The command line may set the two sizes of the arena and name source files to be run first.  What is
set there wins over the variables of the environment.  The value of an option is the next word, or
stands in the same word after an equals sign.
-/
import ArenaScheme.Sizing

namespace ArenaScheme

/-- What the command line asks for. -/
structure Options where
  arenaCells : Option Nat
  rootSlots : Option Nat
  /-- Source files, in the order in which they are to be run. -/
  load : List String
deriving DecidableEq, Repr

namespace Options

/-- Nothing asked for. -/
def none : Options := ⟨.none, .none, []⟩

/-- The options with a value. -/
inductive Setting
  | arenaCells
  | rootSlots
  | load
deriving DecidableEq, Repr

/-- The option that a word names. -/
def Setting.ofWord? : String → Option Setting
  | "--arena-cells" => some arenaCells
  | "--root-slots" => some rootSlots
  | "--load" => some load
  | _ => .none

/-- Give an option its value; a size has to be a count. -/
def set (options : Options) (setting : Setting) (value : String) : Except String Options :=
  match setting, Sizing.count? value.toList with
  | .load, _ => .ok { options with load := options.load ++ [value] }
  | .arenaCells, some n => .ok { options with arenaCells := some n }
  | .rootSlots, some n => .ok { options with rootSlots := some n }
  | _, .none => .error ("invalid value '" ++ value ++ "'")

/-- A word that holds both an option and its value. -/
def splitWord (word : String) : String × Option String :=
  let name := word.toList.takeWhile (· != '=')
  match word.toList.dropWhile (· != '=') with
  | [] => (word, .none)
  | _ :: value => (String.ofList name, some (String.ofList value))

/-- The option that a word names; there is no other kind of word. -/
def settingOf (word name : String) : Except String Setting :=
  match Setting.ofWord? name with
  | some setting => .ok setting
  | .none => .error ("unexpected argument '" ++ word ++ "'")

/-- Read the words of the command line. -/
def parse (options : Options) : List String → Except String Options
  | [] => .ok options
  | word :: rest => do
    let (name, value) := splitWord word
    let setting ← settingOf word name
    match value, rest with
    | some value, rest => parse (← options.set setting value) rest
    | .none, value :: rest => parse (← options.set setting value) rest
    | .none, [] => .error ("a value is required for '" ++ word ++ "'")

/-- The sizes of the arena, where `given` are those that hold without the command line. -/
def sizing (options : Options) (given : Sizing) : Sizing :=
  ⟨options.arenaCells.getD given.arenaCells, options.rootSlots.getD given.rootSlots⟩

end Options

end ArenaScheme
