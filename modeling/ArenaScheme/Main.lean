/-
# The command line

The program evaluates source files named on the command line and then its standard input: as one
text if the input comes from a pipe, and line by line if there is a user at a terminal.
-/
import ArenaScheme.Options
import ArenaScheme.Session

namespace ArenaScheme

namespace Main

open Session

/-- Write a piece of text to its stream. -/
def write : Output → IO Unit
  | .normal text => do
    IO.print text
    (← IO.getStdout).flush
  | .diagnostic text => IO.eprint text

/-- Write what a session has to say and give back its code. -/
def finish (outputs : List Output) (exit : Exit) : IO UInt32 := do
  outputs.forM write
  if let .halted cause := exit then IO.eprintln cause.message
  return UInt32.ofNat exit.code

/-- Read a source file. -/
def readFile (path : String) : IO SourceFile := do
  try
    return ⟨path, .ok (← IO.FS.readBinFile path)⟩
  catch
    | .noFileOrDirectory .. => return ⟨path, .error "No such file or directory (os error 2)"⟩
    | e => return ⟨path, .error (toString e)⟩

/-- Read lines until the input ends. -/
partial def converse (s : State) : IO UInt32 := do
  write s.prompt
  let line ← try
      some <$> (← IO.getStdin).getLine
    catch _ => pure none
  match line with
  | none => finish [.diagnostic ("Error: " ++ notText ++ "\n")] .failure
  | some "" => return UInt32.ofNat Exit.success.code
  | some text =>
    let (outputs, next) := s.feed text
    match next with
    | .error cause => finish outputs (.halted cause)
    | .ok s =>
      outputs.forM write
      converse s

/-- Run a session with the given options. -/
def run (options : Options) : IO UInt32 := do
  let given := Sizing.ofOverrides (← IO.getEnv Sizing.arenaCellsVariable)
    (← IO.getEnv Sizing.rootSlotsVariable)
  let sizing := options.sizing given
  let files ← options.load.mapM readFile
  let stdin ← IO.getStdin
  match prepare sizing files with
  | .error (outputs, exit) => finish outputs exit
  | .ok s =>
    if ← stdin.isTty then converse s
    else
      let input ← stdin.readBinToEnd
      let (outputs, exit) := pipe s input
      finish outputs exit

end Main

end ArenaScheme

/-- Run the program. -/
def main (args : List String) : IO UInt32 :=
  match ArenaScheme.Options.parse ArenaScheme.Options.none args with
  | .ok options => ArenaScheme.Main.run options
  | .error message => do
    IO.eprintln ("error: " ++ message)
    return 2
