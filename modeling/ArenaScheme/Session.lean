/-
# Sessions on standard streams

A program may come as one text from a pipe, or line by line from an interactive user.  Either way
its values are written to the output and its failures to the error stream.  A session as a whole
is a function from the input to what it writes and the code that it ends with.
-/
import ArenaScheme.Interpreter
import ArenaScheme.Text.Completeness

namespace ArenaScheme

/-- A piece of text for one of the two streams. -/
inductive Output
  | normal (text : String)
  | diagnostic (text : String)
deriving DecidableEq, Repr

/-- How a session ends. -/
inductive Exit
  | success
  /-- A failure that has been reported on the error stream. -/
  | failure
  | halted (cause : Halt)
deriving DecidableEq, Repr

/-- The code that a process gives back. -/
def Exit.code : Exit → Nat
  | success => 0
  | failure => 1
  | halted _ => 101

namespace Session

open Interpreter

/-- How many steps an evaluation may take: so many that no run comes to see the limit. -/
def budget : Nat := Nat.pow 2 62

/-- What is written about one datum. -/
def outputOf : Report → Output
  | .value _ text _ => .normal (text ++ "\n")
  | .failed failure _ => .diagnostic ("Error: " ++ failure.message ++ "\n")
  | .unreadable failure => .diagnostic (failure.message ++ "\n")

/-- A text as part of the input, decoded. -/
def decode? (bytes : ByteArray) : Option String := String.fromUTF8? bytes

/-- The reason given for bytes that are no text. -/
def notText : String := "stream did not contain valid UTF-8"

/-! ## Interactive sessions -/

/-- An interactive session between two lines: the text that is not complete yet, and the heap. -/
structure State where
  context : Context
  heap : Heap
  buffer : String

/-- What the user sees before a line: a mark, or a space in its place where a text goes on. -/
def State.prompt (s : State) : Output := .normal (if s.buffer.isEmpty then "> " else "  ")

/-- Whether there is nothing but white space in a text. -/
def isBlank (text : String) : Bool := text.toList.all Sizing.isSpace

/-- Take one line, with its newline.  The text that it completes is evaluated. -/
def State.feed (s : State) (line : String) : List Output × Except Halt State :=
  let text := s.buffer ++ line
  if 0 < openParentheses text then ([], .ok { s with buffer := text })
  else if isBlank text then ([], .ok { s with buffer := "" })
  else
    let transcript := reportAll s.context budget text s.heap
    (transcript.reports.map outputOf,
      transcript.ending.map fun heap => { s with heap, buffer := "" })

/-- Cut input into lines that keep their newlines.  `line` is the beginning of the current line,
latest byte first. -/
def splitLines (line : List UInt8) : List UInt8 → List (List UInt8)
  | [] => if line.isEmpty then [] else [line.reverse]
  | byte :: rest =>
    if byte = Byte.newline then (byte :: line).reverse :: splitLines [] rest
    else splitLines (byte :: line) rest

/-- Answer the lines of an interactive session one after the other. -/
def interact (s : State) : List (List UInt8) → List Output × Exit
  | [] => ([s.prompt], .success)
  | line :: rest =>
    match decode? line.toByteArray with
    | none => ([s.prompt, .diagnostic ("Error: " ++ notText ++ "\n")], .failure)
    | some text =>
      match s.feed text with
      | (outputs, .error cause) => (s.prompt :: outputs, .halted cause)
      | (outputs, .ok s') =>
        let (later, exit) := interact s' rest
        (s.prompt :: outputs ++ later, exit)

/-- A new machine on an audited heap, or how the session ends without one. -/
def start (sizing : Sizing) : Except (Failure ⊕ Halt) State :=
  match install #[] (Heap.ofSizing sizing).audit with
  | .ok context heap => .ok ⟨context, heap, ""⟩
  | .error failure _ => .error (.inl failure)
  | .halt cause => .error (.inr cause)

/-- A whole interactive session. -/
def interactive (sizing : Sizing) (input : ByteArray) : List Output × Exit :=
  match start sizing with
  | .error (.inl failure) => ([.diagnostic ("Error: " ++ failure.message ++ "\n")], .failure)
  | .error (.inr cause) => ([], .halted cause)
  | .ok s => interact s (splitLines [] input.toList)

/-! ## Sessions on files and a pipe -/

/-- The report that ends a session: what was being done, and why it could not be done.  A reason of
several lines is indented as a whole. -/
def complaint (doing reason : String) : Output :=
  .diagnostic
    ("Error: " ++ doing ++ "\n\nCaused by:\n    " ++ reason.replace "\n" "\n    " ++ "\n")

/-- A source file: its name, and its contents if it could be opened. -/
structure SourceFile where
  path : String
  contents : Except String ByteArray

/-- The text of a source file, or the reason why there is none. -/
def SourceFile.text (file : SourceFile) : Except String String := do
  match decode? (← file.contents) with
  | some text => .ok text
  | none => .error notText

/-- Run source files one after the other before anything else is read. -/
def load (s : State) : List SourceFile → Except (List Output × Exit) State
  | [] => .ok s
  | file :: rest =>
    match file.text with
    | .error reason => .error ([complaint ("failed to read " ++ file.path) reason], .failure)
    | .ok text =>
      match run s.context budget text s.heap with
      | .halt cause => .error ([], .halted cause)
      | .error failure _ =>
        .error ([complaint ("error while loading " ++ file.path) failure.message], .failure)
      | .ok _ heap => load { s with heap } rest

/-- Evaluate the input as one text. -/
def pipe (s : State) (input : ByteArray) : List Output × Exit :=
  match decode? input with
  | none => ([complaint "failed to read stdin" notText], .failure)
  | some text =>
    let transcript := reportAll s.context budget text s.heap
    (transcript.reports.map outputOf,
      match transcript.ending with
      | .ok _ => .success
      | .error cause => .halted cause)

/-- A machine that has run the given source files, or how the session ends without one. -/
def prepare (sizing : Sizing) (files : List SourceFile) : Except (List Output × Exit) State :=
  match start sizing with
  | .error (.inl failure) =>
    .error ([complaint "failed to initialize the runtime" failure.message], .failure)
  | .error (.inr cause) => .error ([], .halted cause)
  | .ok s => load s files

/-- A whole session on source files and a pipe. -/
def batch (sizing : Sizing) (files : List SourceFile) (input : ByteArray) :
    List Output × Exit :=
  match prepare sizing files with
  | .error ended => ended
  | .ok s => pipe s input

end Session

end ArenaScheme
