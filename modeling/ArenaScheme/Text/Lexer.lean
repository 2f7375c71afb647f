/-
# Cutting source text into tokens

The lexer is an automaton that looks at every byte once.  Its state, the mode, says what kind of
token the byte before belongs to, where that token started, and which bytes of it have been seen.

A token that has no closing mark of its own ends at the first delimiter, and the delimiter then
starts something new.  So one byte completes at most one token that was open before it and at most
one token that it makes up by itself.
-/
import ArenaScheme.Text.Token

namespace ArenaScheme

namespace Lexer

open Byte

/-- What the lexer is in the middle of.  Bytes that have been seen are kept latest first. -/
inductive Mode
  /-- Between tokens. -/
  | blank
  /-- In a comment, which goes on to the end of the line. -/
  | comment
  /-- After a comma, which may turn out to be the first half of a mark of two bytes. -/
  | comma (start : Nat)
  /-- After a hash sign. -/
  | hash (start : Nat)
  /-- After a hash sign and a letter for a truth value. -/
  | truth (start : Nat) (value : Bool)
  /-- After a hash sign and a backslash. -/
  | character (start : Nat)
  /-- In a character literal of which at least one byte has been seen. -/
  | characterName (start : Nat) (seen : List UInt8)
  /-- In a number or a symbol. -/
  | atom (start : Nat) (seen : List UInt8)
  /-- In a string. -/
  | string (start : Nat) (seen : List UInt8)
  /-- In a string, after a backslash. -/
  | escape (start : Nat) (seen : List UInt8)
deriving DecidableEq, Repr

/-! ## The value of a complete token -/

/-- The text that some bytes encode. -/
def decode? (bytes : List UInt8) : Option String := String.fromUTF8? bytes.toByteArray

/-- A number or a symbol. -/
def atomValue (bytes : List UInt8) : Except ReadFault Literal :=
  match decode? bytes with
  | none => .error .symbolEncoding
  | some name =>
    if Number.looksNumeric bytes then
      match Number.integer? bytes, Number.decimal? bytes with
      | some n, _ => .ok (.int n)
      | none, some x => .ok (.real x.toFlonum)
      | none, none => .error (.malformedNumber name)
    else .ok (.symbol name)

/-- The character names and the bytes they stand for. -/
def characterNames : List (List UInt8 × UInt8) :=
  [("space".toUTF8.toList, space), ("newline".toUTF8.toList, newline), ("tab".toUTF8.toList, tab)]

/-- The character that one byte or a name stands for. -/
def characterValue (bytes : List UInt8) : Except ReadFault Literal :=
  match bytes with
  | [byte] => .ok (.char byte)
  | _ => match characterNames.lookup bytes with
    | some byte => .ok (.char byte)
    | none => .error (.unknownCharacterName ((decode? bytes).getD "\uFFFD"))

/-- The contents of a string. -/
def stringValue (bytes : List UInt8) : Except ReadFault Literal :=
  match decode? bytes with
  | some s => .ok (.str s)
  | none => .error .stringEncoding

/-- The byte that an escape sequence stands for. -/
def escapeValue? (byte : UInt8) : Option UInt8 :=
  if byte = letterN then some newline
  else if byte = letterT then some tab
  else if byte = letterR then some carriageReturn
  else if byte = backslash then some backslash
  else if byte = doubleQuote then some doubleQuote
  else none

/-! ## One byte -/

/-- The effect of a byte: the tokens it completes and the mode after it, or the end of the scan. -/
inductive Move
  | go (completed : List Lexeme) (next : Mode)
  | stop (ending : Ending)

/-- The token of one byte that stands alone. -/
def single (token : Token) (pos : Nat) : List Lexeme := [⟨token, pos, pos + 1⟩]

/-- A byte between tokens: the token that it is by itself, if any, and the mode after it. -/
def start (pos : Nat) (byte : UInt8) : List Lexeme × Mode :=
  if isBlank byte then ([], .blank)
  else if byte = semicolon then ([], .comment)
  else if byte = opening then (single .opening pos, .blank)
  else if byte = closing then (single .closing pos, .blank)
  else if byte = singleQuote then (single (.mark .quote) pos, .blank)
  else if byte = backquote then (single (.mark .quasiquote) pos, .blank)
  else if byte = Byte.comma then ([], .comma pos)
  else if byte = doubleQuote then ([], .string pos [])
  else if byte = Byte.hash then ([], .hash pos)
  else ([], .atom pos [byte])

/-- A byte that follows a complete token. -/
def follow (lexeme : Lexeme) (pos : Nat) (byte : UInt8) : Move :=
  let (completed, next) := start pos byte
  .go (lexeme :: completed) next

/-- The end of a literal at a byte that does not belong to it. -/
def followLiteral (value : Except ReadFault Literal) (begin pos : Nat) (byte : UInt8) : Move :=
  match value with
  | .ok literal => follow ⟨.literal literal, begin, pos⟩ pos byte
  | .error cause => .stop (.fault cause begin pos)

/-- The effect of the byte at a position. -/
def step (pos : Nat) (byte : UInt8) : Mode → Move
  | .blank =>
    let (completed, next) := start pos byte
    .go completed next
  | .comment => .go [] (if byte = newline then .blank else .comment)
  | .comma begin =>
    if byte = atSign then .go [⟨.mark .unquoteSplicing, begin, pos + 1⟩] .blank
    else follow ⟨.mark .unquote, begin, pos⟩ pos byte
  | .hash begin =>
    if byte = backslash then .go [] (.character begin)
    else if byte = letterT then .go [] (.truth begin true)
    else if byte = letterF then .go [] (.truth begin false)
    else .stop (.fault .unknownHash begin (pos + 1))
  | .truth begin value =>
    if isDelimiter byte then followLiteral (.ok (.bool value)) begin pos byte
    else .stop (.fault .unknownHash begin pos)
  | .character begin => .go [] (.characterName begin [byte])
  | .characterName begin seen =>
    if isDelimiter byte then followLiteral (characterValue seen.reverse) begin pos byte
    else .go [] (.characterName begin (byte :: seen))
  | .atom begin seen =>
    if isDelimiter byte then followLiteral (atomValue seen.reverse) begin pos byte
    else .go [] (.atom begin (byte :: seen))
  | .string begin seen =>
    if byte = doubleQuote then
      match stringValue seen.reverse with
      | .ok literal => .go [⟨.literal literal, begin, pos + 1⟩] .blank
      | .error cause => .stop (.fault cause begin (pos + 1))
    else if byte = backslash then .go [] (.escape begin seen)
    else .go [] (.string begin (byte :: seen))
  | .escape begin seen =>
    match escapeValue? byte with
    | some value => .go [] (.string begin (value :: seen))
    | none => .stop (.fault (.unknownEscape byte) begin (pos + 1))

/-- The end of the text in the middle of a literal. -/
def finishLiteral (value : Except ReadFault Literal) (begin pos : Nat) : List Lexeme × Ending :=
  match value with
  | .ok literal => ([⟨.literal literal, begin, pos⟩], .endOfText pos)
  | .error cause => ([], .fault cause begin pos)

/-- The effect of the end of the text: the token that it completes, and how the scan ends. -/
def finish (pos : Nat) : Mode → List Lexeme × Ending
  | .blank | .comment => ([], .endOfText pos)
  | .comma begin => ([⟨.mark .unquote, begin, pos⟩], .endOfText pos)
  | .hash begin => ([], .fault .unknownHash begin pos)
  | .truth begin value => finishLiteral (.ok (.bool value)) begin pos
  | .character begin => ([], .fault .unterminatedCharacter begin pos)
  | .characterName begin seen => finishLiteral (characterValue seen.reverse) begin pos
  | .atom begin seen => finishLiteral (atomValue seen.reverse) begin pos
  | .string begin _ | .escape begin _ => ([], .fault .unterminatedString begin pos)

/-! ## The whole text -/

/-- Scan on from a position, in a mode, with the tokens completed so far, latest first. -/
def scanFrom (mode : Mode) (pos : Nat) (found : List Lexeme) : List UInt8 → Scan
  | [] =>
    let (completed, ending) := finish pos mode
    ⟨(completed.reverse ++ found).reverse, ending⟩
  | byte :: rest =>
    match step pos byte mode with
    | .go completed next => scanFrom next (pos + 1) (completed.reverse ++ found) rest
    | .stop ending => ⟨found.reverse, ending⟩

end Lexer

/-- Cut a text into tokens from a position on, which may be beyond its end. -/
def Scan.ofBytes (bytes : List UInt8) (pos : Nat) : Scan :=
  Lexer.scanFrom .blank pos [] (bytes.drop pos)

/-- Cut a text into tokens from a byte position on. -/
def Scan.ofString (s : String) (pos : Nat) : Scan := Scan.ofBytes s.toUTF8.toList pos

end ArenaScheme
