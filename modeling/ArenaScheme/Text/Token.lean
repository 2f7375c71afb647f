/-
# Tokens of the source text

Source text is a sequence of bytes.  Its tokens are parentheses, the four abbreviations for quoted
forms, and literals.  Symbols count as literals: what tells a keyword from a variable is decided
much later, by the identity of the symbol.

The module also lists everything that can be wrong with a source text.  Some faults lie within one
token and some in the arrangement of tokens, but they are reported alike.
-/
import ArenaScheme.Number.Numeral

namespace ArenaScheme

/-! ## Bytes with a meaning of their own -/

namespace Byte

def tab : UInt8 := 0x09
def newline : UInt8 := 0x0A
def carriageReturn : UInt8 := 0x0D
def space : UInt8 := 0x20
def doubleQuote : UInt8 := 0x22
def hash : UInt8 := 0x23
def singleQuote : UInt8 := 0x27
def opening : UInt8 := 0x28
def closing : UInt8 := 0x29
def comma : UInt8 := 0x2C
def semicolon : UInt8 := 0x3B
def atSign : UInt8 := 0x40
def backslash : UInt8 := 0x5C
def backquote : UInt8 := 0x60
def letterF : UInt8 := 0x66
def letterN : UInt8 := 0x6E
def letterR : UInt8 := 0x72
def letterT : UInt8 := 0x74

/-- White space separates tokens and is otherwise ignored. -/
def isBlank (b : UInt8) : Bool := b == space || b == tab || b == newline || b == carriageReturn

/-- Bytes at which an atom ends. -/
def isDelimiter (b : UInt8) : Bool :=
  isBlank b || b == opening || b == closing || b == doubleQuote || b == semicolon ||
    b == singleQuote || b == backquote || b == comma

end Byte

/-! ## Tokens -/

/-- An abbreviation: a mark in front of a datum that stands for a two-element list. -/
inductive Quotation
  | quote
  | quasiquote
  | unquote
  | unquoteSplicing
deriving DecidableEq, Repr

/-- The symbol at the head of the list that a mark abbreviates. -/
def Quotation.name : Quotation → String
  | quote => "quote"
  | quasiquote => "quasiquote"
  | unquote => "unquote"
  | unquoteSplicing => "unquote-splicing"

/-- A datum that is written as one token. -/
inductive Literal
  | bool (b : Bool)
  | int (n : Int64)
  | real (x : Flonum)
  | char (byte : UInt8)
  | str (text : String)
  | symbol (name : String)
deriving DecidableEq, Repr

/-- What a stretch of source text stands for. -/
inductive Token
  | opening
  | closing
  | mark (quotation : Quotation)
  | literal (literal : Literal)
deriving DecidableEq, Repr

/-- A token with the positions of its first byte and of the byte after it. -/
structure Lexeme where
  token : Token
  start : Nat
  stop : Nat
deriving DecidableEq, Repr

/-! ## Faults -/

/-- What is wrong with a source text. -/
inductive ReadFault
  | unexpectedEnd
  | unexpectedClosing
  | unterminatedList
  | nothingBeforeDot
  | closingExpected
  | unterminatedString
  | unknownEscape (byte : UInt8)
  | stringEncoding
  | unknownHash
  | unterminatedCharacter
  | unknownCharacterName (name : String)
  | symbolEncoding
  | malformedNumber (token : String)
deriving DecidableEq, Repr

/-- The wording of a fault. -/
def ReadFault.message : ReadFault → String
  | unexpectedEnd => "unexpected EOF"
  | unexpectedClosing => "unexpected ')'"
  | unterminatedList => "unterminated list"
  | nothingBeforeDot => "nothing before '.' in list"
  | closingExpected => "expected ')' after dotted tail"
  | unterminatedString => "unterminated string"
  | unknownEscape byte => "unknown escape \\" ++ String.singleton (Char.ofUInt8 byte)
  | stringEncoding => "string is not valid UTF-8"
  | unknownHash => "unknown # syntax"
  | unterminatedCharacter => "unterminated character literal"
  | unknownCharacterName name => "unknown character name: " ++ name
  | symbolEncoding => "symbol is not valid UTF-8"
  | malformedNumber token => "malformed number: " ++ token

/-! ## Scans -/

/-- How a scan ends: with the text, or with a token that is wrong in itself. -/
inductive Ending
  | endOfText (stop : Nat)
  | fault (cause : ReadFault) (start stop : Nat)
deriving DecidableEq, Repr

/-- The position at which the scan ended. -/
def Ending.stop : Ending → Nat
  | endOfText stop => stop
  | fault _ _ stop => stop

/-- A source text cut into tokens.  The tokens go on up to the end of the text or up to the first
that is wrong in itself. -/
structure Scan where
  lexemes : List Lexeme
  ending : Ending
deriving DecidableEq, Repr

end ArenaScheme
