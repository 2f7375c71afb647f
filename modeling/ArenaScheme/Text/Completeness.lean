/-
# Is a text complete?

An interactive session collects lines until the text has no unclosed parenthesis.  Whether it has
is found out without reading it: the parentheses are counted, except those in strings, in comments
and in character literals.  A string without an end counts as one unclosed parenthesis more.
-/
import ArenaScheme.Text.Token

namespace ArenaScheme

namespace Completeness

open Byte

/-- Where in the text the count is. -/
inductive Place
  | code
  | string
  /-- After a backslash in a string. -/
  | stringEscape
  | comment
  /-- After a hash sign. -/
  | hash
  /-- After a hash sign and a backslash: the next byte is a character. -/
  | character
deriving DecidableEq, Repr

/-- Where a byte of code leads. -/
def afterCode (byte : UInt8) : Place :=
  if byte = doubleQuote then .string
  else if byte = semicolon then .comment
  else if byte = Byte.hash then .hash
  else .code

/-- Where a byte leads. -/
def next (byte : UInt8) : Place → Place
  | .code => afterCode byte
  | .string =>
    if byte = backslash then .stringEscape
    else if byte = doubleQuote then .code
    else .string
  | .stringEscape => .string
  | .comment => if byte = newline then .code else .comment
  | .hash => if byte = backslash then .character else afterCode byte
  | .character => .code

/-- Whether a byte at that place is code. -/
def isCode (byte : UInt8) : Place → Bool
  | .code => true
  | .hash => byte != backslash
  | _ => false

/-- The change of the count by a byte of code. -/
def change (byte : UInt8) : Int :=
  if byte = opening then 1 else if byte = closing then -1 else 0

/-- Go on counting from a place. -/
def depthFrom (place : Place) (depth : Int) : List UInt8 → Int
  | [] => match place with
    | .string | .stringEscape => max depth 0 + 1
    | _ => depth
  | byte :: rest =>
    depthFrom (next byte place) (if isCode byte place then depth + change byte else depth) rest

end Completeness

/-- The number of unclosed parentheses in a text. -/
def openParentheses (text : String) : Int :=
  Completeness.depthFrom .code 0 text.toUTF8.toList

end ArenaScheme
