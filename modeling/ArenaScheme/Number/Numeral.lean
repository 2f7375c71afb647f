/-
# Numerals

A token is taken for a number when it starts with a digit, or with a sign or a point before a
digit, or with a sign and a point before a digit.  Such a token is an integer if it is written
with digits alone after an optional sign and fits into sixty-four bits.  Otherwise it is a real if
it has the form of a decimal number: digits with at most one point among or around them, then
perhaps an exponent.  Everything else is malformed.

The real is the number of the binary format that is nearest to the decimal one.
-/
import ArenaScheme.Number.Flonum

namespace ArenaScheme

namespace Number

/-! ## Bytes of numerals -/

/-- Decimal digits. -/
def isDigit (b : UInt8) : Bool := 0x30 ≤ b && b ≤ 0x39

/-- The two signs. -/
def isSign (b : UInt8) : Bool := b == 0x2B || b == 0x2D

/-- The decimal point. -/
def isPoint (b : UInt8) : Bool := b == 0x2E

/-- Either form of the letter that announces an exponent. -/
def isExponentMark (b : UInt8) : Bool := b == 0x65 || b == 0x45

/-- Whether a token is to be read as a number. -/
def looksNumeric : List UInt8 → Bool
  | [] => false
  | a :: rest =>
    isDigit a ||
      (match rest with
        | [] => false
        | b :: rest =>
          ((isSign a || isPoint a) && isDigit b) ||
            (isSign a && isPoint b && rest.head?.any isDigit))

/-- The value of a row of digits. -/
def digitsValue (bs : List UInt8) : Nat := bs.foldl (fun n b => 10 * n + (b.toNat - 0x30)) 0

/-- A leading sign, as whether it is a minus sign, and what follows it. -/
def splitSign : List UInt8 → Bool × List UInt8
  | [] => (false, [])
  | b :: rest => if isSign b then (b == 0x2D, rest) else (false, b :: rest)

/-! ## Integers -/

/-- The value of a row of at least one digit. -/
def digits? (bs : List UInt8) : Option Nat :=
  if !bs.isEmpty && bs.all isDigit then some (digitsValue bs) else none

/-- The least and the greatest integer of sixty-four bits bound the integers of the language. -/
def fits (n : Int) : Bool := -(Int.pow 2 63) ≤ n && n < Int.pow 2 63

theorem fits_toInt (n : Int64) : fits n.toInt = true := by
  simp only [fits, Bool.and_eq_true, decide_eq_true_eq]
  exact ⟨n.le_toInt, n.toInt_lt⟩

theorem toInt_ofInt {n : Int} (hn : fits n = true) : (Int64.ofInt n).toInt = n := by
  simp only [fits, Bool.and_eq_true, decide_eq_true_eq] at hn
  exact Int64.toInt_ofInt_of_le hn.1 hn.2

/-- The integer that a token denotes. -/
def integer? (token : List UInt8) : Option Int64 :=
  let (negative, body) := splitSign token
  match digits? body with
  | some n =>
    let value : Int := if negative then -(n : Int) else n
    if fits value then some (Int64.ofInt value) else none
  | none => none

/-! ## Reals -/

/-- A decimal number `digits * 10 ^ exponent`, or its opposite. -/
structure Decimal where
  negative : Bool
  digits : Nat
  exponent : Int
deriving DecidableEq, Repr

/-- The exponent written after the digits; none at all counts as zero. -/
def exponent? : List UInt8 → Option Int
  | [] => some 0
  | mark :: rest =>
    if isExponentMark mark then
      let (negative, body) := splitSign rest
      (digits? body).map fun n => if negative then -(n : Int) else n
    else none

/-- The decimal number that a token denotes. -/
def decimal? (token : List UInt8) : Option Decimal :=
  let (negative, body) := splitSign token
  let whole := body.takeWhile isDigit
  let body := body.dropWhile isDigit
  let (fraction, body) := match body with
    | b :: rest =>
      if isPoint b then (rest.takeWhile isDigit, rest.dropWhile isDigit) else ([], body)
    | [] => ([], [])
  if whole.isEmpty && fraction.isEmpty then none
  else (exponent? body).map fun e =>
    ⟨negative, digitsValue (whole ++ fraction), e - fraction.length⟩

namespace Decimal

/-- The number of decimal digits of a number, at least one. -/
def width (n : Nat) : Nat := (toString n).length

/-- The bits of the number nearest to a decimal one.  A number with more than four hundred digits
before the point is beyond the largest, and one whose first digit comes more than four hundred
places after the point is nearer to zero than to the smallest; so the powers of ten that have to
be formed are bounded by the length of the token. -/
def toBits (x : Decimal) : Nat :=
  let magnitude := x.exponent + width x.digits
  let bits :=
    if x.digits = 0 || magnitude < -400 then 0
    else if 400 < magnitude then 2047 * Nat.pow 2 52
    else Binary64.nearest (x.digits * Nat.pow 10 x.exponent.toNat) (Nat.pow 10 (-x.exponent).toNat)
  if x.negative then Nat.pow 2 63 + bits else bits

/-- The real nearest to a decimal number. -/
def toFlonum (x : Decimal) : Flonum := ⟨UInt64.ofNat x.toBits⟩

end Decimal

end Number

end ArenaScheme
