/-
# Reals with a fixed number of decimal places

A real is written with six decimal places, correctly rounded from its exact binary value.  The
sign is kept even where all digits are zero.
-/
import ArenaScheme.Number.Flonum

namespace ArenaScheme

namespace Number

/-- How many decimal places a real is written with. -/
def places : Nat := 6

/-- The digits of `n`, with zeros in front up to the given width. -/
def padded (width n : Nat) : String :=
  let digits := toString n
  String.ofList (List.replicate (width - digits.length) '0') ++ digits

/-- The number of units in the last decimal place nearest to `significand * 2 ^ exponent`. -/
def unitsOf (significand : Nat) (exponent : Int) : Nat :=
  roundDiv (significand * Nat.pow 10 places * Nat.pow 2 exponent.toNat)
    (Nat.pow 2 (-exponent).toNat)

/-- A number of units in the last decimal place, with the decimal point. -/
def unitsText (units : Nat) : String :=
  toString (units / Nat.pow 10 places) ++ "." ++ padded places (units % Nat.pow 10 places)

/-- The text of a number with a fixed number of decimal places. -/
def Binary64.toFixed : Binary64 → String
  | nan => "NaN"
  | infinity negative => if negative then "-inf" else "inf"
  | finite negative significand exponent =>
    (if negative then "-" else "") ++ unitsText (unitsOf significand exponent)

/-- The text of a real. -/
def fixedText (x : Flonum) : String := x.value.toFixed

end Number

end ArenaScheme
