/-
# Binary floating-point numbers of sixty-four bits

A finite number is a sign, a significand and a power of two.  `ofBits` takes the three apart and
`nearest` goes the other way: it rounds an exact quotient to the nearest number of the format, to
the one with the even significand if two are equally near, and to infinity beyond the largest.
-/
import ArenaScheme.Number.Rounding

namespace ArenaScheme

namespace Number

/-- What the sixty-four bits stand for. -/
inductive Binary64
  | nan
  | infinity (negative : Bool)
  /-- The number `significand * 2 ^ exponent`, or its opposite. -/
  | finite (negative : Bool) (significand : Nat) (exponent : Int)
deriving DecidableEq, Repr

namespace Binary64

/-- The exponent of the smallest positive number. -/
def leastExponent : Int := -1074

/-- Take the bits apart. -/
def ofBits (bits : Nat) : Binary64 :=
  let negative := bits / Nat.pow 2 63 % 2 == 1
  let biased := bits / Nat.pow 2 52 % Nat.pow 2 11
  let fraction := bits % Nat.pow 2 52
  if biased = 2047 then
    if fraction = 0 then infinity negative else nan
  else if biased = 0 then finite negative fraction leastExponent
  else finite negative (Nat.pow 2 52 + fraction) (leastExponent + (biased - 1 : Nat))

/-- The numerator and the denominator of `n / d * 2 ^ (-e)`. -/
def scaled (n d : Nat) (e : Int) : Nat × Nat := (n * Nat.pow 2 (-e).toNat, d * Nat.pow 2 e.toNat)

/-- The exponent at which the significand of `n / d` has fifty-three bits, but no less than the
least exponent.  The difference of the lengths of `n` and `d` is right or one too large. -/
def exponentFor (n d : Nat) : Int :=
  let guess : Int := (n.log2 : Int) - d.log2 - 52
  let (a, b) := scaled n d guess
  let e := if a < b * Nat.pow 2 52 then guess - 1 else guess
  max e leastExponent

/-- The bits of the nonnegative number nearest to `n / d`.  Counted from the smallest, the numbers
of one exponent continue those of the one before it, so a significand that is rounded up to the
next power of two needs no case of its own. -/
def nearest (n d : Nat) : Nat :=
  if n = 0 then 0
  else
    let e := exponentFor n d
    let (a, b) := scaled n d e
    let bits := (e - leastExponent).toNat * Nat.pow 2 52 + roundDiv a b
    min bits (2047 * Nat.pow 2 52)

end Binary64

end Number

end ArenaScheme
