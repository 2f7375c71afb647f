/-
# Arithmetic on integers and reals

A number is an integer of sixty-four bits or a real.  Integers are computed exactly: a result that
does not fit is a fault and never wraps around.  As soon as one operand is a real the operation is
carried out on reals.
-/
import ArenaScheme.Number.Numeral
import ArenaScheme.Builtin

namespace ArenaScheme

/-- A number of either type. -/
inductive Num
  | int (n : Int64)
  | real (x : Flonum)
deriving DecidableEq, Repr

/-- Why an operation has no result. -/
inductive ArithmeticFault
  | overflow
  | divisionByZero
deriving DecidableEq, Repr

namespace Num

/-- A number as an operand of a calculation on reals.  An integer counts as the real nearest to it.
-/
def toFloat : Num → Float
  | int n => n.toFloat
  | real x => x.toFloat

/-- The result of a calculation on reals. -/
def ofFloat (x : Float) : Num := real (.ofFloat x)

/-- An exact integer as a number, if it fits. -/
def ofInt? (n : Int) : Except ArithmeticFault Num :=
  if Number.fits n then .ok (int (Int64.ofInt n)) else .error .overflow

/-- Apply an operation, given for exact integers and for reals. -/
def combine (exact : Int → Int → Int) (onReals : Float → Float → Float) (a b : Num) :
    Except ArithmeticFault Num :=
  match a, b with
  | int x, int y => ofInt? (exact x.toInt y.toInt)
  | _, _ => .ok (ofFloat (onReals a.toFloat b.toFloat))

/-- The sum of two numbers. -/
def add : Num → Num → Except ArithmeticFault Num := combine (· + ·) (· + ·)

/-- The difference of two numbers. -/
def sub : Num → Num → Except ArithmeticFault Num := combine (· - ·) (· - ·)

/-- The product of two numbers. -/
def mul : Num → Num → Except ArithmeticFault Num := combine (· * ·) (· * ·)

/-- Whether a number is zero of either sign. -/
def isZero : Num → Bool
  | int n => n.toInt == 0
  | real x => x.toFloat == 0

/-- The quotient of two numbers.  It is an integer if the division is exact and the quotient fits,
otherwise a real. -/
def div (a b : Num) : Except ArithmeticFault Num :=
  if b.isZero then .error .divisionByZero
  else
    let quotient := ofFloat (a.toFloat / b.toFloat)
    match a, b with
    | int x, int y =>
      let exact := x.toInt.tdiv y.toInt
      .ok (if x.toInt.tmod y.toInt = 0 && Number.fits exact then int (Int64.ofInt exact)
        else quotient)
    | _, _ => .ok quotient

/-- The sum of some numbers. -/
def sum (ns : List Num) : Except ArithmeticFault Num := ns.foldlM add (int 0)

/-- The product of some numbers. -/
def product (ns : List Num) : Except ArithmeticFault Num := ns.foldlM mul (int 1)

/-- The opposite of one number, or the first of several less the others. -/
def difference (n : Num) : List Num → Except ArithmeticFault Num
  | [] => sub (int 0) n
  | ns => ns.foldlM sub n

/-- The reciprocal of one number, or the first of several divided by the others. -/
def quotient (n : Num) : List Num → Except ArithmeticFault Num
  | [] => div (int 1) n
  | ns => ns.foldlM div n

/-- How two numbers are ordered.  Integers are compared exactly, and what is not a number is not
ordered at all. -/
def order? (a b : Num) : Option Ordering :=
  match a, b with
  | int x, int y => some (compare x.toInt y.toInt)
  | _, _ =>
    let x := a.toFloat
    let y := b.toFloat
    if x < y then some .lt
    else if y < x then some .gt
    else if x == y then some .eq
    else none

end Num

/-- Whether a comparison holds of two numbers in that order. -/
def Comparison.admits : Comparison → Ordering → Bool
  | .equal, o => o.isEq
  | .less, o => o.isLT
  | .greater, o => o.isGT
  | .atMost, o => o.isLE
  | .atLeast, o => o.isGE

/-- Whether a comparison holds between all neighbours. -/
def Comparison.holds (relation : Comparison) : List Num → Bool
  | a :: b :: rest => (Num.order? a b).any relation.admits && relation.holds (b :: rest)
  | _ => true

end ArenaScheme
