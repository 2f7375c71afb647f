/-
# Reals

A real is a word of the binary format, and the word is all there is to it.  So the two zeros are
different reals, and every word that stands for no number at all is a real of its own, which is
stored and handed out unchanged.

Calculations know a real only by what its word stands for.  They give the same result for all words
that stand for no number, and a result that is no number always has the same word.
-/
import ArenaScheme.Number.Binary64

namespace ArenaScheme

/-- A real. -/
structure Flonum where
  bits : UInt64
deriving DecidableEq, Repr, Inhabited

namespace Flonum

/-- What the word of a real stands for. -/
def value (x : Flonum) : Number.Binary64 := .ofBits x.bits.toNat

/-- The operand of a calculation. -/
def toFloat (x : Flonum) : Float := .ofBits x.bits

/-- The result of a calculation. -/
def ofFloat (x : Float) : Flonum := ⟨x.toBits⟩

end Flonum

end ArenaScheme
