import WordArith.Word
import WordArith.LongDivision
import WordArith.Signed

/- Division of words.

   The unsigned division takes every divisor. Zero is no exception: a divisor of zero
   ends as the loops of the long division end on it, with the dividend as remainder,
   and is refused only by the division that tests for it (`tryDivRem`). This file

   1. defines quotient and remainder together (`divRem`), one of the two as asked for
      (`divPart`), and each alone (`div`, `mod`);
   2. defines the division that tests its divisor (`tryDivRem`);
   3. defines the signed quotient and remainder on magnitudes (`sdiv`, `smod`). -/
namespace WordArith

/-- The two results of a division. -/
inductive DivisionPart where
  | quotient
  | remainder
deriving DecidableEq, Repr

def DivisionPart.debugText : DivisionPart → String
  | .quotient => "Quotient"
  | .remainder => "Remainder"

namespace Word

/-- Quotient and remainder, in this order. -/
def divRem (n d : Word) : Checked (Word × Word) := do
  let s ← (LongDivision.start n d).alignMarked.reduce LongDivision.setBit
  return (s.quot, s.num)

/-- The part of the division that is asked for. -/
def divPart (n d : Word) (part : DivisionPart) : Checked Word := do
  let (quot, rem) ← divRem n d
  match part with
  | .quotient => return quot
  | .remainder => return rem

def div (n d : Word) : Checked Word := divPart n d .quotient

def mod (n d : Word) : Checked Word := divPart n d .remainder

/-- Quotient and remainder; refuses a divisor of zero. -/
def tryDivRem (n d : Word) : Except Failure (Word × Word) :=
  if d = 0 then .error (.refused .divisionByZero) else (divRem n d).orFail

/-- The signed quotient, truncated towards zero. -/
def sdiv (a b : Word) : Checked Word := do
  let quot ← div a.abs b.abs
  return Signed.quotient a b quot

/-- The signed remainder, which has the sign of the dividend. -/
def smod (a b : Word) : Checked Word := do
  let rem ← mod a.abs b.abs
  return Signed.remainder a rem

end Word

end WordArith
