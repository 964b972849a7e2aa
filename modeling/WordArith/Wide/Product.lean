import WordArith.Word.ShiftAdd
import WordArith.DoubleWord.Product

/- Multiplication of wide integers, truncated to a wide integer.

   Of the four products of the operands' words, the low by low one is needed in full. The
   two cross products reach into the high word with their low words only, and the high by
   high one not at all, so truncated products do for the former and the latter is left
   out. The sums into the high word wrap. -/
namespace WordArith

/-- The product of two wide integers modulo `2 ^ 64`, by way of double words of the given
    order. -/
def Wide.mul (o : WordOrder) (a b : Wide) : Checked Wide := do
  let a : DoubleWord o := .ofWide a
  let b : DoubleWord o := .ofWide b
  let product : DoubleWord o ← Word.mulWide a.low b.low
  let cross := Word.mul a.high b.low + Word.mul a.low b.high
  let result : DoubleWord o := .new (product.high + cross) product.low
  return result.toWide

end WordArith
