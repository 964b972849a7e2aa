import WordArith.DoubleWord

/- The full product of two words, as a double word.

   The factors are split into halves, so that each of the four half products fits a
   word. The product of the low halves and the product of the high halves lie one above
   the other; the two cross products lie a half above the lower one and are added there
   one after the other, each with a carry into the high word. This file

   1. defines the half product (`mulHalves`) and the addition of a cross product
      (`addCross`);
   2. puts the full product together from them (`mulWide`).

   All sums are checked steps, although none of them leaves the word: the largest half
   product is `(2 ^ 16 - 1) ^ 2`, which leaves room for a half and a carry. -/
namespace WordArith.Word

/-- The product of two halves. -/
def mulHalves (a b : Word) : Checked Word := do
  Checked.require (a ≤ halfMask ∧ b ≤ halfMask) .factorsAreHalves
  Checked.mul a b

/-- Adds a cross product to the low word of a product, half a word up. Gives the low word and
    the carry into the high word. -/
def addCross (low product : Word) : Checked (Word × Word) := do
  let sum ← Checked.add (low >>> halfBits) product
  let low ← Checked.add (low &&& halfMask) ((sum &&& halfMask) <<< halfBits)
  return (low, sum >>> halfBits)

/-- The product of two words, nothing lost. -/
def mulWide {o : WordOrder} (a b : Word) : Checked (DoubleWord o) := do
  let (ah, al) := halves a
  let (bh, bl) := halves b
  let (low, carry) ← addCross (← mulHalves al bl) (← mulHalves ah bl)
  let (low, carry') ← addCross low (← mulHalves bh al)
  let high ← Checked.add carry carry'
  let high ← Checked.add high (← mulHalves ah bh)
  return .new high low

end WordArith.Word
