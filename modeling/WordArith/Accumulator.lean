import WordArith.Word.ShiftAdd
import WordArith.Word.Division
import WordArith.DoubleWord.Product
import WordArith.DoubleWord.Shift
import WordArith.Wide.Product
import WordArith.Wide.Division

/- Runs of operations on an accumulator.

   The accumulator is a double word; a step replaces it by the result of one operation
   on it, and a step that ends without a result leaves it as it is. How a double word is
   erased is not settled here: every run takes its way of erasing (`erase`). This file

   1. lists the steps (`Step`) and defines the result of each (`Step.apply`);
   2. defines the run of a list of steps (`trace`) and the run with its start in front
      (`history`). -/
namespace WordArith

/-- One operation on the accumulator. -/
inductive Step where
  /-- The truncated product with a wide integer. -/
  | mul (x : Wide)
  | udiv (x : Wide)
  | umod (x : Wide)
  /-- The quotient by the division that tests its divisor. -/
  | tryDiv (x : Wide)
  /-- The remainder by that division. -/
  | tryMod (x : Wide)
  | sdiv (x : Wide)
  | smod (x : Wide)
  | shiftLeft (distance : Nat)
  | shiftRight (distance : Nat)
  | sshiftRight (distance : Nat)
  /-- The full product of the two words. -/
  | mulWords
  /-- The full product of the low word with a word. -/
  | mulWide (w : Word)
  /-- The truncated product of each word with a word. -/
  | mulEach (w : Word)
  /-- Quotient and remainder of the low word by a word, as the new high and low word. -/
  | divRem (w : Word)
  /-- Quotient and remainder of the high word by the low word. -/
  | divRemWords
  /-- Quotient and remainder of the low word by the division that tests its divisor. -/
  | tryDivRem (w : Word)
  /-- Signed quotient and remainder of the high word by a word. -/
  | sdivMod (w : Word)
  /-- Exchanges the words. -/
  | swap
  /-- The halves of the low word, as the new high and low word. -/
  | splitLow
  /-- The low word becomes the join of the high and the low word, the high word zero. -/
  | join
  /-- Keeps the given number of low bits of the low word, and the high word. -/
  | maskLow (bits : Nat)
  /-- Erases the accumulator. -/
  | zeroize
deriving DecidableEq, Repr

namespace Step

variable {o : WordOrder}

/-- The accumulator of a wide result. -/
def ofWide (x : Checked Wide) : Except Failure (DoubleWord o) := Checked.orFail do
  return .ofWide (← x)

/-- The result of one step. -/
def apply (erase : DoubleWord.Eraser) (acc : DoubleWord o) :
    Step → Except Failure (DoubleWord o)
  | .mul x => ofWide (Wide.mul o acc.toWide x)
  | .udiv x => ofWide (Wide.div acc.toWide x)
  | .umod x => ofWide (Wide.mod acc.toWide x)
  | .tryDiv x => do
    let (quot, _) ← Wide.tryDivRem acc.toWide x
    return .ofWide quot
  | .tryMod x => do
    let (_, rem) ← Wide.tryDivRem acc.toWide x
    return .ofWide rem
  | .sdiv x => ofWide (Wide.sdiv acc.toWide x)
  | .smod x => ofWide (Wide.smod acc.toWide x)
  | .shiftLeft k => (acc.shiftLeft k).orFail
  | .shiftRight k => (acc.shiftRight k).orFail
  | .sshiftRight k => (acc.sshiftRight k).orFail
  | .mulWords => (Word.mulWide acc.high acc.low).orFail
  | .mulWide w => (Word.mulWide acc.low w).orFail
  | .mulEach w => .ok (.new (Word.mul acc.high w) (Word.mul acc.low w))
  | .divRem w => Checked.orFail do
    let (quot, rem) ← Word.divRem acc.low w
    return .new quot rem
  | .divRemWords => Checked.orFail do
    let (quot, rem) ← Word.divRem acc.high acc.low
    return .new quot rem
  | .tryDivRem w => do
    let (quot, rem) ← Word.tryDivRem acc.low w
    return .new quot rem
  | .sdivMod w => Checked.orFail do
    let quot ← Word.sdiv acc.high w
    let rem ← Word.smod acc.high w
    return .new quot rem
  | .swap => .ok (.new acc.low acc.high)
  | .splitLow =>
    let (high, low) := Word.halves acc.low
    .ok (.new high low)
  | .join => Checked.orFail do
    let low ← Word.join acc.high acc.low
    return .new 0 low
  | .maskLow k => Checked.orFail do
    let mask ← Word.lsbMask k
    return .new acc.high (acc.low &&& mask)
  | .zeroize => .ok (erase o acc)

end Step

namespace Accumulator

variable {o : WordOrder}

/-- The accumulator after a step with the given outcome. -/
def after (acc : DoubleWord o) : Except Failure (DoubleWord o) → DoubleWord o
  | .ok next => next
  | .error _ => acc

/-- The outcomes of the steps, each taken on the accumulator the steps before it left. -/
def trace (erase : DoubleWord.Eraser) (acc : DoubleWord o) :
    List Step → List (Except Failure (DoubleWord o))
  | [] => []
  | step :: rest =>
    let outcome := step.apply erase acc
    outcome :: trace erase (after acc outcome) rest

/-- The start, then the outcomes of the steps. -/
def history (erase : DoubleWord.Eraser) (start : DoubleWord o) (steps : List Step) :
    List (Except Failure (DoubleWord o)) :=
  .ok start :: trace erase start steps

end Accumulator

end WordArith
