import WordArith.DoubleWord

/- Shifts of double words by way of word shifts.

   A distance of a word or more moves one word to the place of the other and shifts it by
   the rest of the distance. A shorter distance shifts both words, and the bits that
   leave one of them enter the other; they are found by the opposite shift by what the
   distance lacks to a word. That shift is by a whole word when the distance is zero,
   so zero is kept apart. A distance of two words or more is no shift: it faults. This file

   1. names the word shifts that a shift is made of (`WordShifts`), so that one program
      serves every choice of them, and the choice that faults from a whole word on
      (`WordShifts.checked`);
   2. defines the cases of a shift (`byDistance`) and the three shifts on any word shifts
      (`shiftLeftBy`, `shiftRightBy`, `sshiftRightBy`);
   3. defines the shifts themselves, on the checked word shifts (`shiftLeft`, `shiftRight`,
      `sshiftRight`). -/
namespace WordArith

/-- The shifts of words by a distance, in the monad of their effects. -/
structure WordShifts (m : Type → Type) where
  left : Word → Nat → m Word
  right : Word → Nat → m Word
  /-- The shift to the right that copies the sign bit. -/
  signedRight : Word → Nat → m Word

/-- Word shifts that fault from a distance of a word on. -/
def WordShifts.checked : WordShifts Checked :=
  ⟨Checked.shiftLeft, Checked.shiftRight, Checked.sshiftRight⟩

namespace DoubleWord

variable {o : WordOrder}

section AnyWordShifts

variable {m : Type → Type} [Monad m] [MonadLiftT Checked m]

/-- The cases of a shift. From a word on, `long` takes over with what the distance exceeds a word
    by, below that `short` with what it lacks to a word. -/
def byDistance (d : DoubleWord o) (distance : Nat) (long short : Nat → m (DoubleWord o)) :
    m (DoubleWord o) := do
  Checked.require (distance < 2 * wordBits) .distanceBelowWide
  if distance = 0 then
    return d
  else if wordBits ≤ distance then
    long (← Checked.subCount distance wordBits)
  else
    short (← Checked.subCount wordBits distance)

/-- Multiplication by a power of two; zeros enter from the right. -/
def shiftLeftBy (word : WordShifts m) (d : DoubleWord o) (distance : Nat) : m (DoubleWord o) :=
  d.byDistance distance
    (fun excess => do
      let high ← word.left d.low excess
      return .new high 0)
    (fun lack => do
      let carries ← word.right d.low lack
      let high ← word.left d.high distance
      let low ← word.left d.low distance
      return .new (high ||| carries) low)

/-- Division by a power of two; zeros enter from the left. -/
def shiftRightBy (word : WordShifts m) (d : DoubleWord o) (distance : Nat) : m (DoubleWord o) :=
  d.byDistance distance
    (fun excess => do
      let low ← word.right d.high excess
      return .new 0 low)
    (fun lack => do
      let carries ← word.left d.high lack
      let high ← word.right d.high distance
      let low ← word.right d.low distance
      return .new high (low ||| carries))

/-- Division by a power of two, rounded downwards; copies of the sign enter from the left. -/
def sshiftRightBy (word : WordShifts m) (d : DoubleWord o) (distance : Nat) : m (DoubleWord o) :=
  d.byDistance distance
    (fun excess => do
      let fill := d.high.sshiftRight (wordBits - 1)
      let low ← word.signedRight d.high excess
      return .new fill low)
    (fun lack => do
      let carries ← word.left d.high lack
      let high ← word.signedRight d.high distance
      let low ← word.right d.low distance
      return .new high (low ||| carries))

end AnyWordShifts

def shiftLeft (d : DoubleWord o) (distance : Nat) : Checked (DoubleWord o) :=
  d.shiftLeftBy .checked distance

def shiftRight (d : DoubleWord o) (distance : Nat) : Checked (DoubleWord o) :=
  d.shiftRightBy .checked distance

def sshiftRight (d : DoubleWord o) (distance : Nat) : Checked (DoubleWord o) :=
  d.sshiftRightBy .checked distance

end DoubleWord

end WordArith
