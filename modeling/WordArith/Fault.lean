/- What can go wrong in word arithmetic, by cause.

   A fault stops the operation that meets it: an operand breaks a precondition, a
   step leaves the range of its type, or a word is divided by zero. Both checks are taken
   as active: a sum that leaves its range does not wrap, and a precondition is tested and
   not assumed. A division that tests its divisor first refuses instead, and the caller
   gets the reason. This file

   1. lists the preconditions, the step kinds and the faults, with one text for each
      (`Fault.message`);
   2. gives the refusal of a testing division and its texts (`DivisionError`), and the
      two ways in which such a division can end without a result (`Failure`);
   3. gives the end of an entry point that cannot hand a fault to its caller (`Abort`). -/
namespace WordArith

/-- The kinds of step that can leave the range of a word. -/
inductive Operation where
  | add
  | subtract
  | multiply
  | shiftLeft
  | shiftRight
deriving DecidableEq, Repr

def Operation.verb : Operation → String
  | .add => "add"
  | .subtract => "subtract"
  | .multiply => "multiply"
  | .shiftLeft => "shift left"
  | .shiftRight => "shift right"

/-- The conditions that operations state on their operands. -/
inductive Precondition where
  /-- A shift distance is below the width of a double word. -/
  | distanceBelowWide
  /-- A mask has no more bits than a word. -/
  | maskWithinWord
  /-- A mask covers at most one whole word. -/
  | maskWholeWords
  /-- A mask is a whole word or a part of one, not both. -/
  | maskOnePart
  /-- A low half has no bit above the half. -/
  | lowHalfFits
  /-- Both factors of a half product are halves. -/
  | factorsAreHalves
deriving DecidableEq, Repr

def Precondition.text : Precondition → String
  | .distanceBelowWide => "distance < 2 * WORD_BITS"
  | .maskWithinWord => "nbits <= WORD_BITS"
  | .maskWholeWords => "nbits_hi <= 1"
  | .maskOnePart => "nbits_hi == 0 || nbits_lo == 0"
  | .lowHalfFits => "vl <= HALF_WORD_MASK"
  | .factorsAreHalves => "a <= HALF_WORD_MASK && b <= HALF_WORD_MASK"

/-- The reasons for which an operation stops. -/
inductive Fault where
  | divisionByZero
  | overflow (op : Operation)
  | violated (condition : Precondition)
deriving DecidableEq, Repr

def Fault.message : Fault → String
  | .divisionByZero => "attempt to divide by zero"
  | .overflow op => "attempt to " ++ op.verb ++ " with overflow"
  | .violated condition => "assertion failed: " ++ condition.text

/-- The reasons for which a division that tests its divisor refuses. -/
inductive DivisionError where
  | divisionByZero
deriving DecidableEq, Repr

def DivisionError.message : DivisionError → String
  | .divisionByZero => "division by zero"

/-- The name of the reason. -/
def DivisionError.debugText : DivisionError → String
  | .divisionByZero => "DivisionByZero"

/-- An operation without a result has met a fault or has refused. -/
inductive Failure where
  | fault (cause : Fault)
  | refused (reason : DivisionError)
deriving DecidableEq, Repr

/-- The end of an entry point that met a fault: nothing is returned, not even the fault,
    but its cause is known. -/
structure Abort where
  cause : Fault
deriving DecidableEq, Repr

end WordArith
