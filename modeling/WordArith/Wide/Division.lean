import WordArith.Word
import WordArith.LongDivision
import WordArith.Signed

/- Division of wide integers.

   A divisor of zero is handed to the native division of words before anything else
   happens, which faults on it, and is refused by the division that tests for it
   (`tryDivRem`). The remainder is handed over in a destination that the caller may leave
   out. This file

   1. defines the native division that stands in for the one by zero (`trap`), and shows
      that it faults on zero;
   2. defines the division with its destination (`divMod`): the destination is written
      at the end, so after a fault it holds what it held before;
   3. defines quotient and remainder alone (`div`, `mod`), the division that tests its
      divisor (`tryDivRem`), and the signed quotient and remainder on magnitudes
      (`sdiv`, `smod`). -/
namespace WordArith

/-- The value itself. What is known of it is hidden from a compiler, so that a division by it
    stays a division. -/
def blackBox {α : Type} (x : α) : α := x

namespace Wide

/-- One by the low word of the divisor, in the native division. -/
def trap (d : Wide) : Checked Wide := do
  let den := blackBox (d.setWidth 32)
  let quot ← Checked.div (1 : Word) den
  return quot.setWidth 64

theorem trap_zero : trap 0 = .error .divisionByZero := by
  have hlow : blackBox ((0 : Wide).setWidth 32) = 0 := rfl
  rw [trap, hlow, Checked.div_zero, Checked.error_bind]

/-- The quotient, and the destination afterwards: untouched after a fault, else the remainder
    if there is a destination. -/
def divMod (n d : Wide) (dest : Option Wide) : Checked Wide × Option Wide :=
  if h : d = 0 then (trap d, dest)
  else
    match ((LongDivision.start n d).align h).reduce LongDivision.addBit with
    | .ok s => (.ok s.quot, dest.map fun _ => s.num)
    | .error e => (.error e, dest)

/-- Quotient and remainder, the latter through a destination that holds zero before. -/
def divRem (n d : Wide) : Checked (Wide × Wide) :=
  match divMod n d (some 0) with
  | (.ok quot, dest) => .ok (quot, dest.getD 0)
  | (.error e, _) => .error e

def div (n d : Wide) : Checked Wide := (divMod n d none).1

def mod (n d : Wide) : Checked Wide := do
  let (_, rem) ← divRem n d
  return rem

/-- Quotient and remainder; refuses a divisor of zero. -/
def tryDivRem (n d : Wide) : Except Failure (Wide × Wide) :=
  if d = 0 then .error (.refused .divisionByZero) else (divRem n d).orFail

/-- The signed quotient, truncated towards zero. -/
def sdiv (a b : Wide) : Checked Wide := do
  let quot ← (divMod a.abs b.abs none).1
  return Signed.quotient a b quot

/-- The signed remainder, which has the sign of the dividend. -/
def smod (a b : Wide) : Checked Wide := do
  let (_, rem) ← divRem a.abs b.abs
  return Signed.remainder a rem

end Wide

end WordArith
