import WordArith.Checked

/- Words, the double-width integers built on them, and the halves of a word.

   A word is the widest integer that is handled in one piece: 32 bits, taken as a
   number from 0 up (`toNat`) or, for the signed operations, as a two's-complement
   number (`toInt`). A wide integer has twice its bits. This file

   1. fixes the widths (`wordBits`, `halfBits`), which are also the constant distances of
      shifts, the bit of the sign at any width (`signMask`, which tests the top bit:
      `and_signMask_eq_zero_iff`) and the bits of the low half (`halfMask`);
   2. builds the mask of any number of low bits (`lsbMask`);
   3. splits a word into halves and joins halves to a word (`halves`, `join`). -/
namespace WordArith

/-- The widest integer handled in one piece. -/
abbrev Word := BitVec 32

/-- An integer of two words. -/
abbrev Wide := BitVec 64

def wordBits : Nat := 32

def halfBits : Nat := 16

/-- The constant distances are below the widths they are used at. -/
example : 1 < wordBits ∧ halfBits < wordBits ∧ wordBits - 1 < wordBits ∧
    wordBits < 2 * wordBits := by
  decide

/-- The bit that makes an integer of the given width negative where it is read as signed. -/
def signMask (w : Nat) : BitVec w := (1 : BitVec w) <<< (w - 1)

/-- No bit is left under the mask where the top bit is clear. -/
theorem and_signMask_eq_zero_iff {w : Nat} {x : BitVec w} :
    x &&& signMask w = 0 ↔ x.msb = false := by
  have hmask : signMask w = BitVec.twoPow w (w - 1) := (BitVec.twoPow_eq w (w - 1)).symm
  rw [hmask, BitVec.and_twoPow, ← BitVec.msb_eq_getLsbD_last]
  cases w with
  | zero => simp [BitVec.eq_nil x]
  | succ n => cases x.msb <;> simp

namespace Word

/-- The bits of the low half. -/
def halfMask : Word := 0xffff

/-- The word with the given number of low bits set. A full word cannot be reached by a shift
    below the width, so whole words and the rest of the bits have a mask each. -/
def lsbMask (bits : Nat) : Checked Word := do
  Checked.require (bits ≤ wordBits) .maskWithinWord
  let part := bits % wordBits
  let whole := bits / wordBits
  Checked.require (whole ≤ 1) .maskWholeWords
  Checked.require (whole = 0 ∨ part = 0) .maskOnePart
  let power ← Checked.shiftLeft (1 : Word) part
  let partMask ← Checked.sub power 1
  return partMask ||| (0 - BitVec.ofNat 32 whole)

/-- The mask of the low half is the mask of as many bits as a half has. -/
theorem lsbMask_halfBits : lsbMask halfBits = .ok halfMask := rfl

/-- The upper and the lower half, in this order. -/
def halves (v : Word) : Word × Word := (v >>> halfBits, v &&& halfMask)

/-- The word of an upper and a lower half. The lower must be a half; of the upper, the bits
    above a half are dropped. -/
def join (high low : Word) : Checked Word := do
  Checked.require (low ≤ halfMask) .lowHalfFits
  return high <<< halfBits ||| low

end Word

end WordArith
