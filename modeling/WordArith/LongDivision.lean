import WordArith.Word

/- Binary long division on words of any width.

   The divisor is first doubled until it lies above the dividend or fills the word, and
   a marker bit is doubled along with it; then divisor and marker are halved again step
   by step, and wherever the divisor fits into what is left of the dividend it is taken
   off and the marker is noted in the quotient. This file

   1. defines the state of a division and the state it starts from (`LongDivision`,
      `start`);
   2. defines the alignment in two forms, which both test the top bit of the divisor
      before they double it. `align` needs a divisor other than zero, which then grows at
      each doubling. `alignMarked` takes every divisor and also stops when the marker has
      left the word; a zero divisor never grows, so there the marker is all that ends the
      loop;
   3. defines one round of the subtraction (`step`) for a given way of noting the
      marker, and runs the rounds until the marker is gone (`reduce`).

   The subtraction and the noting of the marker are checked steps. -/
namespace WordArith

/-- What is left of the dividend, the divisor at its present place, the marker of that
    place, and the quotient so far. -/
structure LongDivision (w : Nat) where
  num : BitVec w
  den : BitVec w
  marker : BitVec w
  quot : BitVec w
deriving DecidableEq, Repr

namespace LongDivision

variable {w : Nat}

def start (n d : BitVec w) : LongDivision w := ⟨n, d, 1, 0⟩

/-! Alignment. -/

/-- The divisor and its marker one place further up. -/
def raise (s : LongDivision w) : LongDivision w :=
  { s with den := s.den <<< 1, marker := s.marker <<< 1 }

@[simp] theorem num_raise (s : LongDivision w) : s.raise.num = s.num := rfl

@[simp] theorem den_raise (s : LongDivision w) : s.raise.den = s.den <<< 1 := rfl

@[simp] theorem marker_raise (s : LongDivision w) : s.raise.marker = s.marker <<< 1 := rfl

@[simp] theorem quot_raise (s : LongDivision w) : s.raise.quot = s.quot := rfl

/-- A divisor below the top of the word doubles without loss. -/
theorem toNat_shiftLeft_one_of_msb {x : BitVec w} (h : x.msb = false) :
    (x <<< 1).toNat = 2 * x.toNat := by
  have := BitVec.msb_eq_false_iff_two_mul_lt.mp h
  rw [BitVec.toNat_shiftLeft, Nat.shiftLeft_eq, Nat.pow_one, Nat.mul_comm,
    Nat.mod_eq_of_lt this]

theorem den_raise_ne_zero {s : LongDivision w} (h : s.den ≠ 0)
    (top : s.den &&& signMask w = 0) : s.raise.den ≠ 0 := by
  intro h0
  have h1 := congrArg BitVec.toNat h0
  rw [den_raise, toNat_shiftLeft_one_of_msb (and_signMask_eq_zero_iff.mp top)] at h1
  exact h (BitVec.eq_of_toNat_eq (by simp at h1 ⊢; omega))

/-- Doubles a divisor other than zero until it fills the word or reaches the dividend. -/
def align (s : LongDivision w) (h : s.den ≠ 0) : LongDivision w :=
  if below : s.den &&& signMask w = 0 ∧ s.den < s.num then
    s.raise.align (den_raise_ne_zero h below.1)
  else s
termination_by (~~~s.den).toNat
decreasing_by
  have top := and_signMask_eq_zero_iff.mp below.1
  have h1 := BitVec.msb_eq_false_iff_two_mul_lt.mp top
  have h2 := BitVec.toNat_pos_of_ne_zero h
  rw [den_raise, BitVec.toNat_not, BitVec.toNat_not, toNat_shiftLeft_one_of_msb top]
  omega

/-- Read from its top bit downwards, a doubled word is a halved one. -/
theorem reverse_shiftLeft_one (x : BitVec w) : (x <<< 1).reverse = x.reverse >>> 1 := by
  ext i hi
  simp [BitVec.getElem_reverse, BitVec.getMsbD_shiftLeft, BitVec.getElem_ushiftRight,
    BitVec.getLsbD_reverse, Nat.add_comm]

/-- Doubles the divisor until it reaches the dividend, its marker is gone or it fills the
    word. -/
def alignMarked (s : LongDivision w) : LongDivision w :=
  if s.den < s.num ∧ s.marker ≠ 0 ∧ s.den &&& signMask w = 0 then s.raise.alignMarked else s
termination_by s.marker.reverse.toNat
decreasing_by
  rename_i h
  have hpos := BitVec.toNat_pos_of_ne_zero (mt BitVec.reverse_eq_zero_iff.mp h.2.1)
  rw [marker_raise, reverse_shiftLeft_one, BitVec.toNat_ushiftRight, Nat.shiftRight_eq_div_pow]
  omega

theorem alignMarked_of_below {s : LongDivision w}
    (below : s.den < s.num ∧ s.marker ≠ 0 ∧ s.den &&& signMask w = 0) :
    s.alignMarked = s.raise.alignMarked := by
  rw [alignMarked, if_pos below]

theorem alignMarked_of_not_below {s : LongDivision w}
    (hn : ¬(s.den < s.num ∧ s.marker ≠ 0 ∧ s.den &&& signMask w = 0)) : s.alignMarked = s := by
  rw [alignMarked, if_neg hn]

/-! Subtraction. -/

/-- A way of noting the marker in the quotient. -/
abbrev Note (w : Nat) := BitVec w → BitVec w → Checked (BitVec w)

/-- Sets the marker's bit. -/
def setBit : Note w := fun quot marker => .ok (quot ||| marker)

/-- Adds the marker's value. -/
def addBit : Note w := fun quot marker => Checked.add quot marker

/-- The dividend and the quotient after the divisor has been taken off where it fits. -/
def takeOff (note : Note w) (s : LongDivision w) : Checked (BitVec w × BitVec w) :=
  if s.den ≤ s.num then do
    let num ← Checked.sub s.num s.den
    let quot ← note s.quot s.marker
    return (num, quot)
  else .ok (s.num, s.quot)

/-- The next state: the given dividend and quotient, the divisor and the marker one place
    further down. -/
def lower (s : LongDivision w) (num quot : BitVec w) : LongDivision w :=
  ⟨num, s.den >>> 1, s.marker >>> 1, quot⟩

@[simp] theorem num_lower (s : LongDivision w) (num quot : BitVec w) :
    (s.lower num quot).num = num := rfl

@[simp] theorem den_lower (s : LongDivision w) (num quot : BitVec w) :
    (s.lower num quot).den = s.den >>> 1 := rfl

@[simp] theorem marker_lower (s : LongDivision w) (num quot : BitVec w) :
    (s.lower num quot).marker = s.marker >>> 1 := rfl

@[simp] theorem quot_lower (s : LongDivision w) (num quot : BitVec w) :
    (s.lower num quot).quot = quot := rfl

/-- One round: take the divisor off where it fits, then move one place down. -/
def step (note : Note w) (s : LongDivision w) : Checked (LongDivision w) := do
  let (num, quot) ← s.takeOff note
  return s.lower num quot

theorem takeOff_of_lt {note : Note w} {s : LongDivision w} (h : s.num < s.den) :
    s.takeOff note = .ok (s.num, s.quot) := if_neg (BitVec.not_le.mpr h)

/-- Where the divisor fits, only the noting of the marker can fault. -/
theorem takeOff_of_le {note : Note w} {s : LongDivision w} (h : s.den ≤ s.num) :
    s.takeOff note = (s.num - s.den, ·) <$> note s.quot s.marker := by
  rw [takeOff, if_pos h, Checked.sub_of_le h]
  rfl

theorem step_of_takeOff {note : Note w} {s : LongDivision w} {num quot : BitVec w}
    (h : s.takeOff note = .ok (num, quot)) : step note s = .ok (s.lower num quot) := by
  rw [step, h]
  rfl

/-- Rounds until the marker is gone. -/
def reduce (note : Note w) (s : LongDivision w) : Checked (LongDivision w) :=
  if s.marker = 0 then .ok s
  else do
    let (num, quot) ← s.takeOff note
    reduce note (s.lower num quot)
termination_by s.marker.toNat
decreasing_by
  rename_i h
  have hpos := BitVec.toNat_pos_of_ne_zero h
  simp only [marker_lower, BitVec.toNat_ushiftRight, Nat.shiftRight_eq_div_pow]
  omega

theorem reduce_of_marker_eq_zero {note : Note w} {s : LongDivision w} (h : s.marker = 0) :
    reduce note s = .ok s := by
  rw [reduce, if_pos h]

theorem reduce_of_marker_ne_zero {note : Note w} {s : LongDivision w} (h : s.marker ≠ 0) :
    reduce note s = (step note s >>= reduce note) := by
  rw [reduce, if_neg h, step]
  cases s.takeOff note <;> rfl

end LongDivision

end WordArith
