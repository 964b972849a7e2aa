import Mathlib
import WordArith.DoubleWord

/- The value of a double word, in numbers.

   The value is the high word times `2 ^ 32` plus the low word (`toNat_toWide`), so the
   two words are its quotient and remainder by `2 ^ 32`, and double words and wide words
   determine each other (`toWide_ofWide`, `ofWide_toWide`), under either order. -/
namespace WordArith.DoubleWord

variable {o : WordOrder}

theorem toNat_toWide (d : DoubleWord o) :
    d.toWide.toNat = d.high.toNat * 2 ^ 32 + d.low.toNat := by
  have hh := d.high.isLt
  have hl := d.low.isLt
  have hor := Nat.shiftLeft_add_eq_or_of_lt hl d.high.toNat
  rw [Nat.shiftLeft_eq] at hor
  simp only [toWide, wordBits, BitVec.toNat_or, BitVec.toNat_shiftLeft, BitVec.toNat_setWidth,
    Nat.shiftLeft_eq]
  rw [Nat.mod_eq_of_lt (by omega : d.high.toNat < 2 ^ 64),
    Nat.mod_eq_of_lt (by omega : d.high.toNat * 2 ^ 32 < 2 ^ 64),
    Nat.mod_eq_of_lt (by omega : d.low.toNat < 2 ^ 64), hor]

theorem toNat_high (d : DoubleWord o) : d.high.toNat = d.toWide.toNat / 2 ^ 32 := by
  have := d.low.isLt
  rw [toNat_toWide]
  omega

theorem toNat_low (d : DoubleWord o) : d.low.toNat = d.toWide.toNat % 2 ^ 32 := by
  have := d.low.isLt
  rw [toNat_toWide]
  omega

@[simp] theorem toWide_ofWide (v : Wide) : (ofWide v : DoubleWord o).toWide = v := by
  have := v.isLt
  apply BitVec.eq_of_toNat_eq
  simp only [toNat_toWide, ofWide, high_new, low_new, wordBits, BitVec.toNat_setWidth,
    BitVec.toNat_ushiftRight, Nat.shiftRight_eq_div_pow]
  omega

@[simp] theorem ofWide_toWide (d : DoubleWord o) : ofWide d.toWide = d := by
  have hh := d.high.isLt
  have hl := d.low.isLt
  rw [← new_high_low (ofWide d.toWide), ← new_high_low d]
  congr 1 <;> apply BitVec.eq_of_toNat_eq
  · simp only [ofWide, high_new, low_new, toNat_toWide, wordBits, BitVec.toNat_setWidth,
      BitVec.toNat_ushiftRight, Nat.shiftRight_eq_div_pow]
    omega
  · simp only [ofWide, high_new, low_new, toNat_toWide, BitVec.toNat_setWidth]
    omega

theorem low_ofWide (v : Wide) : (ofWide v : DoubleWord o).low = v.setWidth 32 := low_new _ _

theorem toNat_high_ofWide (v : Wide) :
    (ofWide v : DoubleWord o).high.toNat = v.toNat / 2 ^ 32 := by
  rw [toNat_high, toWide_ofWide]

end WordArith.DoubleWord
