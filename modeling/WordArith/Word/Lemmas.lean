import Mathlib
import WordArith.Word

/- The halves of a word, in numbers: quotient and remainder by `2 ^ 16`, both below that
   and together the word; and a word as a wide integer, which is the same number. -/
namespace WordArith.Word

theorem toNat_halves_fst (v : Word) : (halves v).1.toNat = v.toNat / 2 ^ 16 := by
  simp [halves, halfBits, Nat.shiftRight_eq_div_pow]

theorem toNat_halves_snd (v : Word) : (halves v).2.toNat = v.toNat % 2 ^ 16 := by
  have := Nat.and_two_pow_sub_one_eq_mod v.toNat 16
  simpa [halves, halfMask] using this

theorem halves_fst_lt (v : Word) : (halves v).1.toNat < 2 ^ 16 := by
  have hv := v.isLt
  rw [toNat_halves_fst]
  omega

theorem halves_snd_lt (v : Word) : (halves v).2.toNat < 2 ^ 16 := by
  rw [toNat_halves_snd]
  exact Nat.mod_lt _ (by decide)

theorem toNat_eq_halves (v : Word) :
    v.toNat = (halves v).1.toNat * 2 ^ 16 + (halves v).2.toNat := by
  rw [toNat_halves_fst, toNat_halves_snd]
  omega

/-! The halves of a word in place. -/

theorem toNat_upper (x : Word) : (x >>> halfBits).toNat = x.toNat / 2 ^ 16 := toNat_halves_fst x

theorem toNat_lower (x : Word) : (x &&& halfMask).toNat = x.toNat % 2 ^ 16 := toNat_halves_snd x

/-- The upper place has room for the lower half only. -/
theorem toNat_raised (x : Word) : (x <<< halfBits).toNat = x.toNat % 2 ^ 16 * 2 ^ 16 := by
  rw [BitVec.toNat_shiftLeft, Nat.shiftLeft_eq]
  exact Nat.mul_mod_mul_right (2 ^ 16) x.toNat (2 ^ 16)

theorem toNat_setWidth (v : Word) : (v.setWidth 64).toNat = v.toNat :=
  BitVec.toNat_setWidth_of_le (by decide)

end WordArith.Word
