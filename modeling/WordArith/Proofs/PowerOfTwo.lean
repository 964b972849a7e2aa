import Mathlib
import WordArith.DoubleWord.Lemmas
import WordArith.Proofs.Product
import WordArith.Proofs.Shift
import WordArith.Proofs.Signed
import WordArith.Proofs.Word.Mask
import WordArith.Proofs.Wide.Division

/- Shifts and masks do the work of products and divisions by powers of two.

   The products and divisions go through their operands bit by bit, the shifts and masks
   take them word by word. This file

   1. splits the remainder by a power of two into remainders of the two words
      (`mod_two_pow_words`);
   2. shows that division truncated towards zero is division rounded downwards, and one
      more for a negative dividend that is no multiple of the divisor
      (`toInt_sdiv_twoPow`);
   3. lists what shifts and masks stand for (`ShiftsScale`) and proves it for both orders
      of storage (`shifts_scale`). -/
namespace WordArith

/-! ## Powers of two as divisors -/

/-- Up to a word the power divides into the low word alone; above it the low word is kept as it
    is, and the rest of the power divides into the high word. -/
theorem mod_two_pow_words (n k : Nat) : n % 2 ^ k =
    n / 2 ^ 32 % 2 ^ (max k 32 - 32) * 2 ^ 32 + n % 2 ^ 32 % 2 ^ min k 32 := by
  rcases Nat.le_total k 32 with hk | hk
  · rw [max_eq_right hk, min_eq_left hk, Nat.sub_self, Nat.pow_zero, Nat.mod_one, Nat.zero_mul,
      Nat.zero_add, Nat.mod_mod_of_dvd _ (Nat.pow_dvd_pow 2 hk)]
  · have hpow : 2 ^ k = 2 ^ 32 * 2 ^ (k - 32) := by rw [← Nat.pow_add, Nat.add_sub_cancel' hk]
    rw [max_eq_left hk, min_eq_right hk, Nat.mod_mod, hpow, Nat.mod_mul, Nat.add_comm,
      Nat.mul_comm (2 ^ 32)]

section TwoPow

variable {w k : Nat}

theorem twoPow_ne_zero (hk : k < w) : BitVec.twoPow w k ≠ 0 := by
  intro h0
  have hpos := Nat.two_pow_pos k
  rw [← BitVec.toNat_twoPow_of_lt hk, h0] at hpos
  exact absurd hpos (by simp)

/-- Below the place of the sign a power of two is what it is as a signed number. -/
theorem toInt_twoPow_of_lt (hk : k + 1 < w) : (BitVec.twoPow w k).toInt = 2 ^ k := by
  rw [BitVec.toInt_twoPow, if_neg (by omega), if_neg (by omega)]

/-- The remainder is not zero where the power does not divide, and only there the two ways of
    rounding differ. -/
theorem toInt_sdiv_twoPow (hk : k + 1 < w) (a : BitVec w) :
    (a.sdiv (.twoPow w k)).toInt =
      (a.sshiftRight k).toInt + if a.toInt < 0 ∧ a.srem (.twoPow w k) ≠ 0 then 1 else 0 := by
  have hpow := toInt_twoPow_of_lt hk
  have hpos : (0 : Int) < 2 ^ k := by positivity
  -- A divisor other than minus one has no quotient out of range.
  have hne : BitVec.twoPow w k ≠ -1 := by
    intro h
    rw [h, Signed.toInt_neg_one (by omega)] at hpow
    omega
  have hround : (a.toInt < 0 ∧ a.srem (.twoPow w k) ≠ 0) ↔
      ¬(0 ≤ a.toInt ∨ (2 : Int) ^ k ∣ a.toInt) := by
    rw [Ne, ← Signed.toInt_eq_zero_iff, BitVec.toInt_srem, hpow, ← Int.dvd_iff_tmod_eq_zero,
      not_or, not_le]
  rw [BitVec.toInt_sdiv_of_ne_or_ne a _ (Or.inr hne), hpow, Signed.toInt_sshiftRight,
    Int.tdiv_eq_ediv, Int.sign_eq_one_of_pos hpos]
  by_cases hsame : 0 ≤ a.toInt ∨ (2 : Int) ^ k ∣ a.toInt
  · rw [if_pos hsame, if_neg fun h => hround.mp h hsame]
  · rw [if_neg hsame, if_pos (hround.mpr hsame)]

end TwoPow

/-! ## What shifts and masks stand for -/

open DoubleWord

/-- Products, quotients and remainders by `2 ^ k` on wide integers, in terms of their double
    words. -/
structure ShiftsScale (o : WordOrder) : Prop where
  product : ∀ (v : Wide) (k : Nat), k < 64 → ∃ s : DoubleWord o, (ofWide v).shiftLeft k = .ok s ∧
    Wide.mul o v (.twoPow 64 k) = .ok s.toWide
  quotient : ∀ (v : Wide) (k : Nat), k < 64 → ∃ s : DoubleWord o, (ofWide v).shiftRight k = .ok s ∧
    Wide.div v (.twoPow 64 k) = .ok s.toWide
  /-- The low word keeps up to all of its bits, the high word those that `k` has beyond a word. -/
  remainder : ∀ (v : Wide) (k : Nat), k < 64 → ∃ lowMask highMask,
    Word.lsbMask (min k 32) = .ok lowMask ∧ Word.lsbMask (max k 32 - 32) = .ok highMask ∧
    Wide.mod v (.twoPow 64 k) = .ok (new ((ofWide v : DoubleWord o).high &&& highMask)
      ((ofWide v : DoubleWord o).low &&& lowMask) : DoubleWord o).toWide
  /-- Here `2 ^ k` has to be positive as a signed number, so `k` ends below the sign. -/
  signedQuotient : ∀ (a : Wide) (k : Nat), k ≤ 62 → ∃ (s : DoubleWord o) (quot rem : Wide),
    (ofInt a.toInt).sshiftRight k = .ok s ∧ Wide.sdiv a (.twoPow 64 k) = .ok quot ∧
    Wide.smod a (.twoPow 64 k) = .ok rem ∧
    quot.toInt = s.toInt + if a.toInt < 0 ∧ rem ≠ 0 then 1 else 0

theorem shifts_scale (o : WordOrder) : ShiftsScale o where
  product v k hk := by
    refine ⟨ofWide (v <<< k), ?_, ?_⟩
    · rw [shiftLeft_eq, if_pos hk, toWide_ofWide]
    · rw [Wide.mul_eq, BitVec.mul_twoPow_eq_shiftLeft, toWide_ofWide]
  quotient v k hk := by
    refine ⟨ofWide (v >>> k), ?_, ?_⟩
    · rw [shiftRight_eq, if_pos hk, toWide_ofWide]
    · rw [Wide.div_of_ne_zero v (twoPow_ne_zero hk), BitVec.udiv_twoPow_eq_of_lt hk, toWide_ofWide]
  remainder v k hk := by
    obtain ⟨lowMask, hlow, hlowv⟩ := Word.exists_lsbMask (Nat.min_le_right k 32)
    have hrest : max k 32 - 32 ≤ 32 := by omega
    obtain ⟨highMask, hhigh, hhighv⟩ := Word.exists_lsbMask hrest
    refine ⟨lowMask, highMask, hlow, hhigh, ?_⟩
    rw [Wide.mod_of_ne_zero v (twoPow_ne_zero hk)]
    refine congrArg Except.ok (BitVec.eq_of_toNat_eq ?_)
    rw [BitVec.toNat_umod, BitVec.toNat_twoPow_of_lt hk, toNat_toWide, high_new, low_new, hlowv,
      hhighv, toNat_high_ofWide, low_ofWide, BitVec.toNat_setWidth]
    exact mod_two_pow_words v.toNat k
  signedQuotient a k hk := by
    have hplace : k + 1 < 64 := by omega
    have hne : BitVec.twoPow 64 k ≠ 0 := twoPow_ne_zero (by omega)
    refine ⟨ofWide (a.sshiftRight k), BitVec.sdiv a (.twoPow 64 k), BitVec.srem a (.twoPow 64 k),
      ?_, ?_, ?_, ?_⟩
    · rw [sshiftRight_eq, if_pos (by omega), ofInt, BitVec.ofInt_toInt, toWide_ofWide]
    · exact Wide.sdiv_of_ne_zero a hne
    · exact Wide.smod_of_ne_zero a hne
    · rw [DoubleWord.toInt, toWide_ofWide]
      exact toInt_sdiv_twoPow hplace a

end WordArith
