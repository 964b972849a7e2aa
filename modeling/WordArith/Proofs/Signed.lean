import Mathlib
import WordArith.Signed

/- Words as signed numbers.

   This file

   1. shows that the sign rules turn a division of magnitudes into the truncating
      division of the operands (`quotient_abs`, `remainder_abs`). The rules hold on every
      operand: the magnitude of the least number, which is that number again, needs no
      case of its own;
   2. restates the shifts for signed numbers: products and quotients by powers of two,
      the quotients rounded downwards (`toInt_shiftLeft`, `toInt_sshiftRight`,
      `toInt_sshiftRight_eq_floor`, `toInt_ushiftRight`);
   3. restates the truncating division for signed numbers (`Truncates`,
      `truncates_sdiv_srem`). Only the quotient of the least number by minus one is out of
      range, and it wraps to the least number (`toInt_sdiv_eq_iff`). -/
namespace WordArith.Signed

variable {w : Nat}

/-! ## The sign rules -/

theorem abs_of_msb {x : BitVec w} (h : x.msb = true) : x.abs = -x := if_pos h

theorem abs_of_not_msb {x : BitVec w} (h : x.msb = false) : x.abs = x := by
  rw [BitVec.abs_eq, h]
  rfl

theorem abs_eq_zero_iff {x : BitVec w} : x.abs = 0 ↔ x = 0 := by
  rw [BitVec.abs_eq]
  split
  · exact BitVec.neg_eq_zero_iff
  · exact Iff.rfl

theorem quotient_abs (a b : BitVec w) : quotient a b (a.abs / b.abs) = a.sdiv b := by
  rw [quotient, BitVec.sdiv_eq]
  -- The four pairs of signs; a sign turns magnitudes into operands or their negations.
  cases ha : a.msb <;> cases hb : b.msb <;>
    simp [ha, hb, abs_of_msb, abs_of_not_msb]

theorem remainder_abs (a b : BitVec w) : remainder a (a.abs % b.abs) = a.srem b := by
  rw [remainder, BitVec.srem_eq]
  cases ha : a.msb <;> cases hb : b.msb <;>
    simp [ha, hb, abs_of_msb, abs_of_not_msb]

/-! ## Shifts of signed numbers -/

/-- The wrap of a product does not see whether a factor was wrapped before. -/
theorem toInt_shiftLeft (x : BitVec w) (k : Nat) :
    (x <<< k).toInt = (x.toInt * 2 ^ k).bmod (2 ^ w) := by
  rw [BitVec.toInt_shiftLeft, BitVec.toInt_eq_toNat_bmod x, Int.bmod_mul_bmod, Nat.shiftLeft_eq]
  push_cast
  rfl

theorem toInt_sshiftRight (x : BitVec w) (k : Nat) :
    (x.sshiftRight k).toInt = x.toInt / 2 ^ k := by
  rw [BitVec.toInt_sshiftRight, Int.shiftRight_eq_div_pow]
  push_cast
  rfl

/-- Towards minus infinity: the quotient is the floor of the exact one. -/
theorem toInt_sshiftRight_eq_floor (x : BitVec w) (k : Nat) :
    (x.sshiftRight k).toInt = ⌊(x.toInt : ℚ) / 2 ^ k⌋ := by
  have hfloor := Rat.floor_intCast_div_natCast x.toInt (2 ^ k)
  push_cast at hfloor
  rw [hfloor, toInt_sshiftRight]

/-- Read from zero up, a word is its signed reading modulo the range. -/
theorem toInt_emod (x : BitVec w) : x.toInt % 2 ^ w = x.toNat := by
  have hlt : (x.toNat : Int) < 2 ^ w := by exact_mod_cast x.isLt
  have h := Int.bmod_emod (x := (x.toNat : Int)) (m := 2 ^ w)
  rw [← BitVec.toInt_eq_toNat_bmod] at h
  push_cast at h
  rw [h, Int.emod_eq_of_lt (Int.natCast_nonneg _) hlt]

theorem toInt_ushiftRight (x : BitVec w) (k : Nat) :
    (x >>> k).toInt = (x.toInt % 2 ^ w / 2 ^ k).bmod (2 ^ w) := by
  rw [toInt_emod, BitVec.toInt_eq_toNat_bmod, BitVec.toNat_ushiftRight, Nat.shiftRight_eq_div_pow]
  push_cast
  rfl

/-! ## Truncating division in numbers -/

/-- Minus one, where there is a bit for the sign. -/
theorem toInt_neg_one (hw : 0 < w) : (-1 : BitVec w).toInt = -1 := by
  have hones : (-1 : BitVec w) = BitVec.allOnes w := BitVec.neg_one_eq_allOnes
  rw [hones, BitVec.toInt_allOnes, if_pos hw]

theorem toInt_eq_zero_iff {x : BitVec w} : x.toInt = 0 ↔ x = 0 := by
  rw [← BitVec.toInt_zero, BitVec.toInt_inj]
  rfl

/-- The least number by minus one has the only quotient that is out of range. -/
theorem toInt_sdiv_eq_iff (hw : 0 < w) (a b : BitVec w) :
    (a.sdiv b).toInt = a.toInt.tdiv b.toInt ↔ ¬(a = .intMin w ∧ b = -1) := by
  constructor
  · rintro hexact ⟨rfl, rfl⟩
    -- The exact quotient is `2 ^ (w - 1)`, one more than the largest number.
    have hlt := BitVec.toInt_lt (x := (BitVec.intMin w).sdiv (-1))
    rw [hexact, BitVec.toInt_intMin_of_pos hw, toInt_neg_one hw, Int.tdiv_neg, Int.tdiv_one,
      Int.neg_neg] at hlt
    exact absurd hlt (lt_irrefl _)
  · intro hn
    exact BitVec.toInt_sdiv_of_ne_or_ne a b (not_and_or.mp hn)

/-- `q` and `r` are quotient and remainder of `a` and `b` as signed numbers, the quotient
    truncated towards zero and wrapped to the width. -/
structure Truncates (a b q r : BitVec w) : Prop where
  quot : q.toInt = (a.toInt.tdiv b.toInt).bmod (2 ^ w)
  /-- One quotient is changed by the wrapping. -/
  quot_eq_iff : q.toInt = a.toInt.tdiv b.toInt ↔ ¬(a = .intMin w ∧ b = -1)
  quot_least : a = .intMin w → b = -1 → q = .intMin w
  /-- The remainder belongs to the quotient before the wrapping. -/
  rem : r.toInt = a.toInt - b.toInt * a.toInt.tdiv b.toInt
  rem_sign : r.toInt = 0 ∨ r.toInt.sign = a.toInt.sign
  rem_lt : |r.toInt| < |b.toInt|

theorem truncates_sdiv_srem (hw : 0 < w) (a : BitVec w) {b : BitVec w} (hb : b ≠ 0) :
    Truncates a b (a.sdiv b) (a.srem b) where
  quot := BitVec.toInt_sdiv a b
  quot_eq_iff := toInt_sdiv_eq_iff hw a b
  quot_least := by
    rintro rfl rfl
    exact BitVec.intMin_sdiv_neg_one
  rem := by rw [BitVec.toInt_srem, Int.tmod_def]
  rem_sign := by
    rw [BitVec.toInt_srem, Int.sign_tmod]
    by_cases hdvd : b.toInt ∣ a.toInt
    · exact Or.inl (Int.dvd_iff_tmod_eq_zero.mp hdvd)
    · exact Or.inr (if_neg hdvd)
  rem_lt := by
    have hpos : 0 < b.toInt.natAbs := Int.natAbs_pos.mpr fun h0 => hb (toInt_eq_zero_iff.mp h0)
    rw [BitVec.toInt_srem, Int.abs_eq_natAbs, Int.abs_eq_natAbs, Int.natAbs_tmod]
    exact_mod_cast Nat.mod_lt a.toInt.natAbs hpos

end WordArith.Signed
