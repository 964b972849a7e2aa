import Mathlib
import WordArith.DoubleWord.Lemmas
import WordArith.Proofs.Product
import WordArith.Proofs.Word.Division
import WordArith.Proofs.Wide.Division

/- Words and wide integers agree on the operands that both have.

   Each operation exists twice, once for words and once for wide integers, and neither is
   made from the other: a word is multiplied by shifting and adding, a wide integer by
   halves; the divisions note the marker in different ways and treat a divisor of zero
   differently. This file

   1. relates quotients and remainders of extended operands to those of the operands: an
      unsigned one is extended in the same way (`setWidth_udiv`, `setWidth_umod`), and a
      signed one is found in the low bits (`setWidth_sdiv_signExtend`,
      `setWidth_srem_signExtend`), also where the quotient does not fit the operands'
      width;
   2. lists the agreements of the two widths, and the one point where they part
      (`WidthsAgree`), and proves them for both orders of storage (`widths_agree`). -/
namespace WordArith

/-! ## Extended operands -/

section Extension

variable {w v : Nat}

theorem setWidth_udiv (h : w ≤ v) (n d : BitVec w) :
    n.setWidth v / d.setWidth v = (n / d).setWidth v := by
  apply BitVec.eq_of_toNat_eq
  rw [BitVec.toNat_udiv, BitVec.toNat_setWidth_of_le h, BitVec.toNat_setWidth_of_le h,
    BitVec.toNat_setWidth_of_le h, BitVec.toNat_udiv]

theorem setWidth_umod (h : w ≤ v) (n d : BitVec w) :
    n.setWidth v % d.setWidth v = (n % d).setWidth v := by
  apply BitVec.eq_of_toNat_eq
  rw [BitVec.toNat_umod, BitVec.toNat_setWidth_of_le h, BitVec.toNat_setWidth_of_le h,
    BitVec.toNat_setWidth_of_le h, BitVec.toNat_umod]

theorem setWidth_ne_zero (h : w ≤ v) {x : BitVec w} (hx : x ≠ 0) : x.setWidth v ≠ 0 := by
  intro h0
  apply hx
  apply BitVec.eq_of_toNat_eq
  rw [← BitVec.toNat_setWidth_of_le h, h0]
  simp

theorem signExtend_ne_zero (h : w ≤ v) {x : BitVec w} (hx : x ≠ 0) : x.signExtend v ≠ 0 := by
  intro h0
  apply hx
  apply BitVec.eq_of_toInt_eq
  rw [← BitVec.toInt_signExtend_of_le h, h0]
  simp

/-- Truncation wraps the signed reading to the smaller range. -/
theorem toInt_setWidth_of_le (h : w ≤ v) (x : BitVec v) :
    (x.setWidth w).toInt = x.toInt.bmod (2 ^ w) := by
  rw [BitVec.toInt_setWidth, BitVec.toInt_eq_toNat_bmod x,
    Int.bmod_bmod_of_dvd (Nat.pow_dvd_pow 2 h)]

/-- The quotient of extended operands is wrapped once more by the truncation, as the quotient of
    the operands is at once. -/
theorem setWidth_sdiv_signExtend (h : w ≤ v) (a b : BitVec w) :
    ((a.signExtend v).sdiv (b.signExtend v)).setWidth w = a.sdiv b := by
  apply BitVec.eq_of_toInt_eq
  calc (((a.signExtend v).sdiv (b.signExtend v)).setWidth w).toInt
      = ((a.toInt.tdiv b.toInt).bmod (2 ^ v)).bmod (2 ^ w) := by
        rw [toInt_setWidth_of_le h, BitVec.toInt_sdiv, BitVec.toInt_signExtend_of_le h,
          BitVec.toInt_signExtend_of_le h]
    _ = (a.toInt.tdiv b.toInt).bmod (2 ^ w) := Int.bmod_bmod_of_dvd (Nat.pow_dvd_pow 2 h)
    _ = (a.sdiv b).toInt := (BitVec.toInt_sdiv a b).symm

/-- A remainder is in the range of the operands, so nothing is wrapped. -/
theorem setWidth_srem_signExtend (h : w ≤ v) (a b : BitVec w) :
    ((a.signExtend v).srem (b.signExtend v)).setWidth w = a.srem b := by
  apply BitVec.eq_of_toInt_eq
  calc (((a.signExtend v).srem (b.signExtend v)).setWidth w).toInt
      = (a.toInt.tmod b.toInt).bmod (2 ^ w) := by
        rw [toInt_setWidth_of_le h, BitVec.toInt_srem, BitVec.toInt_signExtend_of_le h,
          BitVec.toInt_signExtend_of_le h]
    _ = (a.srem b).toInt.bmod (2 ^ w) := by rw [BitVec.toInt_srem]
    _ = (a.srem b).toInt := BitVec.toInt_bmod_cancel _

end Extension

/-! ## The agreements -/

/-- What the operations on words and those on wide integers say of each other. -/
structure WidthsAgree (o : WordOrder) : Prop where
  /-- The full product is the product at double width. -/
  fullProduct : ∀ a b : Word, ∃ p : DoubleWord o, Word.mulWide a b = .ok p ∧
    Wide.mul o (a.setWidth 64) (b.setWidth 64) = .ok p.toWide
  /-- The low word of a product depends on the low words of the factors only. -/
  lowProduct : ∀ x y : Wide, ∃ p, Wide.mul o x y = .ok p ∧
    Word.mul (DoubleWord.ofWide x : DoubleWord o).low (DoubleWord.ofWide y : DoubleWord o).low =
      (DoubleWord.ofWide p : DoubleWord o).low
  lowFullProduct : ∀ a b : Word, ∃ p : DoubleWord o, Word.mulWide a b = .ok p ∧
    Word.mul a b = p.low
  division : ∀ n d : Word, d ≠ 0 → ∃ q r, Word.divRem n d = .ok (q, r) ∧
    Wide.tryDivRem (n.setWidth 64) (d.setWidth 64) = .ok (q.setWidth 64, r.setWidth 64)
  signedDivision : ∀ a b : Word, b ≠ 0 → ∃ q r,
    Wide.sdiv (a.signExtend 64) (b.signExtend 64) = .ok q ∧
    Wide.smod (a.signExtend 64) (b.signExtend 64) = .ok r ∧
    Word.sdiv a b = .ok (q.setWidth 32) ∧ Word.smod a b = .ok (r.setWidth 32)
  /-- The one signed quotient that a word cannot hold is cut to the least number. -/
  least : ∃ q, Wide.sdiv ((BitVec.intMin 32).signExtend 64) ((-1 : Word).signExtend 64) = .ok q ∧
    q.toInt = 2 ^ 31 ∧ q.setWidth 32 = .intMin 32 ∧
    Word.sdiv (.intMin 32) (-1) = .ok (.intMin 32)
  /-- Divisions of words have results for a divisor of zero. -/
  zeroWord : ∀ n : Word, (∃ q r, Word.divRem n 0 = .ok (q, r) ∧ Word.div n 0 = .ok q ∧
    Word.mod n 0 = .ok r) ∧ (∀ part, ∃ x, Word.divPart n 0 part = .ok x) ∧
    ∃ q r, Word.sdiv n 0 = .ok q ∧ Word.smod n 0 = .ok r
  /-- The divisions of wide integers that do not test their divisor fault there. -/
  zeroWide : ∀ (n : Wide) (dest : Option Wide),
    (Wide.divMod n 0 dest).1 = .error .divisionByZero ∧
    Wide.div n 0 = .error .divisionByZero ∧ Wide.mod n 0 = .error .divisionByZero ∧
    Wide.sdiv n 0 = .error .divisionByZero ∧ Wide.smod n 0 = .error .divisionByZero

theorem widths_agree (o : WordOrder) : WidthsAgree o where
  fullProduct a b := by
    refine ⟨_, Word.mulWide_eq a b, ?_⟩
    rw [Wide.mul_eq, DoubleWord.toWide_ofWide]
  lowProduct x y := by
    refine ⟨x * y, Wide.mul_eq o x y, ?_⟩
    rw [Word.mul_eq, DoubleWord.low_ofWide, DoubleWord.low_ofWide, DoubleWord.low_ofWide,
      BitVec.setWidth_mul _ _ (by decide)]
  lowFullProduct a b := by
    refine ⟨_, Word.mulWide_eq a b, ?_⟩
    rw [Word.mul_eq, DoubleWord.low_ofWide, BitVec.setWidth_mul _ _ (by decide)]
    simp
  division n d hd := by
    refine ⟨n / d, n % d, ?_, ?_⟩
    · rw [Word.divRem_eq, Word.quotient_of_ne_zero hd]
    · have hwide : d.setWidth 64 ≠ 0 := setWidth_ne_zero (by decide) hd
      rw [Wide.tryDivRem_of_ne_zero _ hwide, setWidth_udiv (by decide), setWidth_umod (by decide)]
  signedDivision a b hb := by
    have hwide : b.signExtend 64 ≠ 0 := signExtend_ne_zero (by decide) hb
    refine ⟨(a.signExtend 64).sdiv (b.signExtend 64), (a.signExtend 64).srem (b.signExtend 64),
      ?_, ?_, ?_, ?_⟩
    · exact Wide.sdiv_of_ne_zero _ hwide
    · exact Wide.smod_of_ne_zero _ hwide
    · rw [Word.sdiv_eq, if_neg fun h => hb h.2, setWidth_sdiv_signExtend (by decide)]
    · rw [Word.smod_eq, setWidth_srem_signExtend (by decide)]
  least := by
    refine ⟨0x80000000, ?_, ?_, ?_, ?_⟩
    · rw [Wide.sdiv_eq]; rfl
    · rfl
    · rfl
    · rw [Word.sdiv_eq]; rfl
  zeroWord n := ⟨⟨_, _, Word.divRem_eq n 0, Word.div_eq n 0, Word.mod_eq n 0⟩,
    fun part => ⟨_, Word.divPart_eq n 0 part⟩, _, _, Word.sdiv_eq n 0, Word.smod_eq n 0⟩
  zeroWide n dest := ⟨Wide.divMod_fst n 0 dest, Wide.div_eq n 0, Wide.mod_eq n 0,
    Wide.sdiv_eq n 0, Wide.smod_eq n 0⟩

end WordArith
