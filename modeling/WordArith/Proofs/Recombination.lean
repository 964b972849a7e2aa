import Mathlib
import WordArith.Checked.Lemmas
import WordArith.Word.Lemmas
import WordArith.DoubleWord.Lemmas
import WordArith.Proofs.Product
import WordArith.Proofs.Widths
import WordArith.Proofs.Word.Division
import WordArith.Proofs.Wide.Division

/- Products restore what was divided, and divisions recover what was multiplied.

   This file

   1. shows that quotient times divisor plus remainder is the dividend again, for
      unsigned operands without a carry out of the sum (`add_udiv_mul_umod`), for signed
      ones in wrapping arithmetic (`sdiv_mul_add_srem`), and concludes that the divisions
      are undone by the library's own products (`MultipliesBack`, `multiplies_back`);
   2. takes a divisor of one word and the dividends whose high word is below it
      (`Dividend`). These are the ones whose quotient is a word
      (`toNat_udiv_lt_iff`), and they correspond one to one to the quotients and
      remainders under that divisor (`Parts`, `packing`);
   3. shows that the full product with a remainder added and the division that tests its
      divisor compute the two directions of that correspondence (`DivisionInverts`,
      `division_inverts`). -/
namespace WordArith

/-! ## Multiplying back -/

section Multiplying

variable {w : Nat}

/-- The product does not wrap, because it is at most the dividend. -/
theorem toNat_udiv_mul_add_umod (n d : BitVec w) :
    (n / d * d).toNat + (n % d).toNat = n.toNat := by
  have hlt : n.toNat / d.toNat * d.toNat < 2 ^ w :=
    Nat.lt_of_le_of_lt (Nat.div_mul_le_self _ _) n.isLt
  rw [BitVec.toNat_mul, BitVec.toNat_udiv, BitVec.toNat_umod, Nat.mod_eq_of_lt hlt]
  exact Nat.div_add_mod' _ _

theorem add_udiv_mul_umod (n d : BitVec w) : Checked.add (n / d * d) (n % d) = .ok n :=
  Checked.add_eq_ok (toNat_udiv_mul_add_umod n d)

theorem udiv_mul_add_umod (n d : BitVec w) : n / d * d + n % d = n := by
  apply BitVec.eq_of_toNat_eq
  rw [BitVec.toNat_add, toNat_udiv_mul_add_umod, Nat.mod_eq_of_lt n.isLt]

/-- The wrapped quotient of the least number by minus one is no exception: the product wraps
    back. -/
theorem sdiv_mul_add_srem (a b : BitVec w) : a.sdiv b * b + a.srem b = a := by
  apply BitVec.eq_of_toInt_eq
  calc (a.sdiv b * b + a.srem b).toInt
      = (((a.toInt.tdiv b.toInt).bmod (2 ^ w) * b.toInt).bmod (2 ^ w) +
          a.toInt.tmod b.toInt).bmod (2 ^ w) := by
        rw [BitVec.toInt_add, BitVec.toInt_mul, BitVec.toInt_sdiv, BitVec.toInt_srem]
    _ = (a.toInt.tdiv b.toInt * b.toInt + a.toInt.tmod b.toInt).bmod (2 ^ w) := by
        rw [Int.bmod_mul_bmod, Int.bmod_add_bmod]
    _ = a.toInt.bmod (2 ^ w) := by rw [Int.tdiv_mul_add_tmod]
    _ = a.toInt := BitVec.toInt_bmod_cancel a

end Multiplying

/-- Under a divisor of zero the quotient has no part in the product. -/
theorem Word.add_quotient_mul_umod (n d : Word) :
    Checked.add (quotient n d * d) (n % d) = .ok n := by
  by_cases hd : d = 0
  · subst hd
    apply Checked.add_eq_ok
    simp
  · rw [quotient_of_ne_zero hd]
    exact add_udiv_mul_umod n d

/-- Each division is undone by the product of the same width. -/
structure MultipliesBack (o : WordOrder) : Prop where
  wide : ∀ n d : Wide, d ≠ 0 → ∃ q r p, Wide.div n d = .ok q ∧ Wide.mod n d = .ok r ∧
    Wide.mul o q d = .ok p ∧ Checked.add p r = .ok n
  signedWide : ∀ a b : Wide, b ≠ 0 → ∃ q r p, Wide.sdiv a b = .ok q ∧ Wide.smod a b = .ok r ∧
    Wide.mul o q b = .ok p ∧ p + r = a
  word : ∀ n d : Word, ∃ q r, Word.divRem n d = .ok (q, r) ∧
    Checked.add (Word.mul q d) r = .ok n
  signedWord : ∀ a b : Word, ∃ q r, Word.sdiv a b = .ok q ∧ Word.smod a b = .ok r ∧
    Word.mul q b + r = a

theorem multiplies_back (o : WordOrder) : MultipliesBack o where
  wide n d hd := by
    refine ⟨n / d, n % d, n / d * d, ?_, ?_, Wide.mul_eq o _ _, add_udiv_mul_umod n d⟩
    · exact Wide.div_of_ne_zero n hd
    · exact Wide.mod_of_ne_zero n hd
  signedWide a b hb := by
    refine ⟨BitVec.sdiv a b, BitVec.srem a b, _, ?_, ?_, Wide.mul_eq o _ _,
      sdiv_mul_add_srem a b⟩
    · exact Wide.sdiv_of_ne_zero a hb
    · exact Wide.smod_of_ne_zero a hb
  word n d := by
    refine ⟨Word.quotient n d, n % d, Word.divRem_eq n d, ?_⟩
    rw [Word.mul_eq, Word.add_quotient_mul_umod]
  signedWord a b := by
    refine ⟨_, _, Word.sdiv_eq a b, Word.smod_eq a b, ?_⟩
    rw [Word.mul_eq]
    split
    · next h =>
      obtain ⟨rfl, rfl⟩ := h
      rfl
    · exact sdiv_mul_add_srem a b

/-! ## Quotients and remainders under a divisor of one word -/

/-- A quotient and a remainder under the divisor. -/
@[ext]
structure Parts (b : Word) where
  quot : Word
  rem : Word
  rem_lt : rem < b

/-- A dividend whose high word is below the divisor. -/
@[ext]
structure Dividend (o : WordOrder) (b : Word) where
  value : Wide
  high_lt : (DoubleWord.ofWide value : DoubleWord o).high < b

section Packing

variable {o : WordOrder} {b : Word}

/-- Both sides say that the dividend is below `2 ^ 32` times the divisor. -/
theorem toNat_udiv_lt_iff (hb : b ≠ 0) (n : Wide) :
    (n / b.setWidth 64).toNat < 2 ^ 32 ↔ (DoubleWord.ofWide n : DoubleWord o).high < b := by
  have hpos := BitVec.toNat_pos_of_ne_zero hb
  rw [BitVec.lt_def, DoubleWord.toNat_high_ofWide, BitVec.toNat_udiv, Word.toNat_setWidth,
    Nat.div_lt_iff_lt_mul hpos, Nat.div_lt_iff_lt_mul (Nat.two_pow_pos 32), Nat.mul_comm]

namespace Parts

def toWide (x : Parts b) : Wide := x.quot.setWidth 64 * b.setWidth 64 + x.rem.setWidth 64

/-- The remainder does not reach the next multiple of the divisor. -/
theorem lt_mul (x : Parts b) : b.toNat * x.quot.toNat + x.rem.toNat < 2 ^ 32 * b.toNat :=
  Nat.mul_add_lt_mul_of_lt_of_lt x.quot.isLt (BitVec.lt_def.mp x.rem_lt)

/-- Neither the product nor the sum wraps. -/
theorem toNat_toWide (x : Parts b) :
    x.toWide.toNat = b.toNat * x.quot.toNat + x.rem.toNat := by
  have hlt := x.lt_mul
  have hb := b.isLt
  rw [toWide, BitVec.toNat_add, Word.toNat_setWidth_mul, Word.toNat_setWidth, Nat.mul_comm]
  exact Nat.mod_eq_of_lt (by omega)

theorem divisor_ne_zero (x : Parts b) : b ≠ 0 := by
  rintro rfl
  exact BitVec.not_lt_zero x.rem_lt

/-- The dividend with these parts. -/
def pack (x : Parts b) : Dividend o b where
  value := x.toWide
  high_lt := by
    rw [BitVec.lt_def, DoubleWord.toNat_high_ofWide, toNat_toWide,
      Nat.div_lt_iff_lt_mul (Nat.two_pow_pos 32), Nat.mul_comm b.toNat (2 ^ 32)]
    exact x.lt_mul

/-! The parts are what the division by the divisor gives. -/

theorem divisor_mul_add (x : Parts b) : (b.setWidth 64).toNat * (x.quot.setWidth 64).toNat +
    (x.rem.setWidth 64).toNat = x.toWide.toNat := by
  rw [toNat_toWide, Word.toNat_setWidth, Word.toNat_setWidth, Word.toNat_setWidth]

theorem rem_setWidth_lt (x : Parts b) : x.rem.setWidth 64 < b.setWidth 64 := by
  rw [BitVec.lt_def, Word.toNat_setWidth, Word.toNat_setWidth]
  exact x.rem_lt

theorem toWide_udiv (x : Parts b) : x.toWide / b.setWidth 64 = x.quot.setWidth 64 := by
  have hlt := x.rem_setWidth_lt
  have hpos : 0 < b.setWidth 64 := BitVec.lt_def.mpr (Nat.lt_of_le_of_lt (Nat.zero_le _) hlt)
  exact BitVec.udiv_eq_of_mul_add_toNat hpos hlt x.divisor_mul_add

theorem toWide_umod (x : Parts b) : x.toWide % b.setWidth 64 = x.rem.setWidth 64 :=
  BitVec.umod_eq_of_mul_add_toNat x.rem_setWidth_lt x.divisor_mul_add

/-- The full product and the sum with the remainder give the dividend. -/
theorem add_mulWide (x : Parts b) : ∃ p : DoubleWord o, Word.mulWide x.quot b = .ok p ∧
    Checked.add p.toWide (x.rem.setWidth 64) = .ok x.toWide := by
  refine ⟨_, Word.mulWide_eq x.quot b, ?_⟩
  apply Checked.add_eq_ok
  rw [DoubleWord.toWide_ofWide, Word.toNat_setWidth_mul, Word.toNat_setWidth, toNat_toWide,
    Nat.mul_comm]

theorem tryDivRem_toWide (x : Parts b) : Wide.tryDivRem x.toWide (b.setWidth 64) =
    .ok (x.quot.setWidth 64, x.rem.setWidth 64) := by
  have hwide : b.setWidth 64 ≠ 0 := setWidth_ne_zero (by decide) x.divisor_ne_zero
  rw [Wide.tryDivRem_of_ne_zero _ hwide, toWide_udiv, toWide_umod]

end Parts

/-- A wide integer that fits a word is the extension of a word. -/
theorem setWidth_setWidth_of_lt {x : Wide} (h : x.toNat < 2 ^ 32) :
    (x.setWidth 32).setWidth 64 = x := by
  apply BitVec.eq_of_toNat_eq
  rw [Word.toNat_setWidth, BitVec.toNat_setWidth, Nat.mod_eq_of_lt h]

theorem toNat_umod_lt (hb : b ≠ 0) (n : Wide) : (n % b.setWidth 64).toNat < b.toNat := by
  rw [← Word.toNat_setWidth b]
  exact LongDivision.toNat_umod_lt_of_ne_zero n (setWidth_ne_zero (by decide) hb)

namespace Dividend

theorem divisor_ne_zero (n : Dividend o b) : b ≠ 0 := by
  rintro rfl
  exact BitVec.not_lt_zero n.high_lt

theorem setWidth_quot (n : Dividend o b) :
    ((n.value / b.setWidth 64).setWidth 32).setWidth 64 = n.value / b.setWidth 64 :=
  setWidth_setWidth_of_lt ((toNat_udiv_lt_iff n.divisor_ne_zero n.value).mpr n.high_lt)

theorem setWidth_rem (n : Dividend o b) :
    ((n.value % b.setWidth 64).setWidth 32).setWidth 64 = n.value % b.setWidth 64 :=
  setWidth_setWidth_of_lt (Nat.lt_trans (toNat_umod_lt n.divisor_ne_zero n.value) b.isLt)

/-- The parts that division finds. -/
def parts (n : Dividend o b) : Parts b where
  quot := (n.value / b.setWidth 64).setWidth 32
  rem := (n.value % b.setWidth 64).setWidth 32
  rem_lt := by
    have hlt := toNat_umod_lt n.divisor_ne_zero n.value
    rw [BitVec.lt_def, BitVec.toNat_setWidth, Nat.mod_eq_of_lt (Nat.lt_trans hlt b.isLt)]
    exact hlt

theorem toWide_parts (n : Dividend o b) : n.parts.toWide = n.value := by
  rw [Parts.toWide, parts, setWidth_quot, setWidth_rem, udiv_mul_add_umod]

end Dividend

/-- Quotients and remainders under a divisor correspond to the dividends with these parts. -/
def packing (o : WordOrder) (b : Word) : Parts b ≃ Dividend o b where
  toFun := Parts.pack
  invFun := Dividend.parts
  left_inv x := by
    apply Parts.ext
    · show (x.toWide / b.setWidth 64).setWidth 32 = x.quot
      rw [Parts.toWide_udiv]
      simp
    · show (x.toWide % b.setWidth 64).setWidth 32 = x.rem
      rw [Parts.toWide_umod]
      simp
  right_inv n := Dividend.ext n.toWide_parts

end Packing

/-- Division by one word undoes the full product with a remainder added to it, and is undone by
    it. -/
structure DivisionInverts (o : WordOrder) : Prop where
  /-- No remainder below the factor makes the sum overflow, and the division finds both again. -/
  recovers : ∀ a b r : Word, r < b → ∃ (p : DoubleWord o) (n : Wide), Word.mulWide a b = .ok p ∧
    Checked.add p.toWide (r.setWidth 64) = .ok n ∧
    Wide.tryDivRem n (b.setWidth 64) = .ok (a.setWidth 64, r.setWidth 64)
  /-- A quotient that fits a word can be multiplied back at full width. It fits where the high
      word of the dividend is below the divisor. -/
  restores : ∀ (n : Wide) (b : Word), b ≠ 0 → ∃ q r, Wide.div n (b.setWidth 64) = .ok q ∧
    Wide.mod n (b.setWidth 64) = .ok r ∧
    (q.toNat < 2 ^ 32 ↔ (DoubleWord.ofWide n : DoubleWord o).high < b) ∧
    (q.toNat < 2 ^ 32 → ∃ p : DoubleWord o, Word.mulWide (q.setWidth 32) b = .ok p ∧
      Checked.add p.toWide r = .ok n)
  /-- The product and the sum compute the correspondence. -/
  packs : ∀ (b : Word) (x : Parts b), ∃ p : DoubleWord o, Word.mulWide x.quot b = .ok p ∧
    Checked.add p.toWide (x.rem.setWidth 64) = .ok (packing o b x).value
  /-- The division that tests its divisor computes its inverse. -/
  divides : ∀ (b : Word) (n : Dividend o b), Wide.tryDivRem n.value (b.setWidth 64) =
    .ok (((packing o b).symm n).quot.setWidth 64, ((packing o b).symm n).rem.setWidth 64)

theorem division_inverts (o : WordOrder) : DivisionInverts o where
  recovers a b r hr := by
    let x : Parts b := ⟨a, r, hr⟩
    obtain ⟨p, hp, hsum⟩ := x.add_mulWide (o := o)
    exact ⟨p, x.toWide, hp, hsum, x.tryDivRem_toWide⟩
  restores n b hb := by
    have hwide : b.setWidth 64 ≠ 0 := setWidth_ne_zero (by decide) hb
    refine ⟨n / b.setWidth 64, n % b.setWidth 64, ?_, ?_, toNat_udiv_lt_iff hb n, ?_⟩
    · exact Wide.div_of_ne_zero n hwide
    · exact Wide.mod_of_ne_zero n hwide
    · intro hfits
      let m : Dividend o b := ⟨n, (toNat_udiv_lt_iff hb n).mp hfits⟩
      obtain ⟨p, hp, hsum⟩ := m.parts.add_mulWide (o := o)
      refine ⟨p, hp, ?_⟩
      calc Checked.add p.toWide (n % b.setWidth 64)
          = Checked.add p.toWide (m.parts.rem.setWidth 64) := by rw [Dividend.parts, m.setWidth_rem]
        _ = .ok m.parts.toWide := hsum
        _ = .ok n := by rw [m.toWide_parts]
  packs b x := x.add_mulWide
  divides b n := by
    have hparts := n.parts.tryDivRem_toWide
    rwa [n.toWide_parts] at hparts

end WordArith
