import Mathlib
import WordArith.DoubleWord.Conversion
import WordArith.DoubleWord.Lemmas

/- Double words stand for the wide integers, one for one.

   The storage of a double word is not part of its value: it decides which stored word is
   the high one, and every view goes through that. This file

   1. says that two ways between double words and numbers undo each other on a range of
      numbers (`RoundTrip`), so that equal numbers come from equal double words
      (`RoundTrip.decode_inj`);
   2. shows it of the wide integers and of the signed numbers in their range
      (`roundTrip_wide`, `roundTrip_int`);
   3. reads the signed value off the words (`toInt_eq`): only the high word has a sign;
   4. lists what follows for double words stored in an order (`Faithful`) and proves it for
      both orders (`faithful`). -/
namespace WordArith.DoubleWord

open Conversion (convert)

variable {o : WordOrder} {α : Type}

/-! ## There and back -/

/-- Between the numbers in `range` and the double words, `encode` and `decode` undo each other. -/
structure RoundTrip (range : Set α) (encode : α → DoubleWord o) (decode : DoubleWord o → α) :
    Prop where
  decode_mem : ∀ d, decode d ∈ range
  decode_encode : ∀ v ∈ range, decode (encode v) = v
  encode_decode : ∀ d, encode (decode d) = d

section RoundTrip

variable {range : Set α} {encode : α → DoubleWord o} {decode : DoubleWord o → α}

theorem RoundTrip.decode_inj (h : RoundTrip range encode decode) {d e : DoubleWord o} :
    decode d = decode e ↔ d = e :=
  (Function.LeftInverse.injective h.encode_decode).eq_iff

end RoundTrip

/-- Every bit pattern is a wide integer. -/
theorem roundTrip_wide : RoundTrip Set.univ (ofWide (o := o)) toWide where
  decode_mem _ := Set.mem_univ _
  decode_encode v _ := toWide_ofWide v
  encode_decode := ofWide_toWide

/-- The signed numbers that a wide integer can hold. -/
def signedRange : Set Int := Set.Ico (-2 ^ 63) (2 ^ 63)

theorem roundTrip_int : RoundTrip signedRange (ofInt (o := o)) toInt where
  decode_mem d := ⟨BitVec.le_toInt d.toWide, BitVec.toInt_lt⟩
  decode_encode v hv := by
    rw [toInt, ofInt, toWide_ofWide]
    exact BitVec.toInt_ofInt_eq_self (by decide) hv.1 hv.2
  encode_decode d := by rw [ofInt, toInt, BitVec.ofInt_toInt, ofWide_toWide]

/-! ## The value and its words -/

/-- The low word counts from zero up also under a negative high word. -/
theorem toInt_eq (d : DoubleWord o) : d.toInt = d.highSigned * 2 ^ 32 + d.low.toNat := by
  have hlow := d.low.isLt
  -- The low word is less than one unit of the high word, so it cannot change the sign.
  have hsign : 2 * (d.high.toNat * 2 ^ 32 + d.low.toNat) < 2 ^ 64 ↔ 2 * d.high.toNat < 2 ^ 32 := by
    omega
  rw [toInt, highSigned_eq, BitVec.toInt_eq_toNat_cond, BitVec.toInt_eq_toNat_cond, toNat_toWide]
  simp only [hsign]
  split
  · push_cast
    ring
  · push_cast
    ring

/-! ## Both orders -/

/-- What double words stored in the order `o` say of the numbers they stand for. -/
structure Faithful (o : WordOrder) : Prop where
  wide : RoundTrip Set.univ (ofWide (o := o)) toWide
  int : RoundTrip signedRange (ofInt (o := o)) toInt
  wideConverted : RoundTrip (Set.univ : Set Wide) (convert : Wide → DoubleWord o) convert
  intConverted : RoundTrip signedRange (convert : Int → DoubleWord o) convert
  high : ∀ h l : Word, (new h l : DoubleWord o).high = h
  low : ∀ h l : Word, (new h l : DoubleWord o).low = l
  toNat : ∀ h l : Word, (new h l : DoubleWord o).toWide.toNat = h.toNat * 2 ^ 32 + l.toNat
  toInt : ∀ h l : Word, (new h l : DoubleWord o).toInt =
    (new h l : DoubleWord o).highSigned * 2 ^ 32 + l.toNat
  highSigned : ∀ h l : Word, (new h l : DoubleWord o).highSigned = h.toInt
  /-- Equality is decided on the stored words. -/
  storedEq : ∀ d e : DoubleWord o, d == e ↔ d.words = e.words
  wideEq : ∀ d e : DoubleWord o, d == e ↔ d.toWide = e.toWide
  intEq : ∀ d e : DoubleWord o, d == e ↔ d.toInt = e.toInt

theorem faithful (o : WordOrder) : Faithful o where
  wide := roundTrip_wide
  int := roundTrip_int
  wideConverted := roundTrip_wide
  intConverted := roundTrip_int
  high := high_new
  low := low_new
  toNat h l := by rw [toNat_toWide, high_new, low_new]
  toInt h l := by rw [toInt_eq, low_new]
  highSigned h l := by rw [highSigned_eq, high_new]
  storedEq d e := by rw [words_inj, beq_iff_eq]
  wideEq d e := by rw [roundTrip_wide.decode_inj, beq_iff_eq]
  intEq d e := by rw [roundTrip_int.decode_inj, beq_iff_eq]

end WordArith.DoubleWord
