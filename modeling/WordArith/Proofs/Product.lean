import Mathlib
import WordArith.Word.ShiftAdd
import WordArith.Wide.Product
import WordArith.Checked.Lemmas
import WordArith.Word.Lemmas
import WordArith.DoubleWord.Lemmas

/- The three products against the products of natural numbers.

   This file

   1. shows that a round of shift-and-add keeps `result + addend * factor` modulo
      `2 ^ 32` (`ShiftAdd.value_step`), so the run ends with the product
      (`Word.mul_eq`);
   2. follows the full product through its half products (`HalfProduct`) and the two sums
      of each cross product (`Crossing`), shows that all of them stay in their words
      (`exists_partials`) and that a cross product keeps the value of the words involved
      (`Crossing.value`), so the full product is exact (`mulWide_exact`);
   3. puts both together for wide integers (`Assembled`): what their product leaves out
      are multiples of `2 ^ 64` (`mul_modEq_words`, `add_mul_modEq_low`,
      `new_add_modEq`), so it is the product modulo `2 ^ 64` (`mul_wraps`). -/
namespace WordArith

/-! ## Shift and add -/

namespace ShiftAdd

/-- What the rounds to come add up to. -/
def value (s : ShiftAdd) : Word := s.result + s.addend * s.factor

/-- A word is twice its upper bits plus its lowest bit. -/
theorem factor_eq (x : Word) : x = (x >>> 1) + (x >>> 1) + (x &&& 1) := by
  have hx := x.isLt
  have hlow : (x &&& 1).toNat = x.toNat % 2 := by simp
  apply BitVec.eq_of_toNat_eq
  rw [BitVec.toNat_add, BitVec.toNat_add, BitVec.toNat_ushiftRight, hlow,
    Nat.shiftRight_eq_div_pow]
  omega

theorem shiftLeft_one_eq (x : Word) : x <<< 1 = x + x := by
  apply BitVec.eq_of_toNat_eq
  rw [BitVec.toNat_shiftLeft, BitVec.toNat_add, Nat.shiftLeft_eq]
  congr 1
  omega

theorem and_one_eq (x : Word) : x &&& 1 = if x &&& 1 ≠ 0 then 1 else 0 := by
  have hlow : (x &&& 1).toNat = x.toNat % 2 := by simp
  split
  · next h =>
    have hne : (x &&& 1).toNat ≠ 0 := fun h0 => h (BitVec.eq_of_toNat_eq h0)
    apply BitVec.eq_of_toNat_eq
    show (x &&& 1).toNat = 1
    omega
  · next h => exact not_not.mp h

/-- A round moves one term of the sum into the result. Doublings and sums wrap on both sides. -/
theorem value_step (s : ShiftAdd) : s.step.value = s.value := by
  have hfactor := factor_eq s.factor
  have hresult : s.step.result = s.result + s.addend * (s.factor &&& 1) := by
    rw [and_one_eq]
    simp only [step]
    split <;> simp
  calc s.step.value
      = s.result + s.addend * (s.factor &&& (1 : Word)) + (s.addend <<< 1) * (s.factor >>> 1) := by
        rw [value, hresult]; rfl
    _ = s.result + s.addend * ((s.factor >>> 1) + (s.factor >>> 1) + (s.factor &&& (1 : Word))) := by
        rw [shiftLeft_one_eq]; ring
    _ = s.value := by rw [← hfactor]; rfl

theorem run_eq_value (s : ShiftAdd) : s.run = s.value := by
  fun_induction run s with
  | case1 s h => simp [value, h]
  | case2 s h ih => rw [ih, value_step]

end ShiftAdd

theorem Word.mul_eq (a b : Word) : Word.mul a b = a * b := by
  rw [Word.mul, ShiftAdd.run_eq_value]
  simp [ShiftAdd.value]

/-! ## The full product -/

namespace Word

/-- The four half products, each at its place, add up to the product. -/
theorem mul_eq_halves (a b : Word) : a.toNat * b.toNat =
    2 ^ 32 * ((halves a).1.toNat * (halves b).1.toNat) +
      2 ^ 16 * ((halves b).1.toNat * (halves a).2.toNat) +
      ((halves a).2.toNat * (halves b).2.toNat +
        2 ^ 16 * ((halves a).1.toNat * (halves b).2.toNat)) := by
  conv => lhs; rw [toNat_eq_halves a, toNat_eq_halves b]
  ring

theorem le_halfMask {x : Word} (h : x.toNat < 2 ^ 16) : x ≤ halfMask :=
  BitVec.le_def.mpr (Nat.le_of_lt_succ h)

/-- A product of halves leaves room for a half and a carry. -/
theorem half_mul_half_le {x y : Nat} (hx : x < 2 ^ 16) (hy : y < 2 ^ 16) : x * y ≤ 65535 * 65535 :=
  Nat.mul_le_mul (by omega) (by omega)

/-- The step gives the product of two halves as `p`, nothing lost. -/
structure HalfProduct (x y p : Word) : Prop where
  taken : mulHalves x y = .ok p
  toNat : p.toNat = x.toNat * y.toNat

theorem exists_halfProduct {x y : Word} (hx : x.toNat < 2 ^ 16) (hy : y.toNat < 2 ^ 16) :
    ∃ p, HalfProduct x y p ∧ p.toNat ≤ 65535 * 65535 := by
  have hle := half_mul_half_le hx hy
  have hlt : x.toNat * y.toNat < 2 ^ 32 := by omega
  have hvalue : (x * y).toNat = x.toNat * y.toNat := by
    rw [BitVec.toNat_mul, Nat.mod_eq_of_lt hlt]
  refine ⟨x * y, ⟨?_, hvalue⟩, hvalue ▸ hle⟩
  rw [mulHalves, Checked.require_of ⟨le_halfMask hx, le_halfMask hy⟩, Checked.ok_bind,
    Checked.mul_of_lt hlt]

/-! The halves of a word where they stand in the sums. -/

theorem toNat_lower_raised (x : Word) :
    ((x &&& halfMask) <<< halfBits).toNat = x.toNat % 2 ^ 16 * 2 ^ 16 := by
  rw [toNat_raised, toNat_lower, Nat.mod_mod]

/-- Two halves, one of them at the upper place, fit a word together. -/
theorem lower_add_raised_lt (x y : Word) :
    (x &&& halfMask).toNat + ((y &&& halfMask) <<< halfBits).toNat < 2 ^ 32 := by
  rw [toNat_lower, toNat_lower_raised]
  omega

/-- The addition of a cross product to a low word: one sum takes in the upper half of the low
    word, another puts the new upper half in its place. -/
structure Crossing (low product sum low' : Word) : Prop where
  takesIn : Checked.Sum (low >>> halfBits) product sum
  puts : Checked.Sum (low &&& halfMask) ((sum &&& halfMask) <<< halfBits) low'

section Crossing

variable {low product sum low' : Word}

theorem exists_crossing (low : Word) (hp : product.toNat ≤ 65535 * 65535) :
    ∃ sum low', Crossing low product sum low' := by
  -- The cross product leaves room for the upper half of the low word.
  have hsum : (low >>> halfBits).toNat + product.toNat < 2 ^ 32 := by
    have hlow := low.isLt
    rw [toNat_upper]
    omega
  exact ⟨_, _, .of_lt hsum, .of_lt (lower_add_raised_lt _ _)⟩

theorem Crossing.addCross_eq (h : Crossing low product sum low') :
    addCross low product = .ok (low', sum >>> halfBits) := by
  rw [addCross, h.takesIn.taken, Checked.ok_bind, h.puts.taken]
  rfl

/-- The low word and the carry hold what the low word and the cross product held. -/
theorem Crossing.value (h : Crossing low product sum low') :
    2 ^ 32 * (sum >>> halfBits).toNat + low'.toNat = low.toNat + 2 ^ 16 * product.toNat := by
  have hsum := h.takesIn.toNat
  have hlow := h.puts.toNat
  rw [toNat_upper] at hsum
  rw [toNat_lower, toNat_lower_raised] at hlow
  rw [toNat_upper]
  omega

end Crossing

/-- The words that a full product goes through: its half products, for each of the cross products
    the sum that takes it in and the low word afterwards, and the high word before and after the
    high by high product is added. -/
structure Partials where
  lowLow : Word
  highLow : Word
  lowHigh : Word
  highHigh : Word
  sum₁ : Word
  low₁ : Word
  sum₂ : Word
  low₂ : Word
  carries : Word
  high : Word

/-- The words of the product of `a` and `b`. No half product and no sum leaves its word. -/
structure Partials.Of (s : Partials) (a b : Word) : Prop where
  lowLow : HalfProduct (halves a).2 (halves b).2 s.lowLow
  highLow : HalfProduct (halves a).1 (halves b).2 s.highLow
  lowHigh : HalfProduct (halves b).1 (halves a).2 s.lowHigh
  highHigh : HalfProduct (halves a).1 (halves b).1 s.highHigh
  first : Crossing s.lowLow s.highLow s.sum₁ s.low₁
  second : Crossing s.low₁ s.lowHigh s.sum₂ s.low₂
  carries : Checked.Sum (s.sum₁ >>> halfBits) (s.sum₂ >>> halfBits) s.carries
  high : Checked.Sum s.carries s.highHigh s.high

/-- Once both cross products are added, the carries, the high by high product and the low word
    make up the product. -/
theorem mul_eq_of_crossings {a b ll hl lh hh sum₁ low₁ sum₂ low₂ : Word}
    (hll : HalfProduct (halves a).2 (halves b).2 ll)
    (hhl : HalfProduct (halves a).1 (halves b).2 hl)
    (hlh : HalfProduct (halves b).1 (halves a).2 lh)
    (hhh : HalfProduct (halves a).1 (halves b).1 hh)
    (h₁ : Crossing ll hl sum₁ low₁) (h₂ : Crossing low₁ lh sum₂ low₂) :
    a.toNat * b.toNat =
      ((sum₁ >>> halfBits).toNat + (sum₂ >>> halfBits).toNat + hh.toNat) * 2 ^ 32 + low₂.toNat := by
  have hval₁ := h₁.value
  have hval₂ := h₂.value
  rw [mul_eq_halves, ← hll.toNat, ← hhl.toNat, ← hlh.toNat, ← hhh.toNat]
  omega

theorem exists_partials (a b : Word) : ∃ s : Partials, s.Of a b := by
  have hal := halves_snd_lt a
  have hah := halves_fst_lt a
  have hbl := halves_snd_lt b
  have hbh := halves_fst_lt b
  obtain ⟨ll, hll, -⟩ := exists_halfProduct hal hbl
  obtain ⟨hl, hhl, hlt₁⟩ := exists_halfProduct hah hbl
  obtain ⟨lh, hlh, hlt₂⟩ := exists_halfProduct hbh hal
  obtain ⟨hh, hhh, -⟩ := exists_halfProduct hah hbh
  obtain ⟨sum₁, low₁, h₁⟩ := exists_crossing ll hlt₁
  obtain ⟨sum₂, low₂, h₂⟩ := exists_crossing low₁ hlt₂
  -- The words add up to the product, which bounds the high word.
  have hsplit := mul_eq_of_crossings hll hhl hlh hhh h₁ h₂
  have hproduct : a.toNat * b.toNat < 2 ^ 32 * 2 ^ 32 := Nat.mul_lt_mul'' a.isLt b.isLt
  have hcarries : Checked.Sum (sum₁ >>> halfBits) (sum₂ >>> halfBits) _ := .of_lt (by omega)
  have hhigh : Checked.Sum _ hh _ := .of_lt (by rw [hcarries.toNat]; omega)
  exact ⟨⟨ll, hl, lh, hh, sum₁, low₁, sum₂, low₂, _, _⟩,
    hll, hhl, hlh, hhh, h₁, h₂, hcarries, hhigh⟩

section Partials

variable {s : Partials} {a b : Word} (h : s.Of a b)
include h

theorem Partials.Of.value (o : WordOrder) :
    (.new s.high s.low₂ : DoubleWord o).toWide.toNat = a.toNat * b.toNat := by
  rw [DoubleWord.toNat_toWide, DoubleWord.high_new, DoubleWord.low_new, h.high.toNat,
    h.carries.toNat]
  exact (mul_eq_of_crossings h.lowLow h.highLow h.lowHigh h.highHigh h.first h.second).symm

theorem Partials.Of.mulWide_eq (o : WordOrder) :
    mulWide a b = .ok (.new s.high s.low₂ : DoubleWord o) := by
  simp only [mulWide, h.lowLow.taken, h.highLow.taken, h.lowHigh.taken, h.highHigh.taken,
    h.first.addCross_eq, h.second.addCross_eq, h.carries.taken, h.high.taken, Checked.ok_bind]
  rfl

end Partials

theorem mulWide_value {o : WordOrder} (a b : Word) :
    ∃ p : DoubleWord o, mulWide a b = .ok p ∧ p.toWide.toNat = a.toNat * b.toNat := by
  obtain ⟨s, hs⟩ := exists_partials a b
  exact ⟨_, hs.mulWide_eq o, hs.value o⟩

/-- The full product is exact: every half product and every sum on the way to it stays in its
    word, and under both orders of storage the result has the same high and the same low word. -/
theorem mulWide_exact (a b : Word) : ∃ s : Partials, s.Of a b ∧ ∀ o : WordOrder,
    ∃ p : DoubleWord o, mulWide a b = .ok p ∧ p.high = s.high ∧ p.low = s.low₂ ∧
      p.toWide.toNat = a.toNat * b.toNat := by
  obtain ⟨s, hs⟩ := exists_partials a b
  refine ⟨s, hs, fun o => ⟨.new s.high s.low₂, hs.mulWide_eq o, ?_, ?_, hs.value o⟩⟩
  · exact DoubleWord.high_new _ _
  · exact DoubleWord.low_new _ _

/-- Twice the width holds every product of words. -/
theorem toNat_setWidth_mul (a b : Word) :
    (a.setWidth 64 * b.setWidth 64).toNat = a.toNat * b.toNat := by
  have hproduct : a.toNat * b.toNat < 2 ^ 32 * 2 ^ 32 := Nat.mul_lt_mul'' a.isLt b.isLt
  rw [BitVec.toNat_mul, toNat_setWidth, toNat_setWidth]
  exact Nat.mod_eq_of_lt hproduct

theorem mulWide_eq {o : WordOrder} (a b : Word) :
    mulWide a b = .ok (.ofWide (a.setWidth 64 * b.setWidth 64) : DoubleWord o) := by
  obtain ⟨p, hp, hpv⟩ := mulWide_value (o := o) a b
  have hvalue : p.toWide = a.setWidth 64 * b.setWidth 64 := by
    apply BitVec.eq_of_toNat_eq
    rw [hpv, toNat_setWidth_mul]
  rw [hp, ← hvalue, DoubleWord.ofWide_toWide]

end Word

/-! ## The product of wide integers -/

namespace Wide

open DoubleWord

variable {o : WordOrder}

/-- The high by high product lies above the wide integers. -/
theorem mul_modEq_words (x y : DoubleWord o) : x.toWide.toNat * y.toWide.toNat ≡
    x.low.toNat * y.low.toNat +
      2 ^ 32 * (x.high.toNat * y.low.toNat + x.low.toNat * y.high.toNat) [MOD 2 ^ 64] := by
  have hsplit : x.toWide.toNat * y.toWide.toNat = 2 ^ 64 * (x.high.toNat * y.high.toNat) +
      (x.low.toNat * y.low.toNat +
        2 ^ 32 * (x.high.toNat * y.low.toNat + x.low.toNat * y.high.toNat)) := by
    rw [toNat_toWide, toNat_toWide]
    ring
  rw [hsplit]
  exact Nat.ModEq.modulus_mul_add

/-- Of two products a word up, the low words are enough. -/
theorem add_mul_modEq_low (a b c d : Word) :
    2 ^ 32 * (a.toNat * b.toNat + c.toNat * d.toNat) ≡
      2 ^ 32 * ((Word.mul a b).toNat + (Word.mul c d).toNat) [MOD 2 ^ 64] := by
  have hcut : ∀ x y : Word, x.toNat * y.toNat ≡ (Word.mul x y).toNat [MOD 2 ^ 32] := by
    intro x y
    rw [Word.mul_eq, BitVec.toNat_mul]
    exact (Nat.mod_modEq _ _).symm
  exact ((hcut a b).add (hcut c d)).mul_left' (2 ^ 32)

/-- What a sum into the high word loses is a multiple of `2 ^ 64`. -/
theorem new_add_modEq (high low c d : Word) :
    (new (high + (c + d)) low : DoubleWord o).toWide.toNat ≡
      (new high low : DoubleWord o).toWide.toNat + 2 ^ 32 * (c.toNat + d.toNat) [MOD 2 ^ 64] := by
  have hwrap : (high + (c + d)).toNat ≡ high.toNat + (c.toNat + d.toNat) [MOD 2 ^ 32] := by
    rw [BitVec.toNat_add, BitVec.toNat_add]
    exact (Nat.mod_modEq _ _).trans ((Nat.mod_modEq _ _).add_left _)
  calc (new (high + (c + d)) low : DoubleWord o).toWide.toNat
      = 2 ^ 32 * (high + (c + d)).toNat + low.toNat := by
        rw [toNat_toWide, high_new, low_new, Nat.mul_comm]
    _ ≡ 2 ^ 32 * (high.toNat + (c.toNat + d.toNat)) + low.toNat [MOD 2 ^ 64] :=
        (hwrap.mul_left' (2 ^ 32)).add_right _
    _ = (new high low : DoubleWord o).toWide.toNat + 2 ^ 32 * (c.toNat + d.toNat) := by
        rw [toNat_toWide, high_new, low_new]
        ring

/-- The product `r` of the wide integers of `x` and `y`: the full product `p` of their low words
    with the two cut-off cross products added to its high word. Each of the three things left out
    is a multiple of `2 ^ 64`. -/
structure Assembled (x y p : DoubleWord o) (r : Wide) : Prop where
  lowProduct : Word.mulWide x.low y.low = .ok p
  lowProduct_exact : p.toWide.toNat = x.low.toNat * y.low.toNat
  words : ofWide r =
    (new (p.high + (Word.mul x.high y.low + Word.mul x.low y.high)) p.low : DoubleWord o)
  /-- The high by high product is left out. -/
  noHighProduct : x.toWide.toNat * y.toWide.toNat ≡ x.low.toNat * y.low.toNat +
    2 ^ 32 * (x.high.toNat * y.low.toNat + x.low.toNat * y.high.toNat) [MOD 2 ^ 64]
  /-- The high words of the cross products are left out. -/
  lowCrosses : 2 ^ 32 * (x.high.toNat * y.low.toNat + x.low.toNat * y.high.toNat) ≡
    2 ^ 32 * ((Word.mul x.high y.low).toNat + (Word.mul x.low y.high).toNat) [MOD 2 ^ 64]
  /-- The carries out of the high word are left out. -/
  noCarries : r.toNat ≡ p.toWide.toNat +
    2 ^ 32 * ((Word.mul x.high y.low).toNat + (Word.mul x.low y.high).toNat) [MOD 2 ^ 64]

theorem exists_assembled (x y : DoubleWord o) : ∃ p r, Assembled x y p r := by
  obtain ⟨p, hp, hpv⟩ := Word.mulWide_value (o := o) x.low y.low
  refine ⟨p, (new (p.high + (Word.mul x.high y.low + Word.mul x.low y.high)) p.low :
    DoubleWord o).toWide, hp, hpv, ofWide_toWide _, mul_modEq_words x y, add_mul_modEq_low _ _ _ _,
    ?_⟩
  have hsums := new_add_modEq (o := o) p.high p.low (Word.mul x.high y.low) (Word.mul x.low y.high)
  rwa [new_high_low] at hsums

theorem Assembled.mul_eq {a b r : Wide} {p : DoubleWord o}
    (h : Assembled (ofWide a) (ofWide b) p r) : Wide.mul o a b = .ok r := by
  have hr := congrArg DoubleWord.toWide h.words
  rw [toWide_ofWide] at hr
  rw [Wide.mul, h.lowProduct, Checked.ok_bind, hr]
  rfl

/-- So nothing is lost modulo `2 ^ 64`. -/
theorem Assembled.toNat_eq {x y p : DoubleWord o} {r : Wide} (h : Assembled x y p r) :
    r.toNat = x.toWide.toNat * y.toWide.toNat % 2 ^ 64 := by
  have hmod : r.toNat ≡ x.toWide.toNat * y.toWide.toNat [MOD 2 ^ 64] :=
    calc r.toNat
      _ ≡ p.toWide.toNat +
          2 ^ 32 * ((Word.mul x.high y.low).toNat + (Word.mul x.low y.high).toNat) [MOD 2 ^ 64] :=
          h.noCarries
      _ ≡ x.low.toNat * y.low.toNat +
          2 ^ 32 * (x.high.toNat * y.low.toNat + x.low.toNat * y.high.toNat) [MOD 2 ^ 64] := by
          rw [h.lowProduct_exact]
          exact h.lowCrosses.symm.add_left _
      _ ≡ x.toWide.toNat * y.toWide.toNat [MOD 2 ^ 64] := h.noHighProduct.symm
  exact (Nat.mod_eq_of_lt r.isLt).symm.trans hmod

theorem mul_eq (o : WordOrder) (a b : Wide) : Wide.mul o a b = .ok (a * b) := by
  obtain ⟨p, r, h⟩ := exists_assembled (ofWide a : DoubleWord o) (ofWide b)
  have hvalue := h.toNat_eq
  rw [toWide_ofWide, toWide_ofWide, ← BitVec.toNat_mul] at hvalue
  rw [h.mul_eq, BitVec.eq_of_toNat_eq hvalue]

/-- The product wraps and loses nothing else, whatever it leaves out. -/
theorem mul_wraps (o : WordOrder) (a b : Wide) : ∃ (p : DoubleWord o) (r : Wide),
    Wide.mul o a b = .ok r ∧ r.toNat = a.toNat * b.toNat % 2 ^ 64 ∧
      Assembled (ofWide a) (ofWide b) p r := by
  obtain ⟨p, r, h⟩ := exists_assembled (ofWide a : DoubleWord o) (ofWide b)
  have hvalue := h.toNat_eq
  rw [toWide_ofWide, toWide_ofWide] at hvalue
  exact ⟨p, r, h.mul_eq, hvalue, h⟩

end Wide

end WordArith
