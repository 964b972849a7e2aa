import WordArith.Word

/- Multiplication of words by shifting and adding, truncated to a word.

   The factor is read from its lowest bit upwards while the addend doubles, so at bit
   `j` the addend is the other operand times `2 ^ j`. This file

   1. defines the state of the loop and one round of it (`ShiftAdd`, `ShiftAdd.step`);
   2. runs the rounds until no bit of the factor is left (`ShiftAdd.run`): a round
      halves the factor, which bounds their number by the place of its top bit;
   3. defines the product as the run from an empty result (`Word.mul`).

   Sums and doublings wrap. The result does not depend on that, because a product
   modulo `2 ^ 32` depends on the operands modulo `2 ^ 32` only. -/
namespace WordArith

/-- The result so far and the two operands of the product still to be added to it. -/
structure ShiftAdd where
  result : Word
  addend : Word
  factor : Word
deriving DecidableEq, Repr

namespace ShiftAdd

/-- One round: the addend counts if the lowest bit of the factor is set. -/
def step (s : ShiftAdd) : ShiftAdd where
  result := if s.factor &&& 1 ≠ 0 then s.result + s.addend else s.result
  addend := s.addend <<< 1
  factor := s.factor >>> 1

theorem toNat_factor_step (s : ShiftAdd) : s.step.factor.toNat = s.factor.toNat / 2 := by
  simp [step, Nat.shiftRight_eq_div_pow]

/-- The result once no bit of the factor is left. -/
def run (s : ShiftAdd) : Word := if s.factor = 0 then s.result else s.step.run
termination_by s.factor.toNat
decreasing_by
  rename_i h
  have : s.factor.toNat ≠ 0 := fun h0 => h (BitVec.eq_of_toNat_eq h0)
  rw [toNat_factor_step]
  omega

theorem run_of_factor_eq_zero {s : ShiftAdd} (h : s.factor = 0) : s.run = s.result := by
  rw [run, if_pos h]

theorem run_of_factor_ne_zero {s : ShiftAdd} (h : s.factor ≠ 0) : s.run = s.step.run := by
  rw [run, if_neg h]

end ShiftAdd

/-- The product of two words, truncated to a word. -/
def Word.mul (a b : Word) : Word := ShiftAdd.run ⟨0, a, b⟩

end WordArith
