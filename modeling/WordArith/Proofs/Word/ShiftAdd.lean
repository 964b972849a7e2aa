import Mathlib
import WordArith.Word.ShiftAdd
import WordArith.Proofs.Product

/- Multiplication by shifting and adding, beside the same rounds on natural numbers.

   In words the doublings drop the top bits of the addend and the sums into the result
   wrap; on natural numbers nothing is dropped. This file

   1. follows the rounds on natural numbers (`Unbounded`): each keeps the sum of the result
      and the product still to be added (`Unbounded.step_total`), so once all bits of the
      factor are read the result is the product (`Unbounded.result_iterate`);
   2. shows that cutting a state to words before a round or after it comes to the same
      (`Unbounded.cut_step`), so the words are at any time what is left of the numbers
      (`iterate_start`);
   3. counts the rounds in words (`factor_iterate_eq_zero_iff`) and ends the loop with the
      result of the last of them (`run_iterate`);
   4. concludes that the loop ends with the product cut to a word, whatever it dropped on
      the way, and that either operand may drive it (`Word.mul_truncates`). -/
namespace WordArith

namespace ShiftAdd

variable {a b : Word} {j : Nat}

/-! ## Rounds on natural numbers -/

/-- The state of the loop without a width. -/
structure Unbounded where
  result : Nat
  addend : Nat
  factor : Nat

namespace Unbounded

def start (a b : Nat) : Unbounded := ⟨0, a, b⟩

/-- One round. The sum and the doubling are exact. -/
def step (u : Unbounded) : Unbounded where
  result := if u.factor % 2 = 1 then u.result + u.addend else u.result
  addend := 2 * u.addend
  factor := u.factor / 2

/-- What the result comes to when all rounds are done. -/
def total (u : Unbounded) : Nat := u.result + u.addend * u.factor

theorem step_total (u : Unbounded) : u.step.total = u.total := by
  have hfactor := Nat.div_add_mod u.factor 2
  have hterm : u.step.result = u.result + u.addend * (u.factor % 2) := by
    rcases Nat.mod_two_eq_zero_or_one u.factor with h | h <;> simp [step, h]
  calc u.step.total
      = u.result + u.addend * (2 * (u.factor / 2) + u.factor % 2) := by
        rw [total, hterm, step]
        ring
    _ = u.total := by rw [hfactor, total]

theorem total_iterate (u : Unbounded) (j : Nat) : (step^[j] u).total = u.total := by
  induction j with
  | zero => rfl
  | succ j ih => rw [Function.iterate_succ_apply', step_total, ih]

theorem factor_iterate (u : Unbounded) (j : Nat) : (step^[j] u).factor = u.factor / 2 ^ j := by
  induction j with
  | zero => simp
  | succ j ih =>
    rw [Function.iterate_succ_apply', step, ih, Nat.div_div_eq_div_mul, Nat.pow_succ]

/-- Without a factor nothing is left to be added. -/
theorem result_iterate (a b : Nat) : (step^[b.size] (start a b)).result = a * b := by
  have htotal := total_iterate (start a b) b.size
  have hread : (step^[b.size] (start a b)).factor = 0 := by
    rw [factor_iterate]
    exact Nat.div_eq_of_lt (Nat.lt_size_self b)
  rw [total, hread, Nat.mul_zero, Nat.add_zero] at htotal
  simpa [total, start] using htotal

/-! ## Cut to words -/

/-- What is left of the numbers in words. -/
def cut (u : Unbounded) : ShiftAdd where
  result := .ofNat 32 u.result
  addend := .ofNat 32 u.addend
  factor := .ofNat 32 u.factor

/-- The lowest bit is left. -/
theorem ofNat_and_one_ne_zero_iff (n : Nat) : BitVec.ofNat 32 n &&& 1 ≠ 0 ↔ n % 2 = 1 := by
  have hlow : (BitVec.ofNat 32 n &&& (1 : Word)).toNat = n % 2 := by simp
  rw [Ne, ← BitVec.toNat_inj, hlow]
  exact Nat.mod_two_ne_zero

/-- The sum and the doubling of words wrap to what is left of the exact ones. The factor is halved,
    so of it nothing may have been cut. -/
theorem cut_step {u : Unbounded} (h : u.factor < 2 ^ 32) : u.step.cut = u.cut.step := by
  simp only [cut, step, ShiftAdd.step, ShiftAdd.mk.injEq]
  refine ⟨?_, ?_, ?_⟩
  · simp only [ofNat_and_one_ne_zero_iff]
    split
    · exact BitVec.ofNat_add _ _
    · rfl
  · rw [shiftLeft_one_eq, Nat.two_mul, BitVec.ofNat_add]
  · apply BitVec.eq_of_toNat_eq
    rw [BitVec.toNat_ushiftRight, BitVec.toNat_ofNat, BitVec.toNat_ofNat, Nat.mod_eq_of_lt h,
      Nat.mod_eq_of_lt (by omega), Nat.shiftRight_eq_div_pow, Nat.pow_one]

theorem cut_iterate {u : Unbounded} (h : u.factor < 2 ^ 32) (j : Nat) :
    (step^[j] u).cut = ShiftAdd.step^[j] u.cut := by
  induction j generalizing u with
  | zero => rfl
  | succ j ih =>
    have hhalf : u.step.factor < 2 ^ 32 := Nat.lt_of_le_of_lt (Nat.div_le_self _ 2) h
    rw [Function.iterate_succ_apply, Function.iterate_succ_apply, ih hhalf, cut_step h]

theorem cut_modEq (u : Unbounded) :
    u.cut.result.toNat + u.cut.addend.toNat * u.cut.factor.toNat ≡ u.total [MOD 2 ^ 32] := by
  rw [cut, BitVec.toNat_ofNat, BitVec.toNat_ofNat, BitVec.toNat_ofNat]
  exact (Nat.mod_modEq _ _).add ((Nat.mod_modEq _ _).mul (Nat.mod_modEq _ _))

end Unbounded

/-! ## Rounds in words -/

/-- The state in front of the first round. -/
def start (a b : Word) : ShiftAdd := ⟨0, a, b⟩

theorem iterate_start (a b : Word) (j : Nat) :
    step^[j] (start a b) = (Unbounded.step^[j] (.start a.toNat b.toNat)).cut := by
  have hcut : (Unbounded.start a.toNat b.toNat).cut = start a b := by
    simp [Unbounded.cut, Unbounded.start, start]
  have hfits : (Unbounded.start a.toNat b.toNat).factor < 2 ^ 32 := b.isLt
  rw [Unbounded.cut_iterate hfits, hcut]

/-- The rounds go on as long as there are bits of the factor to read. -/
theorem factor_iterate_eq_zero_iff (a b : Word) (j : Nat) :
    (step^[j] (start a b)).factor = 0 ↔ b.toNat.size ≤ j := by
  have hfactor : (step^[j] (start a b)).factor.toNat = b.toNat / 2 ^ j := by
    have hlt := Nat.lt_of_le_of_lt (Nat.div_le_self b.toNat (2 ^ j)) b.isLt
    rw [iterate_start, Unbounded.cut, BitVec.toNat_ofNat, Unbounded.factor_iterate]
    exact Nat.mod_eq_of_lt hlt
  rw [Nat.size_le, ← BitVec.toNat_inj, hfactor]
  exact Nat.div_eq_zero_iff_lt (Nat.two_pow_pos j)

theorem run_iterate (hj : j ≤ b.toNat.size) : (step^[j] (start a b)).run = Word.mul a b := by
  induction j with
  | zero => rfl
  | succ j ih =>
    have hgo : (step^[j] (start a b)).factor ≠ 0 := by
      rw [Ne, factor_iterate_eq_zero_iff]
      omega
    rw [Function.iterate_succ_apply', ← run_of_factor_ne_zero hgo, ih (by omega)]

/-! ## The whole loop -/

/-- The loop on `a` and `b` as it goes. -/
structure Course (a b : Word) : Prop where
  /-- The loop stops after as many rounds as `b` has bits, not sooner. -/
  stops_iff : ∀ j, (step^[j] (start a b)).factor = 0 ↔ b.toNat.size ≤ j
  rounds_le : b.toNat.size ≤ 32
  result : Word.mul a b = (step^[b.toNat.size] (start a b)).result
  /-- The result and the product of the operands as they are now come to the product of the
      operands as they were. -/
  keeps : ∀ j, (step^[j] (start a b)).result.toNat +
    (step^[j] (start a b)).addend.toNat * (step^[j] (start a b)).factor.toNat ≡
      a.toNat * b.toNat [MOD 2 ^ 32]
  /-- Nothing that was dropped is missing in the words: they are what is left of rounds that drop
      nothing. -/
  dropped : ∀ j, step^[j] (start a b) = (Unbounded.step^[j] (.start a.toNat b.toNat)).cut
  exact : (Unbounded.step^[b.toNat.size] (.start a.toNat b.toNat)).result = a.toNat * b.toNat

theorem course (a b : Word) : Course a b where
  stops_iff := factor_iterate_eq_zero_iff a b
  rounds_le := Nat.size_le.mpr b.isLt
  result := by
    have hstop := (factor_iterate_eq_zero_iff a b _).mpr (Nat.le_refl _)
    rw [← run_iterate (Nat.le_refl _), run_of_factor_eq_zero hstop]
  keeps j := by
    have hcut := (Unbounded.step^[j] (.start a.toNat b.toNat)).cut_modEq
    rw [← iterate_start, Unbounded.total_iterate] at hcut
    simpa [Unbounded.total, Unbounded.start] using hcut
  dropped := iterate_start a b
  exact := Unbounded.result_iterate a.toNat b.toNat

/-- The last state is what is left of the exact one. -/
theorem Course.toNat_mul (h : Course a b) :
    (Word.mul a b).toNat = a.toNat * b.toNat % 2 ^ 32 := by
  rw [h.result, h.dropped, Unbounded.cut, BitVec.toNat_ofNat, h.exact]

end ShiftAdd

/-- The product of two words is that of natural numbers modulo `2 ^ 32`. The loop reads the bits of
    one operand only, but either of them may be that one. -/
theorem Word.mul_truncates (a b : Word) :
    (Word.mul a b).toNat = a.toNat * b.toNat % 2 ^ 32 ∧ ShiftAdd.Course a b ∧
      Word.mul a b = Word.mul b a := by
  have hab := (ShiftAdd.course a b).toNat_mul
  have hba := (ShiftAdd.course b a).toNat_mul
  refine ⟨hab, ShiftAdd.course a b, BitVec.eq_of_toNat_eq ?_⟩
  rw [hab, hba, Nat.mul_comm]

end WordArith
