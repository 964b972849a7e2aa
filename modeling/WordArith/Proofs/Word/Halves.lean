import Mathlib
import WordArith.Word.Lemmas
import WordArith.Proofs.Word.Mask

/- Splitting a word into halves and joining halves to a word.

   The two operands of a join are not treated alike: a lower operand above a half is a
   fault, while of the upper one the bits above a half are dropped in silence. So a word
   comes back from its halves, but of the operands of a join the upper one comes back cut
   to a half. This file

   1. shows that the halves determine the word (`halves_inj`) and reads off the value of
      two halves at their places (`toNat_placed`) which halves it has (`halves_placed`);
   2. describes the join by the halves of its result, which no word has if the lower
      operand is above a half (`join_eq_ok_iff`), and its only fault
      (`join_eq_error_iff`);
   3. concludes that splitting and joining undo each other as far as that goes
      (`halves_join_inverse`). -/
namespace WordArith.Word

variable {high low v : Word} {cause : Fault}

theorem halves_inj {u v : Word} : halves u = halves v ↔ u = v := by
  constructor
  · intro h
    apply BitVec.eq_of_toNat_eq
    rw [toNat_eq_halves u, toNat_eq_halves v, h]
  · exact congrArg halves

theorem halves_fst_le (v : Word) : (halves v).1.toNat ≤ 0xffff :=
  Nat.le_of_lt_succ (halves_fst_lt v)

theorem halves_snd_le (v : Word) : (halves v).2.toNat ≤ 0xffff :=
  Nat.le_of_lt_succ (halves_snd_lt v)

theorem and_halfMask_of_le (h : v.toNat ≤ 0xffff) : v &&& halfMask = v := by
  apply BitVec.eq_of_toNat_eq
  rw [toNat_lower]
  exact Nat.mod_eq_of_lt (Nat.lt_succ_of_le h)

/-- The lower operand does not reach the place of the upper one. -/
theorem toNat_placed (high : Word) (h : low.toNat ≤ 0xffff) :
    (high <<< halfBits ||| low).toNat = high.toNat % 2 ^ 16 * 2 ^ 16 + low.toNat := by
  have hlow : low.toNat < 2 ^ 16 := Nat.lt_succ_of_le h
  rw [BitVec.toNat_or, toNat_raised, ← Nat.shiftLeft_eq, Nat.shiftLeft_add_eq_or_of_lt hlow]

theorem halves_placed (high : Word) (h : low.toNat ≤ 0xffff) :
    halves (high <<< halfBits ||| low) = (high &&& halfMask, low) := by
  apply Prod.ext
  · apply BitVec.eq_of_toNat_eq
    rw [toNat_halves_fst, toNat_placed high h, toNat_lower]
    omega
  · apply BitVec.eq_of_toNat_eq
    rw [toNat_halves_snd, toNat_placed high h]
    show (high.toNat % 2 ^ 16 * 2 ^ 16 + low.toNat) % 2 ^ 16 = low.toNat
    omega

/-- A join is the word that has the lower operand, and of the upper the lower half, as its
    halves. -/
theorem join_eq_ok_iff : join high low = .ok v ↔ halves v = (high &&& halfMask, low) := by
  rw [join_eq]
  by_cases h : low.toNat ≤ 0xffff
  · rw [if_pos h, Except.ok.injEq, ← halves_placed high h, halves_inj, eq_comm]
  · rw [if_neg h]
    constructor
    · exact fun hjoin => absurd hjoin (by simp)
    · intro hhalves
      have hlow := halves_snd_le v
      rw [hhalves] at hlow
      exact absurd hlow h

theorem join_eq_error_iff : join high low = .error cause ↔
    0xffff < low.toNat ∧ cause = .violated .lowHalfFits := by
  rw [join_eq]
  by_cases h : low.toNat ≤ 0xffff
  · simp [h]
  · rw [if_neg h, Except.error.injEq, eq_comm]
    exact (and_iff_right (Nat.lt_of_not_le h)).symm

/-- Joining undoes splitting for every word. Splitting undoes joining as far as there is a join,
    except that of the upper operand only the lower half is left; there is none, and a fault in its
    stead, where the lower operand is above a half. -/
theorem halves_join_inverse :
    (∀ v : Word, (halves v).1.toNat ≤ 0xffff ∧ (halves v).2.toNat ≤ 0xffff ∧
      v.toNat = (halves v).1.toNat * 2 ^ 16 + (halves v).2.toNat ∧
      join (halves v).1 (halves v).2 = .ok v) ∧
    (∀ high low : Word, low.toNat ≤ 0xffff → ∃ v, join high low = .ok v ∧
      (halves v).1.toNat = high.toNat % 2 ^ 16 ∧ (halves v).2 = low) ∧
    ∀ (high low : Word) (cause : Fault), join high low = .error cause ↔
      0xffff < low.toNat ∧ cause = .violated .lowHalfFits := by
  refine ⟨?_, ?_, fun _ _ _ => join_eq_error_iff⟩
  · intro v
    refine ⟨halves_fst_le v, halves_snd_le v, toNat_eq_halves v, ?_⟩
    rw [join_eq_ok_iff, and_halfMask_of_le (halves_fst_le v)]
  · intro high low h
    refine ⟨high <<< halfBits ||| low, join_eq_ok_iff.mpr (halves_placed high h), ?_, ?_⟩
    · rw [halves_placed high h]
      exact toNat_lower high
    · rw [halves_placed high h]

/-- The upper half of the upper operand is lost. -/
theorem halves_join_inverse_dropped : (0x5678 : Word).toNat ≤ 0xffff ∧
    ∃ v, join 0xabcd1234 0x5678 = .ok v ∧ (halves v).1.toNat = 0x1234 ∧ (halves v).2 = 0x5678 := by
  have hlow : (0x5678 : Word).toNat ≤ 0xffff := by decide
  obtain ⟨v, hjoin, hfst, hsnd⟩ := halves_join_inverse.2.1 0xabcd1234 0x5678 hlow
  exact ⟨hlow, v, hjoin, hfst, hsnd⟩

end WordArith.Word
