import Mathlib
import WordArith.Word.Lemmas
import WordArith.Checked.Lemmas

/- Masks and halves fault on what their callers must rule out, and on nothing else.

   The mask of `bits` low bits is `2 ^ bits - 1` up to a whole word (`lsbMask_eq`), so it
   keeps the remainder by `2 ^ bits` (`exists_lsbMask`): the
   two tests on its parts never fail, because a whole word leaves no part, and neither the
   shift nor the difference leaves the word. A join is refused for its low operand only
   (`join_eq`). -/
namespace WordArith.Word

/-- The mask of fewer bits than a word has comes from the shift alone. -/
theorem lsbMask_of_lt {bits : Nat} (h : bits < 32) :
    lsbMask bits = .ok (BitVec.ofNat 32 (2 ^ bits - 1)) := by
  -- All bits are in the part, none in a whole word.
  have hpart : bits % wordBits = bits := Nat.mod_eq_of_lt h
  have hwhole : bits / wordBits = 0 := Nat.div_eq_of_lt h
  have hlt : 2 ^ bits < 2 ^ 32 := Nat.pow_lt_pow_right (by decide) h
  have hpower : ((1 : Word) <<< bits).toNat = 2 ^ bits := by
    rw [BitVec.toNat_shiftLeft, Nat.shiftLeft_eq]
    exact (congrArg (· % 2 ^ 32) (Nat.one_mul _)).trans (Nat.mod_eq_of_lt hlt)
  have hone : (1 : Word) ≤ (1 : Word) <<< bits := by
    apply BitVec.le_def.mpr
    rw [hpower]
    exact Nat.one_le_two_pow
  have hsub : (1 : Word) <<< bits - 1 = BitVec.ofNat 32 (2 ^ bits - 1) := by
    apply BitVec.eq_of_toNat_eq
    rw [BitVec.toNat_sub_of_le hone, hpower, BitVec.toNat_ofNat, Nat.mod_eq_of_lt (by omega)]
    rfl
  have hwithin : bits ≤ wordBits := Nat.le_of_lt h
  simp only [lsbMask, hpart, hwhole, Checked.require_of hwithin, Checked.require_of (Nat.zero_le 1),
    Checked.shiftLeft_of_lt h, Checked.sub_of_le hone, hsub, Checked.ok_bind]
  exact congrArg Except.ok BitVec.or_zero

theorem lsbMask_eq (bits : Nat) : lsbMask bits =
    if bits ≤ 32 then .ok (BitVec.ofNat 32 (2 ^ bits - 1))
    else .error (.violated .maskWithinWord) := by
  by_cases hlt : bits < 32
  · rw [lsbMask_of_lt hlt, if_pos (Nat.le_of_lt hlt)]
  by_cases heq : bits = 32
  · subst heq
    rfl
  · have hgt : ¬bits ≤ 32 := by omega
    have hout : ¬bits ≤ wordBits := hgt
    rw [lsbMask, Checked.require_of_not hout, Checked.error_bind, if_neg hgt]

/-- The mask of some low bits keeps the remainder by the power of two above them. -/
theorem exists_lsbMask {bits : Nat} (h : bits ≤ 32) :
    ∃ mask, lsbMask bits = .ok mask ∧ ∀ v : Word, (v &&& mask).toNat = v.toNat % 2 ^ bits := by
  refine ⟨BitVec.ofNat 32 (2 ^ bits - 1), ?_, ?_⟩
  · rw [lsbMask_eq, if_pos h]
  · intro v
    have hlt : 2 ^ bits - 1 < 2 ^ 32 :=
      Nat.lt_of_lt_of_le (Nat.sub_lt (Nat.two_pow_pos bits) Nat.one_pos)
        (Nat.pow_le_pow_right (by decide) h)
    rw [BitVec.toNat_and, BitVec.toNat_ofNat, Nat.mod_eq_of_lt hlt, Nat.and_two_pow_sub_one_eq_mod]

theorem join_eq (high low : Word) : join high low =
    if low.toNat ≤ 0xffff then .ok (high <<< halfBits ||| low)
    else .error (.violated .lowHalfFits) := by
  by_cases h : low.toNat ≤ 0xffff
  · have hfits : low ≤ halfMask := h
    rw [join, Checked.require_of hfits, Checked.ok_bind, if_pos h]
    rfl
  · have hout : ¬low ≤ halfMask := h
    rw [join, Checked.require_of_not hout, Checked.error_bind, if_neg h]

end WordArith.Word
