import Mathlib
import WordArith.Word.Division
import WordArith.Proofs.LongDivision
import WordArith.Proofs.Signed

/- Division of words, for every dividend and every divisor.

   One formula covers all divisors (`divRem_eq`): quotient and remainder by a divisor
   other than zero are those of the natural numbers, and a divisor of zero gives zero
   and the dividend, as division by zero on words does, except that zero by zero gives
   one. The other divisions are read off from it, the signed ones through the sign
   rules. `divRem_total` states the result in numbers; `signed_total` does so for the
   signed divisions, which keep the results that a divisor of zero has (`sdiv_zero`,
   `smod_zero`). -/
namespace WordArith.Word

/-- The quotient the loops end with. -/
def quotient (n d : Word) : Word := if n = 0 ∧ d = 0 then 1 else n / d

theorem quotient_of_ne_zero {n d : Word} (hd : d ≠ 0) : quotient n d = n / d :=
  if_neg fun h => hd h.2

theorem quotient_zero (n : Word) : quotient n 0 = if n = 0 then 1 else 0 := by
  by_cases hn : n = 0
  · simp [quotient, hn]
  · rw [quotient, if_neg fun h => hn h.1, if_neg hn]
    exact BitVec.udiv_zero

/-- Quotient and remainder make up the dividend under every divisor: the quotient of zero by zero
    is multiplied by zero. -/
theorem dividend_eq (n d : Word) :
    n.toNat = d.toNat * (quotient n d).toNat + (n % d).toNat := by
  by_cases hd : d = 0
  · subst hd
    simp
  · rw [quotient_of_ne_zero hd]
    exact LongDivision.toNat_eq_udiv_umod n d

theorem mod_lt_iff (n d : Word) : (n % d).toNat < d.toNat ↔ d ≠ 0 := by
  constructor
  · rintro hlt rfl
    exact absurd hlt (Nat.not_lt_zero _)
  · exact LongDivision.toNat_umod_lt_of_ne_zero n

theorem divRem_eq (n d : Word) : divRem n d = .ok (quotient n d, n % d) := by
  by_cases hd : d = 0
  · subst hd
    obtain ⟨s, hs, hquot, hnum⟩ :=
      LongDivision.reduce_alignMarked_zero LongDivision.setBit_adds (by decide) n
    rw [divRem, hs, Checked.ok_bind, hquot, hnum, quotient_zero]
    exact congrArg Except.ok (Prod.ext rfl BitVec.umod_zero.symm)
  · have hat := LongDivision.atPlace_start (by decide) n d
    have halign := LongDivision.alignMarked_eq_align hd (LongDivision.start n d) hd 0 hat
    obtain ⟨s, hs, hquot, hnum⟩ := LongDivision.reduce_align LongDivision.setBit_adds (n := n) hd
    rw [divRem, halign, hs, Checked.ok_bind, hquot, hnum, quotient_of_ne_zero hd]
    rfl

theorem divPart_eq (n d : Word) (part : DivisionPart) :
    divPart n d part = .ok (match part with
      | .quotient => quotient n d
      | .remainder => n % d) := by
  rw [divPart, divRem_eq, Checked.ok_bind]
  cases part <;> rfl

theorem div_eq (n d : Word) : div n d = .ok (quotient n d) := divPart_eq n d .quotient

theorem mod_eq (n d : Word) : mod n d = .ok (n % d) := divPart_eq n d .remainder

theorem tryDivRem_eq (n d : Word) : tryDivRem n d =
    if d = 0 then .error (.refused .divisionByZero) else .ok (n / d, n % d) := by
  rw [tryDivRem, divRem_eq]
  split
  · rfl
  · next hd => rw [Checked.orFail_ok, quotient_of_ne_zero hd]

/-- Zero by zero is positive, so the sign rule leaves its quotient as it is. -/
theorem sdiv_eq (a b : Word) : sdiv a b = .ok (if a = 0 ∧ b = 0 then 1 else BitVec.sdiv a b) := by
  rw [sdiv, div_eq, Checked.ok_bind]
  refine congrArg Except.ok ?_
  by_cases h : a = 0 ∧ b = 0
  · obtain ⟨rfl, rfl⟩ := h
    rfl
  · have habs : ¬(a.abs = 0 ∧ b.abs = 0) := by
      rwa [Signed.abs_eq_zero_iff, Signed.abs_eq_zero_iff]
    rw [if_neg h, quotient, if_neg habs, Signed.quotient_abs]

theorem smod_eq (a b : Word) : smod a b = .ok (BitVec.srem a b) := by
  rw [smod, mod_eq, Checked.ok_bind, ← Signed.remainder_abs]
  rfl

theorem sdiv_of_ne_zero (a : Word) {b : Word} (hb : b ≠ 0) : sdiv a b = .ok (BitVec.sdiv a b) := by
  rw [sdiv_eq, if_neg fun h => hb h.2]

/-- A quotient of zero has no sign to set. -/
theorem sdiv_zero (a : Word) : sdiv a 0 = .ok (if a = 0 then 1 else 0) := by
  rw [sdiv_eq]
  refine congrArg Except.ok ?_
  by_cases ha : a = 0
  · rw [if_pos ⟨ha, rfl⟩, if_pos ha]
  · rw [if_neg fun h => ha h.1, if_neg ha]
    exact BitVec.sdiv_zero

/-- The sign goes back on the magnitude it came from, also on that of the least number. -/
theorem smod_zero (a : Word) : smod a 0 = .ok a := by
  rw [smod_eq]
  exact congrArg Except.ok BitVec.srem_zero

/-- Every two words have a quotient and a remainder, also where the divisor is zero, and all
    divisions of words agree on them. Only the division that tests its divisor refuses. -/
theorem divRem_total (n d : Word) :
    ∃ quot rem : Word, divRem n d = .ok (quot, rem) ∧
      (d ≠ 0 → quot.toNat = n.toNat / d.toNat ∧ rem.toNat = n.toNat % d.toNat) ∧
      (d = 0 → n ≠ 0 → quot = 0 ∧ rem = n) ∧ (d = 0 → n = 0 → quot = 1 ∧ rem = 0) ∧
      n.toNat = d.toNat * quot.toNat + rem.toNat ∧ (rem.toNat < d.toNat ↔ d ≠ 0) ∧
      (∀ part, divPart n d part = .ok (match part with
        | .quotient => quot
        | .remainder => rem)) ∧
      div n d = .ok quot ∧ mod n d = .ok rem ∧
      (d ≠ 0 → tryDivRem n d = .ok (quot, rem)) ∧
      (tryDivRem n d = .error (.refused .divisionByZero) ↔ d = 0) := by
  refine ⟨quotient n d, n % d, divRem_eq n d, ?_, ?_, ?_, ?_, ?_, divPart_eq n d, div_eq n d,
    mod_eq n d, ?_, ?_⟩
  · intro hd
    rw [quotient_of_ne_zero hd]
    exact ⟨BitVec.toNat_udiv, BitVec.toNat_umod⟩
  · rintro rfl hn
    exact ⟨by rw [quotient_zero, if_neg hn], BitVec.umod_zero⟩
  · rintro rfl rfl
    exact ⟨rfl, rfl⟩
  · exact dividend_eq n d
  · exact mod_lt_iff n d
  · intro hd
    rw [tryDivRem_eq, if_neg hd, quotient_of_ne_zero hd]
  · rw [tryDivRem_eq]
    split <;> simp_all

/-- Every two signed words have a quotient and a remainder: those of the truncating division where
    the divisor is not zero, else those that the loops end with on the magnitudes. -/
theorem signed_total (a b : Word) :
    ∃ quot rem : Word, sdiv a b = .ok quot ∧ smod a b = .ok rem ∧
      (b ≠ 0 → Signed.Truncates a b quot rem) ∧
      (b = 0 → a ≠ 0 → quot = 0 ∧ rem = a) ∧ (b = 0 → a = 0 → quot = 1 ∧ rem = 0) := by
  by_cases hb : b = 0
  · subst hb
    refine ⟨if a = 0 then 1 else 0, a, sdiv_zero a, smod_zero a, ?_, ?_, ?_⟩
    · exact fun h => absurd rfl h
    · exact fun _ ha => ⟨if_neg ha, rfl⟩
    · exact fun _ ha => ⟨if_pos ha, ha⟩
  · refine ⟨BitVec.sdiv a b, BitVec.srem a b, sdiv_of_ne_zero a hb, smod_eq a b, ?_, ?_, ?_⟩
    · exact Signed.truncates_sdiv_srem (by decide) a
    · exact fun h => absurd h hb
    · exact fun h => absurd h hb

end WordArith.Word
