import Mathlib
import WordArith.Wide.Division
import WordArith.Proofs.LongDivision
import WordArith.Proofs.Signed

/- Division of wide integers, for every dividend, divisor and destination.

   A divisor of zero is the only cause of a fault, and it leaves the destination alone
   (`divMod_zero`); with any other divisor the quotient is that of the natural numbers and
   a destination, if there is one, holds their remainder (`divMod_of_ne_zero`). The other
   divisions are read off from it, the signed ones through the sign rules. `divMod_exact`
   states the result in numbers, together with the way the two loops take to it;
   `signed_truncates` does so for the signed divisions, the least number included. -/
namespace WordArith.Wide

theorem divMod_zero (n : Wide) (dest : Option Wide) :
    divMod n 0 dest = (.error .divisionByZero, dest) := by
  rw [divMod, dif_pos rfl, trap_zero]

theorem divMod_of_ne_zero (n : Wide) {d : Wide} (hd : d ≠ 0) (dest : Option Wide) :
    divMod n d dest = (.ok (n / d), dest.map fun _ => n % d) := by
  obtain ⟨s, hs, hquot, hnum⟩ := LongDivision.reduce_align LongDivision.addBit_adds (n := n) hd
  rw [divMod, dif_neg hd, hs]
  simp only [hquot, hnum]

theorem divRem_eq (n d : Wide) : divRem n d =
    if d = 0 then .error .divisionByZero else .ok (n / d, n % d) := by
  by_cases hd : d = 0
  · subst hd
    rw [divRem, divMod_zero, if_pos rfl]
  · rw [divRem, divMod_of_ne_zero n hd, if_neg hd]
    rfl

/-- The destination has no part in the quotient. -/
theorem divMod_fst (n d : Wide) (dest : Option Wide) : (divMod n d dest).1 =
    if d = 0 then .error .divisionByZero else .ok (n / d) := by
  by_cases hd : d = 0
  · subst hd
    rw [divMod_zero, if_pos rfl]
  · rw [divMod_of_ne_zero n hd, if_neg hd]

theorem div_eq (n d : Wide) : div n d =
    if d = 0 then .error .divisionByZero else .ok (n / d) := divMod_fst n d none

theorem mod_eq (n d : Wide) : mod n d =
    if d = 0 then .error .divisionByZero else .ok (n % d) := by
  rw [mod, divRem_eq]
  split <;> rfl

theorem tryDivRem_eq (n d : Wide) : tryDivRem n d =
    if d = 0 then .error (.refused .divisionByZero) else .ok (n / d, n % d) := by
  rw [tryDivRem, divRem_eq]
  split
  · rfl
  · exact Checked.orFail_ok _

theorem sdiv_eq (a b : Wide) : sdiv a b =
    if b = 0 then .error .divisionByZero else .ok (BitVec.sdiv a b) := by
  rw [sdiv, divMod_fst]
  simp only [Signed.abs_eq_zero_iff]
  split
  · rfl
  · rw [Checked.ok_bind, Signed.quotient_abs]
    rfl

theorem smod_eq (a b : Wide) : smod a b =
    if b = 0 then .error .divisionByZero else .ok (BitVec.srem a b) := by
  rw [smod, divRem_eq]
  simp only [Signed.abs_eq_zero_iff]
  split
  · rfl
  · rw [Checked.ok_bind, Signed.remainder_abs]
    rfl

section NonzeroDivisor

variable (n : Wide) {d : Wide} (hd : d ≠ 0)
include hd

theorem div_of_ne_zero : div n d = .ok (n / d) := by rw [div_eq, if_neg hd]

theorem mod_of_ne_zero : mod n d = .ok (n % d) := by rw [mod_eq, if_neg hd]

theorem tryDivRem_of_ne_zero : tryDivRem n d = .ok (n / d, n % d) := by
  rw [tryDivRem_eq, if_neg hd]

theorem sdiv_of_ne_zero : sdiv n d = .ok (BitVec.sdiv n d) := by rw [sdiv_eq, if_neg hd]

theorem smod_of_ne_zero : smod n d = .ok (BitVec.srem n d) := by rw [smod_eq, if_neg hd]

end NonzeroDivisor

/-- The division by a divisor other than zero returns, quotient and destination are exact, and on
    the way there no sum, difference or doubling leaves the word. -/
theorem divMod_exact (n d : Wide) (hd : d ≠ 0) (dest : Option Wide) :
    ∃ quot rem : Wide, divMod n d dest = (.ok quot, dest.map fun _ => rem) ∧
      quot.toNat = n.toNat / d.toNat ∧ rem.toNat = n.toNat % d.toNat ∧
      n.toNat = d.toNat * quot.toNat + rem.toNat ∧ rem.toNat < d.toNat ∧
      ∃ k, LongDivision.Course n d hd k := by
  have hpos := BitVec.toNat_pos_of_ne_zero hd
  refine ⟨n / d, n % d, divMod_of_ne_zero n hd dest, BitVec.toNat_udiv, BitVec.toNat_umod, ?_, ?_,
    LongDivision.exists_course n d hd⟩
  · rw [BitVec.toNat_udiv, BitVec.toNat_umod]
    exact (Nat.div_add_mod n.toNat d.toNat).symm
  · rw [BitVec.toNat_umod]
    exact Nat.mod_lt _ hpos

/-- A dividend next to `2 ^ 64` and a divisor with the top bit set. -/
theorem divMod_exact_top : (0x8000000000000001 : Wide) ≠ 0 ∧
    ∃ quot rem : Wide, divMod 0xfffffffffffffffe 0x8000000000000001 (some 7) =
        (.ok quot, some rem) ∧ quot.toNat = 1 ∧ rem.toNat = 0x7ffffffffffffffd := by
  refine ⟨by decide, ?_⟩
  obtain ⟨quot, rem, h, hq, hr, _⟩ :=
    divMod_exact 0xfffffffffffffffe 0x8000000000000001 (by decide) (some 7)
  exact ⟨quot, rem, h, hq, hr⟩

/-- Signed quotient and remainder exist for every divisor other than zero, and are those of the
    truncating division of signed numbers. -/
theorem signed_truncates (a : Wide) {b : Wide} (hb : b ≠ 0) :
    ∃ quot rem, sdiv a b = .ok quot ∧ smod a b = .ok rem ∧ Signed.Truncates a b quot rem :=
  ⟨BitVec.sdiv a b, BitVec.srem a b, sdiv_of_ne_zero a hb, smod_of_ne_zero a hb,
    Signed.truncates_sdiv_srem (by decide) a hb⟩

/-- The least number by minus one: the quotient wraps, the remainder is exact all the same. -/
theorem signed_truncates_least : (-1 : Wide) ≠ 0 ∧
    ∃ quot rem, sdiv (.intMin 64) (-1) = .ok quot ∧ smod (.intMin 64) (-1) = .ok rem ∧
      quot = .intMin 64 ∧ rem.toInt = 0 := by
  have hb : (-1 : Wide) ≠ 0 := by decide
  obtain ⟨quot, rem, hquot, hrem, h⟩ := signed_truncates (.intMin 64) hb
  exact ⟨hb, quot, rem, hquot, hrem, h.quot_least rfl rfl, h.rem.trans rfl⟩

end WordArith.Wide
