import Mathlib
import WordArith.Proofs.Intrinsic
import WordArith.Proofs.Wide.Division

/- The destination of the remainder, and the divisions with and without one.

   Seven divisions of unsigned wide integers share one course. They differ in how they
   hand over quotient and remainder, and in how they end where the divisor is zero. This
   file

   1. takes the destination out of the division: what a division hands over follows from
      its outcome on the operands and from the destination (`deliver`,
      `divMod_eq_deliver`). So no quotient and no fault depends on the destination
      (`divMod_fst_congr`, `udivmod64_fst_congr`), and after a fault, whatever its cause,
      the destination holds what it held before (`divMod_snd_of_fault`);
   2. states what the divisions agree on where they have results (`SameResults`) and where
      they have none (`SameFault`), and proves that the divisor alone decides between the
      two (`unsigned_divisions_agree`). -/
namespace WordArith.Wide

open Intrinsic

variable {n d : Wide}

/-! ## The destination -/

/-- Hands over the outcome of a division: the quotient to the caller, the remainder to the
    destination if there is one. A fault goes to the caller, and nothing to the destination. -/
def deliver (dest : Option Wide) : Checked (Wide × Wide) → Checked Wide × Option Wide
  | .ok (quot, rem) => (.ok quot, dest.map fun _ => rem)
  | .error e => (.error e, dest)

theorem divMod_eq_deliver (n d : Wide) (dest : Option Wide) :
    divMod n d dest = deliver dest (divRem n d) := by
  by_cases hd : d = 0
  · subst hd
    rw [divRem, divMod_zero, divMod_zero, deliver]
  · rw [divRem, divMod, divMod, dif_neg hd, dif_neg hd]
    -- Both runs of the loops are the same one, so they end in the same way.
    cases ((LongDivision.start n d).align hd).reduce LongDivision.addBit with
    | ok s => rfl
    | error e => rfl

theorem divMod_fst_congr (n d : Wide) (dest dest' : Option Wide) :
    (divMod n d dest).1 = (divMod n d dest').1 := by
  rw [divMod_eq_deliver, divMod_eq_deliver]
  cases divRem n d <;> rfl

theorem udivmod64_fst_congr (n d : Wide) (dest dest' : Option Wide) :
    Prod.fst <$> udivmod64 n d dest = Prod.fst <$> udivmod64 n d dest' := by
  rw [udivmod64, udivmod64, divMod_eq_deliver, divMod_eq_deliver]
  cases divRem n d <;> rfl

theorem divMod_snd_of_fault {dest : Option Wide} {cause : Fault}
    (h : (divMod n d dest).1 = .error cause) : (divMod n d dest).2 = dest := by
  rw [divMod_eq_deliver] at h ⊢
  cases hrun : divRem n d with
  | ok p => simp [hrun, deliver] at h
  | error e => rfl

/-! ## The divisions together -/

/-- The divisions of `n` by `d` have results: all give the quotient `quot` and the remainder `rem`,
    as far as they give them. -/
structure SameResults (n d quot rem : Wide) : Prop where
  /-- A destination is overwritten, whatever it held. -/
  delivered : ∀ dest, divMod n d dest = (.ok quot, dest.map fun _ => rem)
  entryDelivered : ∀ dest, udivmod64 n d dest = .ok (quot, dest.map fun _ => rem)
  quotient : div n d = .ok quot
  entryQuotient : udiv64 n d = .ok quot
  remainder : mod n d = .ok rem
  entryRemainder : umod64 n d = .ok rem
  tested : tryDivRem n d = .ok (quot, rem)
  dividend : n.toNat = d.toNat * quot.toNat + rem.toNat
  rem_lt : rem.toNat < d.toNat

/-- The divisions of `n` by `d` have no results: one of them refuses, the others do not return. -/
structure SameFault (n d : Wide) : Prop where
  fault : ∀ dest, (divMod n d dest).1 = .error .divisionByZero
  /-- A destination holds what it held before. -/
  kept : ∀ dest, (divMod n d dest).2 = dest
  entryFault : ∀ dest, udivmod64 n d dest = .error ⟨.divisionByZero⟩
  quotient : div n d = .error .divisionByZero
  entryQuotient : udiv64 n d = .error ⟨.divisionByZero⟩
  remainder : mod n d = .error .divisionByZero
  entryRemainder : umod64 n d = .error ⟨.divisionByZero⟩
  tested : tryDivRem n d = .error (.refused .divisionByZero)

theorem sameResults_of_ne_zero (n : Wide) (hd : d ≠ 0) : SameResults n d (n / d) (n % d) where
  delivered := divMod_of_ne_zero n hd
  entryDelivered dest := by rw [udivmod64_eq, if_neg hd]
  quotient := div_of_ne_zero n hd
  entryQuotient := by rw [udiv64_eq, if_neg hd]
  remainder := mod_of_ne_zero n hd
  entryRemainder := by rw [umod64_eq, if_neg hd]
  tested := tryDivRem_of_ne_zero n hd
  dividend := LongDivision.toNat_eq_udiv_umod n d
  rem_lt := LongDivision.toNat_umod_lt_of_ne_zero n hd

theorem sameFault_zero (n : Wide) : SameFault n 0 where
  fault dest := divMod_fst n 0 dest
  kept dest := divMod_snd_of_fault (divMod_fst n 0 dest)
  entryFault := udivmod64_eq n 0
  quotient := div_eq n 0
  entryQuotient := udiv64_eq n 0
  remainder := mod_eq n 0
  entryRemainder := umod64_eq n 0
  tested := tryDivRem_eq n 0

/-- The division that tests its divisor meets no fault. -/
theorem tryDivRem_ne_fault (n d : Wide) (cause : Fault) :
    tryDivRem n d ≠ .error (.fault cause) := by
  rw [tryDivRem_eq]
  split <;> simp

/-- Whatever the destination holds, and if there is none, the division ends in the same way. With a
    divisor other than zero all divisions have the same results, and a destination is overwritten
    with the remainder; with a divisor of zero none has a result, a destination stays as it is, and
    only the division that tests its divisor comes back, with its refusal. -/
theorem unsigned_divisions_agree (n d : Wide) :
    (∀ dest dest', (divMod n d dest).1 = (divMod n d dest').1) ∧
      (∀ dest dest', Prod.fst <$> udivmod64 n d dest = Prod.fst <$> udivmod64 n d dest') ∧
      (d ≠ 0 → ∃ quot rem, SameResults n d quot rem) ∧ (d = 0 → SameFault n d) ∧
      ∀ cause, tryDivRem n d ≠ .error (.fault cause) := by
  refine ⟨divMod_fst_congr n d, udivmod64_fst_congr n d, ?_, ?_, tryDivRem_ne_fault n d⟩
  · intro hd
    exact ⟨n / d, n % d, sameResults_of_ne_zero n hd⟩
  · rintro rfl
    exact sameFault_zero n

end WordArith.Wide
