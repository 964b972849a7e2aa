import Mathlib
import WordArith.Intrinsic
import WordArith.Proofs.Product
import WordArith.Proofs.Shift
import WordArith.Proofs.Word.Division
import WordArith.Proofs.Wide.Division

/- The entry points keep what their callers are promised, on every operand.

   A caller sees numbers where an entry point sees words, so this file

   1. reads off the words that each entry point gives, or the cause of its abort, from the
      operation that does the work (`mul64_eq`, `udivmod64_eq`, `shl64_eq`, …);
   2. lists the promises in numbers (`Contracts`) and proves them for both orders of
      storage (`contracts`). -/
namespace WordArith.Intrinsic

variable {o : WordOrder}

/-! ## The words an entry point gives -/

theorem mul32_eq (a b : Word) : mul32 a b = a * b := Word.mul_eq a b

theorem mulWide32_value (o : WordOrder) (a b : Word) :
    ∃ p, mulWide32 o a b = .ok p ∧ p.toNat = a.toNat * b.toNat := by
  obtain ⟨p, hp, hpv⟩ := Word.mulWide_value (o := o) a b
  refine ⟨p.toWide, ?_, hpv⟩
  rw [mulWide32, hp]
  rfl

theorem mul64_eq (o : WordOrder) (a b : Wide) : mul64 o a b = .ok (a * b) := by
  rw [mul64, Wide.mul_eq, Checked.orAbort_ok]

theorem udiv32_eq (n d : Word) : udiv32 n d = .ok (Word.quotient n d) := by
  rw [udiv32, Word.divPart_eq, Checked.orAbort_ok]

theorem umod32_eq (n d : Word) : umod32 n d = .ok (n % d) := by
  rw [umod32, Word.divPart_eq, Checked.orAbort_ok]

/-- Any flag but zero asks for the remainder. -/
theorem udivmod32_eq (n d flag : Word) :
    udivmod32 n d flag = if flag ≠ 0 then umod32 n d else udiv32 n d := by
  rw [udivmod32, umod32, udiv32]
  split <;> rfl

theorem sdiv32_eq (a b : Word) :
    sdiv32 a b = .ok (if a = 0 ∧ b = 0 then 1 else BitVec.sdiv a b) := by
  rw [sdiv32, Word.sdiv_eq, Checked.orAbort_ok]

theorem smod32_eq (a b : Word) : smod32 a b = .ok (BitVec.srem a b) := by
  rw [smod32, Word.smod_eq, Checked.orAbort_ok]

theorem udivmod64_eq (n d : Wide) (dest : Option Wide) : udivmod64 n d dest =
    if d = 0 then .error ⟨.divisionByZero⟩ else .ok (n / d, dest.map fun _ => n % d) := by
  by_cases hd : d = 0
  · subst hd
    rw [udivmod64, Wide.divMod_zero, if_pos rfl]
  · rw [udivmod64, Wide.divMod_of_ne_zero n hd, if_neg hd]

/-- A fault under a condition becomes an abort under it. -/
theorem orAbort_fault_if {α : Type} {p : Prop} [Decidable p] (cause : Fault) (a : α) :
    Checked.orAbort (if p then .error cause else .ok a) = if p then .error ⟨cause⟩ else .ok a :=
  apply_ite Checked.orAbort p _ _

theorem udiv64_eq (n d : Wide) : udiv64 n d =
    if d = 0 then .error ⟨.divisionByZero⟩ else .ok (n / d) := by
  rw [udiv64, Wide.divMod_fst]
  exact orAbort_fault_if _ _

theorem umod64_eq (n d : Wide) : umod64 n d =
    if d = 0 then .error ⟨.divisionByZero⟩ else .ok (n % d) := by
  by_cases hd : d = 0
  · subst hd
    rw [umod64, Wide.divMod_zero, if_pos rfl]
  · rw [umod64, Wide.divMod_of_ne_zero n hd, if_neg hd]
    rfl

theorem sdiv64_eq (a b : Wide) : sdiv64 a b =
    if b = 0 then .error ⟨.divisionByZero⟩ else .ok (BitVec.sdiv a b) := by
  rw [sdiv64, Wide.sdiv_eq]
  exact orAbort_fault_if _ _

theorem smod64_eq (a b : Wide) : smod64 a b =
    if b = 0 then .error ⟨.divisionByZero⟩ else .ok (BitVec.srem a b) := by
  rw [smod64, Wide.smod_eq]
  exact orAbort_fault_if _ _

/-- A shift of wide integers is the shift of values that the shift of double words is. -/
theorem shift64_eq {shift : DoubleWord o → Nat → Checked (DoubleWord o)}
    {onValues : Wide → Nat → Wide} (h : ∀ d k, shift d k =
      if k < 64 then .ok (.ofWide (onValues d.toWide k)) else .error (.violated .distanceBelowWide))
    (v : Wide) (k : Nat) : shift64 shift v k =
      if k < 64 then .ok (onValues v k) else .error ⟨.violated .distanceBelowWide⟩ := by
  rw [shift64, h, DoubleWord.toWide_ofWide]
  split
  · rw [Checked.ok_bind]
    exact congrArg Except.ok (DoubleWord.toWide_ofWide _)
  · rfl

theorem shl64_eq (o : WordOrder) (v : Wide) (k : Nat) : shl64 o v k =
    if k < 64 then .ok (v <<< k) else .error ⟨.violated .distanceBelowWide⟩ :=
  shift64_eq DoubleWord.shiftLeft_eq v k

theorem ashr64_eq (o : WordOrder) (v : Wide) (k : Nat) : ashr64 o v k =
    if k < 64 then .ok (v.sshiftRight k) else .error ⟨.violated .distanceBelowWide⟩ :=
  shift64_eq DoubleWord.sshiftRight_eq v k

theorem lshr64_eq (o : WordOrder) (v : Wide) (k : Nat) : lshr64 o v k =
    if k < 64 then .ok (v >>> k) else .error ⟨.violated .distanceBelowWide⟩ :=
  shift64_eq DoubleWord.shiftRight_eq v k

/-! ## The promises -/

/-- What the callers of the entry points are promised, in numbers. A word stands for its unsigned
    reading in the unsigned operations and for its signed reading in the others. -/
structure Contracts (o : WordOrder) : Prop where
  product32 : ∀ a b, (mul32 a b).toNat = a.toNat * b.toNat % 2 ^ 32
  fullProduct : ∀ a b, ∃ p, mulWide32 o a b = .ok p ∧ p.toNat = a.toNat * b.toNat
  /-- The operands are taken as signed, although they are multiplied as unsigned. -/
  product64 : ∀ a b, ∃ p, mul64 o a b = .ok p ∧ p.toInt = (a.toInt * b.toInt).bmod (2 ^ 64)
  unsigned32 : ∀ n d, d ≠ 0 → ∃ q r, udiv32 n d = .ok q ∧ umod32 n d = .ok r ∧
    q.toNat = n.toNat / d.toNat ∧ r.toNat = n.toNat % d.toNat
  signed32 : ∀ a b, b ≠ 0 → ∃ q r, sdiv32 a b = .ok q ∧ smod32 a b = .ok r ∧
    q.toInt = (a.toInt.tdiv b.toInt).bmod (2 ^ 32) ∧ r.toInt = a.toInt.tmod b.toInt
  least32 : sdiv32 (.intMin 32) (-1) = .ok (.intMin 32) ∧ smod32 (.intMin 32) (-1) = .ok 0
  flag32 : ∀ n d flag, udivmod32 n d flag = if flag ≠ 0 then umod32 n d else udiv32 n d
  /-- A divisor of zero is no abort on words. -/
  zero32 : ∀ n, udiv32 n 0 = .ok (if n = 0 then 1 else 0) ∧ umod32 n 0 = .ok n ∧
    sdiv32 n 0 = .ok (if n = 0 then 1 else 0) ∧ smod32 n 0 = .ok n
  unsigned64 : ∀ n d dest, d ≠ 0 → ∃ q r, udivmod64 n d dest = .ok (q, dest.map fun _ => r) ∧
    udiv64 n d = .ok q ∧ umod64 n d = .ok r ∧
    q.toNat = n.toNat / d.toNat ∧ r.toNat = n.toNat % d.toNat
  signed64 : ∀ a b, b ≠ 0 → ∃ q r, sdiv64 a b = .ok q ∧ smod64 a b = .ok r ∧
    q.toInt = (a.toInt.tdiv b.toInt).bmod (2 ^ 64) ∧ r.toInt = a.toInt.tmod b.toInt
  least64 : sdiv64 (.intMin 64) (-1) = .ok (.intMin 64) ∧ smod64 (.intMin 64) (-1) = .ok 0
  zero64 : ∀ n dest, udivmod64 n 0 dest = .error ⟨.divisionByZero⟩ ∧
    udiv64 n 0 = .error ⟨.divisionByZero⟩ ∧ umod64 n 0 = .error ⟨.divisionByZero⟩ ∧
    sdiv64 n 0 = .error ⟨.divisionByZero⟩ ∧ smod64 n 0 = .error ⟨.divisionByZero⟩
  /-- Multiplication by a power of two, division by one rounded downwards, and that division on
      the unsigned reading, read as signed again. -/
  shifts : ∀ v k, k < 64 →
    (∃ x, shl64 o v k = .ok x ∧ x.toInt = (v.toInt * 2 ^ k).bmod (2 ^ 64)) ∧
    (∃ x, ashr64 o v k = .ok x ∧ x.toInt = v.toInt / 2 ^ k) ∧
    (∃ x, lshr64 o v k = .ok x ∧ x.toInt = (v.toInt % 2 ^ 64 / 2 ^ k).bmod (2 ^ 64))
  distance : ∀ v k, 64 ≤ k → shl64 o v k = .error ⟨.violated .distanceBelowWide⟩ ∧
    ashr64 o v k = .error ⟨.violated .distanceBelowWide⟩ ∧
    lshr64 o v k = .error ⟨.violated .distanceBelowWide⟩

theorem signed32_value (a : Word) {b : Word} (hb : b ≠ 0) :
    ∃ q r, sdiv32 a b = .ok q ∧ smod32 a b = .ok r ∧
      q.toInt = (a.toInt.tdiv b.toInt).bmod (2 ^ 32) ∧ r.toInt = a.toInt.tmod b.toInt := by
  refine ⟨BitVec.sdiv a b, BitVec.srem a b, ?_, smod32_eq a b, BitVec.toInt_sdiv a b,
    BitVec.toInt_srem a b⟩
  rw [sdiv32, Word.sdiv_of_ne_zero a hb, Checked.orAbort_ok]

theorem signed64_value (a : Wide) {b : Wide} (hb : b ≠ 0) :
    ∃ q r, sdiv64 a b = .ok q ∧ smod64 a b = .ok r ∧
      q.toInt = (a.toInt.tdiv b.toInt).bmod (2 ^ 64) ∧ r.toInt = a.toInt.tmod b.toInt := by
  refine ⟨BitVec.sdiv a b, BitVec.srem a b, ?_, ?_, BitVec.toInt_sdiv a b,
    BitVec.toInt_srem a b⟩
  · rw [sdiv64_eq, if_neg hb]
  · rw [smod64_eq, if_neg hb]

/-- On words zero counts as a divisor: all four results are those of the loops. -/
theorem zero32_value (n : Word) :
    udiv32 n 0 = .ok (if n = 0 then 1 else 0) ∧ umod32 n 0 = .ok n ∧
      sdiv32 n 0 = .ok (if n = 0 then 1 else 0) ∧ smod32 n 0 = .ok n := by
  refine ⟨?_, ?_, ?_, ?_⟩
  · rw [udiv32_eq, Word.quotient_zero]
  · rw [umod32_eq]
    exact congrArg Except.ok BitVec.umod_zero
  · rw [sdiv32, Word.sdiv_zero, Checked.orAbort_ok]
  · rw [smod32, Word.smod_zero, Checked.orAbort_ok]

theorem shifts_value (o : WordOrder) (v : Wide) {k : Nat} (hk : k < 64) :
    (∃ x, shl64 o v k = .ok x ∧ x.toInt = (v.toInt * 2 ^ k).bmod (2 ^ 64)) ∧
    (∃ x, ashr64 o v k = .ok x ∧ x.toInt = v.toInt / 2 ^ k) ∧
    (∃ x, lshr64 o v k = .ok x ∧ x.toInt = (v.toInt % 2 ^ 64 / 2 ^ k).bmod (2 ^ 64)) := by
  refine ⟨⟨v <<< k, ?_, Signed.toInt_shiftLeft v k⟩,
    ⟨v.sshiftRight k, ?_, Signed.toInt_sshiftRight v k⟩,
    ⟨v >>> k, ?_, Signed.toInt_ushiftRight v k⟩⟩
  · rw [shl64_eq, if_pos hk]
  · rw [ashr64_eq, if_pos hk]
  · rw [lshr64_eq, if_pos hk]

/-- The entry points keep their promises under either order of storage. -/
theorem contracts (o : WordOrder) : Contracts o where
  product32 a b := by rw [mul32_eq, BitVec.toNat_mul]
  fullProduct := mulWide32_value o
  product64 a b := ⟨a * b, mul64_eq o a b, BitVec.toInt_mul a b⟩
  unsigned32 n d hd := by
    refine ⟨n / d, n % d, ?_, umod32_eq n d, BitVec.toNat_udiv, BitVec.toNat_umod⟩
    rw [udiv32_eq, Word.quotient_of_ne_zero hd]
  signed32 a _ hb := signed32_value a hb
  least32 := ⟨sdiv32_eq _ _, smod32_eq _ _⟩
  flag32 := udivmod32_eq
  zero32 := zero32_value
  unsigned64 n d dest hd := by
    refine ⟨n / d, n % d, ?_, ?_, ?_, BitVec.toNat_udiv, BitVec.toNat_umod⟩
    · rw [udivmod64_eq, if_neg hd]
    · rw [udiv64_eq, if_neg hd]
    · rw [umod64_eq, if_neg hd]
  signed64 a _ hb := signed64_value a hb
  least64 := ⟨sdiv64_eq _ _, smod64_eq _ _⟩
  zero64 n dest := ⟨udivmod64_eq n 0 dest, udiv64_eq n 0, umod64_eq n 0, sdiv64_eq n 0,
    smod64_eq n 0⟩
  shifts v _ hk := shifts_value o v hk
  distance v k hk := by
    have hn : ¬k < 64 := Nat.not_lt.mpr hk
    refine ⟨?_, ?_, ?_⟩
    · rw [shl64_eq, if_neg hn]
    · rw [ashr64_eq, if_neg hn]
    · rw [lshr64_eq, if_neg hn]

end WordArith.Intrinsic
