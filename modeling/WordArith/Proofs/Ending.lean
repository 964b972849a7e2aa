import Mathlib
import WordArith.DoubleWord.Conversion
import WordArith.Proofs.Intrinsic
import WordArith.Proofs.Word.Mask

/- Which calls come back, and how the others end.

   A fault anywhere inside an operation ends it, so to know the ending of every call is
   to know that no checked sum, difference, product or shift distance inside leaves its
   range and no precondition inside breaks, apart from the endings listed. This file

   1. lists the ways in which a call can end (`Ending`) and the calls of the library, each
      with its operands (`Call`, `Call.ending`), also those that choose an operation by the
      types and those that compare values or put them into words. Erasing is supplied from
      outside and has a result by its type;
   2. states the ending from the operands alone (`Call.foreseen`): a division of wide
      integers by zero, a shift by two words or more, a mask of more bits than a word has
      and a join with a low operand above a half do not come back, all others do;
   3. proves that calls end as foreseen (`Call.ending_eq_foreseen`). -/
namespace WordArith

/-- The ways in which a call can end. -/
inductive Ending where
  | result
  /-- A division that tests its divisor refuses. -/
  | refusal (reason : DivisionError)
  | fault (cause : Fault)
  /-- An entry point met the fault. -/
  | abort (cause : Fault)
deriving DecidableEq, Repr

namespace Ending

variable {α : Type}

/-- A function without a fault in its type has a result. -/
def ofValue (_ : α) : Ending := .result

def ofChecked : Checked α → Ending
  | .ok _ => .result
  | .error cause => .fault cause

def ofTested : Except Failure α → Ending
  | .ok _ => .result
  | .error (.refused reason) => .refusal reason
  | .error (.fault cause) => .fault cause

def ofEntry : Except Abort α → Ending
  | .ok _ => .result
  | .error stop => .abort stop.cause

variable {p : Prop} [Decidable p]

theorem ofChecked_fault_if (cause : Fault) (a : α) :
    ofChecked (if p then .error cause else .ok a) = if p then .fault cause else .result :=
  apply_ite ofChecked p _ _

theorem ofChecked_result_if (cause : Fault) (a : α) :
    ofChecked (if p then .ok a else .error cause) = if p then .result else .fault cause :=
  apply_ite ofChecked p _ _

theorem ofTested_refusal_if (reason : DivisionError) (a : α) :
    ofTested (if p then .error (.refused reason) else .ok a) =
      if p then .refusal reason else .result :=
  apply_ite ofTested p _ _

theorem ofEntry_abort_if (cause : Fault) (a : α) :
    ofEntry (if p then .error ⟨cause⟩ else .ok a) = if p then .abort cause else .result :=
  apply_ite ofEntry p _ _

theorem ofEntry_result_if (cause : Fault) (a : α) :
    ofEntry (if p then .ok a else .error ⟨cause⟩) = if p then .result else .abort cause :=
  apply_ite ofEntry p _ _

end Ending

/-- The operations of the library with their operands, under the given order of storage. -/
inductive Call (o : WordOrder) where
  -- Double words.
  | default
  | new (high low : Word)
  | ofWide (v : Wide)
  | ofInt (v : Int)
  | high (d : DoubleWord o)
  | highSigned (d : DoubleWord o)
  | low (d : DoubleWord o)
  | words (d : DoubleWord o)
  | debugText (d : DoubleWord o)
  | toWide (d : DoubleWord o)
  | toInt (d : DoubleWord o)
  | same (d e : DoubleWord o)
  | zeroize (d : DoubleWord o)
  -- Conversions that the types choose.
  | convertWide (v : Wide)
  | convertInt (v : Int)
  | convertToWide (d : DoubleWord o)
  | convertToInt (d : DoubleWord o)
  -- Orders of storage, parts of a division, reasons of a refusal.
  | sameOrder (a b : WordOrder)
  | orderText (a : WordOrder)
  | samePart (a b : DivisionPart)
  | partText (a : DivisionPart)
  | sameReason (a b : DivisionError)
  | reasonText (a : DivisionError)
  | reasonMessage (a : DivisionError)
  -- Masks, halves and products.
  | lsbMask (bits : Nat)
  | halves (v : Word)
  | join (high low : Word)
  | mul (a b : Word)
  | mulWide (a b : Word)
  | wideMul (a b : Wide)
  -- Division of words.
  | divRem (n d : Word)
  | divPart (n d : Word) (part : DivisionPart)
  | div (n d : Word)
  | mod (n d : Word)
  | tryDivRem (n d : Word)
  | sdiv (a b : Word)
  | smod (a b : Word)
  -- Division of wide integers.
  | wideDivMod (n d : Wide) (dest : Option Wide)
  | wideDiv (n d : Wide)
  | wideMod (n d : Wide)
  | wideTryDivRem (n d : Wide)
  | wideSdiv (a b : Wide)
  | wideSmod (a b : Wide)
  -- Shifts of double words.
  | shiftLeft (d : DoubleWord o) (distance : Nat)
  | shiftRight (d : DoubleWord o) (distance : Nat)
  | sshiftRight (d : DoubleWord o) (distance : Nat)
  -- Entry points.
  | mul32 (a b : Word)
  | mulWide32 (a b : Word)
  | mul64 (a b : Wide)
  | udivmod32 (n d flag : Word)
  | udiv32 (n d : Word)
  | umod32 (n d : Word)
  | sdiv32 (a b : Word)
  | smod32 (a b : Word)
  | udivmod64 (n d : Wide) (dest : Option Wide)
  | udiv64 (n d : Wide)
  | umod64 (n d : Wide)
  | sdiv64 (a b : Wide)
  | smod64 (a b : Wide)
  | shl64 (v : Wide) (distance : Nat)
  | ashr64 (v : Wide) (distance : Nat)
  | lshr64 (v : Wide) (distance : Nat)

namespace Call

variable {o : WordOrder}

/-- The ending of the operation on the operands. -/
def ending (erase : DoubleWord.Eraser) : Call o → Ending
  | .default => .ofValue (Inhabited.default : DoubleWord o)
  | .new h l => .ofValue (DoubleWord.new h l : DoubleWord o)
  | .ofWide v => .ofValue (DoubleWord.ofWide v : DoubleWord o)
  | .ofInt v => .ofValue (DoubleWord.ofInt v : DoubleWord o)
  | .high d => .ofValue d.high
  | .highSigned d => .ofValue d.highSigned
  | .low d => .ofValue d.low
  | .words d => .ofValue d.words
  | .debugText d => .ofValue d.debugText
  | .toWide d => .ofValue d.toWide
  | .toInt d => .ofValue d.toInt
  | .same d e => .ofValue (decide (d = e))
  | .zeroize d => .ofValue (erase o d)
  | .convertWide v => .ofValue (Conversion.convert v : DoubleWord o)
  | .convertInt v => .ofValue (Conversion.convert v : DoubleWord o)
  | .convertToWide d => .ofValue (Conversion.convert d : Wide)
  | .convertToInt d => .ofValue (Conversion.convert d : Int)
  | .sameOrder a b => .ofValue (decide (a = b))
  | .orderText a => .ofValue a.debugText
  | .samePart a b => .ofValue (decide (a = b))
  | .partText a => .ofValue a.debugText
  | .sameReason a b => .ofValue (decide (a = b))
  | .reasonText a => .ofValue a.debugText
  | .reasonMessage a => .ofValue a.message
  | .lsbMask bits => .ofChecked (Word.lsbMask bits)
  | .halves v => .ofValue (Word.halves v)
  | .join h l => .ofChecked (Word.join h l)
  | .mul a b => .ofValue (Word.mul a b)
  | .mulWide a b => .ofChecked (Word.mulWide a b : Checked (DoubleWord o))
  | .wideMul a b => .ofChecked (Wide.mul o a b)
  | .divRem n d => .ofChecked (Word.divRem n d)
  | .divPart n d part => .ofChecked (Word.divPart n d part)
  | .div n d => .ofChecked (Word.div n d)
  | .mod n d => .ofChecked (Word.mod n d)
  | .tryDivRem n d => .ofTested (Word.tryDivRem n d)
  | .sdiv a b => .ofChecked (Word.sdiv a b)
  | .smod a b => .ofChecked (Word.smod a b)
  | .wideDivMod n d dest => .ofChecked (Wide.divMod n d dest).1
  | .wideDiv n d => .ofChecked (Wide.div n d)
  | .wideMod n d => .ofChecked (Wide.mod n d)
  | .wideTryDivRem n d => .ofTested (Wide.tryDivRem n d)
  | .wideSdiv a b => .ofChecked (Wide.sdiv a b)
  | .wideSmod a b => .ofChecked (Wide.smod a b)
  | .shiftLeft d distance => .ofChecked (d.shiftLeft distance)
  | .shiftRight d distance => .ofChecked (d.shiftRight distance)
  | .sshiftRight d distance => .ofChecked (d.sshiftRight distance)
  | .mul32 a b => .ofValue (Intrinsic.mul32 a b)
  | .mulWide32 a b => .ofEntry (Intrinsic.mulWide32 o a b)
  | .mul64 a b => .ofEntry (Intrinsic.mul64 o a b)
  | .udivmod32 n d flag => .ofEntry (Intrinsic.udivmod32 n d flag)
  | .udiv32 n d => .ofEntry (Intrinsic.udiv32 n d)
  | .umod32 n d => .ofEntry (Intrinsic.umod32 n d)
  | .sdiv32 a b => .ofEntry (Intrinsic.sdiv32 a b)
  | .smod32 a b => .ofEntry (Intrinsic.smod32 a b)
  | .udivmod64 n d dest => .ofEntry (Intrinsic.udivmod64 n d dest)
  | .udiv64 n d => .ofEntry (Intrinsic.udiv64 n d)
  | .umod64 n d => .ofEntry (Intrinsic.umod64 n d)
  | .sdiv64 a b => .ofEntry (Intrinsic.sdiv64 a b)
  | .smod64 a b => .ofEntry (Intrinsic.smod64 a b)
  | .shl64 v distance => .ofEntry (Intrinsic.shl64 o v distance)
  | .ashr64 v distance => .ofEntry (Intrinsic.ashr64 o v distance)
  | .lshr64 v distance => .ofEntry (Intrinsic.lshr64 o v distance)

/-- The ending that the operands let a caller foresee. -/
def foreseen : Call o → Ending
  | .wideDivMod _ d _ | .wideDiv _ d | .wideMod _ d | .wideSdiv _ d | .wideSmod _ d =>
    if d = 0 then .fault .divisionByZero else .result
  | .shiftLeft _ distance | .shiftRight _ distance | .sshiftRight _ distance =>
    if distance < 64 then .result else .fault (.violated .distanceBelowWide)
  | .lsbMask bits => if bits ≤ 32 then .result else .fault (.violated .maskWithinWord)
  | .join _ l => if l.toNat ≤ 0xffff then .result else .fault (.violated .lowHalfFits)
  | .tryDivRem _ d => if d = 0 then .refusal .divisionByZero else .result
  | .wideTryDivRem _ d => if d = 0 then .refusal .divisionByZero else .result
  | .udivmod64 _ d _ | .udiv64 _ d | .umod64 _ d | .sdiv64 _ d | .smod64 _ d =>
    if d = 0 then .abort .divisionByZero else .result
  | .shl64 _ distance | .ashr64 _ distance | .lshr64 _ distance =>
    if distance < 64 then .result else .abort (.violated .distanceBelowWide)
  | _ => .result

/-- Every call ends as its operands let foresee; there is no other fault, refusal or abort. -/
theorem ending_eq_foreseen (erase : DoubleWord.Eraser) (c : Call o) :
    c.ending erase = c.foreseen := by
  cases c with
  | default | new | ofWide | ofInt | high | highSigned | low | words | debugText | toWide | toInt
  | same | zeroize | convertWide | convertInt | convertToWide | convertToInt | sameOrder
  | orderText | samePart | partText | sameReason | reasonText | reasonMessage | halves | mul
  | mul32 => rfl
  | lsbMask bits =>
    rw [ending, Word.lsbMask_eq]
    exact Ending.ofChecked_result_if _ _
  | join h l =>
    rw [ending, Word.join_eq]
    exact Ending.ofChecked_result_if _ _
  | mulWide a b =>
    obtain ⟨p, hp, _⟩ := Word.mulWide_value (o := o) a b
    rw [ending, hp]
    rfl
  | wideMul a b => rw [ending, Wide.mul_eq]; rfl
  | divRem n d => rw [ending, Word.divRem_eq]; rfl
  | divPart n d part => rw [ending, Word.divPart_eq]; rfl
  | div n d => rw [ending, Word.div_eq]; rfl
  | mod n d => rw [ending, Word.mod_eq]; rfl
  | tryDivRem n d =>
    rw [ending, Word.tryDivRem_eq]
    exact Ending.ofTested_refusal_if _ _
  | sdiv a b => rw [ending, Word.sdiv_eq]; rfl
  | smod a b => rw [ending, Word.smod_eq]; rfl
  | wideDivMod n d dest =>
    rw [ending, Wide.divMod_fst]
    exact Ending.ofChecked_fault_if _ _
  | wideDiv n d =>
    rw [ending, Wide.div_eq]
    exact Ending.ofChecked_fault_if _ _
  | wideMod n d =>
    rw [ending, Wide.mod_eq]
    exact Ending.ofChecked_fault_if _ _
  | wideTryDivRem n d =>
    rw [ending, Wide.tryDivRem_eq]
    exact Ending.ofTested_refusal_if _ _
  | wideSdiv a b =>
    rw [ending, Wide.sdiv_eq]
    exact Ending.ofChecked_fault_if _ _
  | wideSmod a b =>
    rw [ending, Wide.smod_eq]
    exact Ending.ofChecked_fault_if _ _
  | shiftLeft d distance =>
    rw [ending, DoubleWord.shiftLeft_eq]
    exact Ending.ofChecked_result_if _ _
  | shiftRight d distance =>
    rw [ending, DoubleWord.shiftRight_eq]
    exact Ending.ofChecked_result_if _ _
  | sshiftRight d distance =>
    rw [ending, DoubleWord.sshiftRight_eq]
    exact Ending.ofChecked_result_if _ _
  | mulWide32 a b =>
    obtain ⟨p, hp, _⟩ := Intrinsic.mulWide32_value o a b
    rw [ending, hp]
    rfl
  | mul64 a b => rw [ending, Intrinsic.mul64_eq]; rfl
  | udivmod32 n d flag =>
    rw [ending, Intrinsic.udivmod32_eq, Intrinsic.umod32_eq, Intrinsic.udiv32_eq]
    split <;> rfl
  | udiv32 n d => rw [ending, Intrinsic.udiv32_eq]; rfl
  | umod32 n d => rw [ending, Intrinsic.umod32_eq]; rfl
  | sdiv32 a b => rw [ending, Intrinsic.sdiv32_eq]; rfl
  | smod32 a b => rw [ending, Intrinsic.smod32_eq]; rfl
  | udivmod64 n d dest =>
    rw [ending, Intrinsic.udivmod64_eq]
    exact Ending.ofEntry_abort_if _ _
  | udiv64 n d =>
    rw [ending, Intrinsic.udiv64_eq]
    exact Ending.ofEntry_abort_if _ _
  | umod64 n d =>
    rw [ending, Intrinsic.umod64_eq]
    exact Ending.ofEntry_abort_if _ _
  | sdiv64 a b =>
    rw [ending, Intrinsic.sdiv64_eq]
    exact Ending.ofEntry_abort_if _ _
  | smod64 a b =>
    rw [ending, Intrinsic.smod64_eq]
    exact Ending.ofEntry_abort_if _ _
  | shl64 v distance =>
    rw [ending, Intrinsic.shl64_eq]
    exact Ending.ofEntry_result_if _ _
  | ashr64 v distance =>
    rw [ending, Intrinsic.ashr64_eq]
    exact Ending.ofEntry_result_if _ _
  | lshr64 v distance =>
    rw [ending, Intrinsic.lshr64_eq]
    exact Ending.ofEntry_result_if _ _

end Call

end WordArith
