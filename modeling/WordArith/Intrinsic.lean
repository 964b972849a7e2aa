import WordArith.Word.ShiftAdd
import WordArith.Word.Division
import WordArith.DoubleWord.Product
import WordArith.DoubleWord.Shift
import WordArith.Wide.Product
import WordArith.Wide.Division

/- The entry points a compiler calls for arithmetic that its target lacks.

   Each entry point has the signature of the operation it stands for, on 32 or on 64
   bits, and hands its operands to the operation of this library that does the work. A
   signed operand or result is passed as the word or wide integer with its bits. The
   caller is compiled code, which a fault cannot be returned to, so a fault ends the
   call with an `Abort`; the entry points without that result cannot fault.

   Where an operation takes its operands apart into double words, the entry point takes
   the order in which they are stored. -/
namespace WordArith.Intrinsic

/-! Products. -/

def mul32 (a b : Word) : Word := Word.mul a b

/-- The product of two words as a wide integer. -/
def mulWide32 (o : WordOrder) (a b : Word) : Except Abort Wide := Checked.orAbort do
  let product : DoubleWord o ← Word.mulWide a b
  return product.toWide

def mul64 (o : WordOrder) (a b : Wide) : Except Abort Wide := (Wide.mul o a b).orAbort

/-! Division of words. -/

/-- The remainder if the flag is not zero, else the quotient. -/
def udivmod32 (n d : Word) (wantsRemainder : Word) : Except Abort Word :=
  (Word.divPart n d (if wantsRemainder ≠ 0 then .remainder else .quotient)).orAbort

def udiv32 (n d : Word) : Except Abort Word := (Word.divPart n d .quotient).orAbort

def umod32 (n d : Word) : Except Abort Word := (Word.divPart n d .remainder).orAbort

def sdiv32 (a b : Word) : Except Abort Word := (Word.sdiv a b).orAbort

def smod32 (a b : Word) : Except Abort Word := (Word.smod a b).orAbort

/-! Division of wide integers. -/

/-- The quotient, and the destination of the remainder afterwards. -/
def udivmod64 (n d : Wide) (dest : Option Wide) : Except Abort (Wide × Option Wide) :=
  match Wide.divMod n d dest with
  | (.ok quot, after) => .ok (quot, after)
  | (.error e, _) => .error ⟨e⟩

def udiv64 (n d : Wide) : Except Abort Wide := (Wide.divMod n d none).1.orAbort

/-- The destination, which holds zero before. -/
def umod64 (n d : Wide) : Except Abort Wide :=
  match Wide.divMod n d (some 0) with
  | (.ok _, after) => .ok (after.getD 0)
  | (.error e, _) => .error ⟨e⟩

def sdiv64 (a b : Wide) : Except Abort Wide := (Wide.sdiv a b).orAbort

def smod64 (a b : Wide) : Except Abort Wide := (Wide.smod a b).orAbort

/-! Shifts. -/

/-- A shift of double words as one of wide integers. -/
def shift64 {o : WordOrder} (shift : DoubleWord o → Nat → Checked (DoubleWord o)) (v : Wide)
    (distance : Nat) : Except Abort Wide := Checked.orAbort do
  let shifted ← shift (.ofWide v) distance
  return shifted.toWide

def shl64 (o : WordOrder) (v : Wide) (distance : Nat) : Except Abort Wide :=
  shift64 (DoubleWord.shiftLeft (o := o)) v distance

/-- The shift to the right that copies the sign. -/
def ashr64 (o : WordOrder) (v : Wide) (distance : Nat) : Except Abort Wide :=
  shift64 (DoubleWord.sshiftRight (o := o)) v distance

/-- The shift to the right that fills with zeros. -/
def lshr64 (o : WordOrder) (v : Wide) (distance : Nat) : Except Abort Wide :=
  shift64 (DoubleWord.shiftRight (o := o)) v distance

end WordArith.Intrinsic
