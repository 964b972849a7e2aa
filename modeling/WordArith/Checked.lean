import WordArith.Fault

/- Arithmetic steps that fault where the exact result leaves the range of the word.

   A step on words of any width is the wrapping step together with a test that nothing
   wrapped; a step on bit counts is the step on natural numbers. The tests are taken as
   active everywhere, also those of preconditions (`require`); a division by zero faults
   in any case. A shift has a test of its distance where that is computed. A constant
   distance needs none, because a program in which one is out of range is refused before it
   runs, so a shift by a constant is the plain shift. This file defines the steps, states
   where they succeed as far as that needs no bound on the values (`sub_of_le`,
   `shiftLeft_of_lt`, …), and says how faults pass into the results of testing divisions
   (`orFail`) and of entry points (`orAbort`). -/
namespace WordArith

abbrev Checked (α : Type) := Except Fault α

namespace Checked

variable {w : Nat} {α β ε : Type}

@[simp] theorem ok_bind (a : α) (f : α → Except ε β) : (Except.ok a >>= f) = f a := rfl

@[simp] theorem error_bind (e : ε) (f : α → Except ε β) :
    (Except.error e >>= f) = Except.error e := rfl

@[simp] theorem map_ok (f : α → β) (a : α) : f <$> (Except.ok a : Except ε α) = .ok (f a) := rfl

@[simp] theorem map_error (f : α → β) (e : ε) :
    f <$> (Except.error e : Except ε α) = .error e := rfl

/-- A computation that met no fault, inside one with further effects. -/
theorem liftM_ok {m : Type → Type} [Monad m] [MonadLiftT Checked m] [LawfulMonadLiftT Checked m]
    (a : α) : (liftM (Except.ok a : Checked α) : m α) = pure a := monadLift_pure a

/-- Faults unless the condition holds. -/
def require (p : Prop) [Decidable p] (condition : Precondition) : Checked Unit :=
  if p then .ok () else .error (.violated condition)

def add (x y : BitVec w) : Checked (BitVec w) :=
  if x.uaddOverflow y then .error (.overflow .add) else .ok (x + y)

def sub (x y : BitVec w) : Checked (BitVec w) :=
  if x.usubOverflow y then .error (.overflow .subtract) else .ok (x - y)

def mul (x y : BitVec w) : Checked (BitVec w) :=
  if x.umulOverflow y then .error (.overflow .multiply) else .ok (x * y)

/-- The native division of words, rounded downwards. -/
def div (x y : BitVec w) : Checked (BitVec w) :=
  if y = 0 then .error .divisionByZero else .ok (x / y)

/-- A shift faults where its distance is not below the width; bits shifted out are dropped. -/
def shiftLeft (x : BitVec w) (k : Nat) : Checked (BitVec w) :=
  if k < w then .ok (x <<< k) else .error (.overflow .shiftLeft)

def shiftRight (x : BitVec w) (k : Nat) : Checked (BitVec w) :=
  if k < w then .ok (x >>> k) else .error (.overflow .shiftRight)

/-- The shift to the right that copies the sign bit into the places it vacates. -/
def sshiftRight (x : BitVec w) (k : Nat) : Checked (BitVec w) :=
  if k < w then .ok (x.sshiftRight k) else .error (.overflow .shiftRight)

/-- The difference of two bit counts. -/
def subCount (m n : Nat) : Checked Nat :=
  if n ≤ m then .ok (m - n) else .error (.overflow .subtract)

theorem require_of {p : Prop} [Decidable p] {c : Precondition} (h : p) :
    require p c = .ok () := if_pos h

theorem require_of_not {p : Prop} [Decidable p] {c : Precondition} (h : ¬p) :
    require p c = .error (.violated c) := if_neg h

theorem sub_of_le {x y : BitVec w} (h : y ≤ x) : sub x y = .ok (x - y) := by
  have hn : ¬x.toNat < y.toNat := Nat.not_lt.mpr h
  rw [sub, BitVec.usubOverflow, decide_eq_false hn]
  rfl

theorem div_zero (x : BitVec w) : div x 0 = .error .divisionByZero := if_pos rfl

theorem shiftLeft_of_lt {x : BitVec w} {k : Nat} (h : k < w) :
    shiftLeft x k = .ok (x <<< k) := if_pos h

theorem shiftRight_of_lt {x : BitVec w} {k : Nat} (h : k < w) :
    shiftRight x k = .ok (x >>> k) := if_pos h

theorem sshiftRight_of_lt {x : BitVec w} {k : Nat} (h : k < w) :
    sshiftRight x k = .ok (x.sshiftRight k) := if_pos h

theorem subCount_of_le {m n : Nat} (h : n ≤ m) : subCount m n = .ok (m - n) := if_pos h

/-- A faulting computation as one that may also refuse. -/
def orFail (x : Checked α) : Except Failure α := x.mapError .fault

@[simp] theorem orFail_ok (a : α) : orFail (.ok a) = .ok a := rfl

@[simp] theorem orFail_error (e : Fault) : orFail (.error e : Checked α) = .error (.fault e) := rfl

theorem map_orFail (f : α → β) (x : Checked α) : f <$> x.orFail = orFail (f <$> x) := by
  cases x <;> rfl

/-- A faulting computation as an entry point's: a fault ends it. -/
def orAbort (x : Checked α) : Except Abort α := x.mapError .mk

@[simp] theorem orAbort_ok (a : α) : orAbort (.ok a) = .ok a := rfl

@[simp] theorem orAbort_error (e : Fault) : orAbort (.error e : Checked α) = .error ⟨e⟩ := rfl

end Checked

end WordArith
