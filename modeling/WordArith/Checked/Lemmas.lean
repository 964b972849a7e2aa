import Mathlib
import WordArith.Checked

/- Checked sums and products succeed where the exact result fits the width. A sum that is known
   to fit is a `Sum`: its value is that of its terms together (`Sum.toNat`). -/
namespace WordArith.Checked

variable {w : Nat}

theorem add_of_lt {x y : BitVec w} (h : x.toNat + y.toNat < 2 ^ w) :
    add x y = .ok (x + y) := by
  rw [add, BitVec.uaddOverflow, decide_eq_false (Nat.not_le.mpr h)]
  rfl

/-- A sum that is exact has not left the width. -/
theorem add_eq_ok {x y z : BitVec w} (h : x.toNat + y.toNat = z.toNat) : add x y = .ok z := by
  have hlt : x.toNat + y.toNat < 2 ^ w := h ▸ z.isLt
  rw [add_of_lt hlt]
  refine congrArg Except.ok (BitVec.eq_of_toNat_eq ?_)
  rw [BitVec.toNat_add, Nat.mod_eq_of_lt hlt, h]

/-- The sum of `x` and `y` stays below the top of the width, and the checked step gives it as
    `z`. -/
structure Sum (x y z : BitVec w) : Prop where
  lt : x.toNat + y.toNat < 2 ^ w
  taken : add x y = .ok z

theorem Sum.of_lt {x y : BitVec w} (h : x.toNat + y.toNat < 2 ^ w) : Sum x y (x + y) :=
  ⟨h, add_of_lt h⟩

theorem Sum.toNat {x y z : BitVec w} (h : Sum x y z) : z.toNat = x.toNat + y.toNat := by
  have hz : x + y = z := Except.ok.inj ((add_of_lt h.lt).symm.trans h.taken)
  rw [← hz, BitVec.toNat_add, Nat.mod_eq_of_lt h.lt]

theorem mul_of_lt {x y : BitVec w} (h : x.toNat * y.toNat < 2 ^ w) :
    mul x y = .ok (x * y) := by
  rw [mul, BitVec.umulOverflow, decide_eq_false (Nat.not_le.mpr h)]
  rfl

end WordArith.Checked
