/- Signs of quotients and remainders.

   A signed division divides the magnitudes of its operands and then sets the sign: the
   quotient is negative if one operand is and the other is not, the remainder if the
   dividend is. Negation wraps. The magnitude of the least number is a word that is negative
   when read as signed, and comes out right because it is its own negation. -/
namespace WordArith.Signed

variable {w : Nat}

/-- The quotient of two signed operands, from the quotient of their magnitudes. -/
def quotient (a b quot : BitVec w) : BitVec w := if a.msb ≠ b.msb then -quot else quot

/-- The remainder under a signed dividend, from the remainder of the magnitudes. -/
def remainder (a rem : BitVec w) : BitVec w := if a.msb then -rem else rem

end WordArith.Signed
