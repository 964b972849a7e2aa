import WordArith.DoubleWord

/- Conversions between double words and numbers that the two types choose.

   A double word is made from a wide integer or a signed number, and turned into either,
   without the conversion being named. -/
namespace WordArith

/-- The conversion from one type to another. -/
class Conversion (α β : Type) where
  convert : α → β

namespace DoubleWord

variable {o : WordOrder}

instance : Conversion Wide (DoubleWord o) := ⟨ofWide⟩

instance : Conversion Int (DoubleWord o) := ⟨ofInt⟩

instance : Conversion (DoubleWord o) Wide := ⟨toWide⟩

instance : Conversion (DoubleWord o) Int := ⟨toInt⟩

end DoubleWord

end WordArith
