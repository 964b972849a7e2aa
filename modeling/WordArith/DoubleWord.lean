import WordArith.Word

/- Double words: two words that stand for one wide integer.

   The words are stored in one of two orders, and only the view of the storage shows
   which: high and low word, the value and equality are the same under both. This file

   1. defines the two orders, the places they give to the high and the low word
      (`WordOrder`, `highIndex`, `lowIndex`), and for each the type of double words stored
      in it (`DoubleWord`);
   2. defines the construction from a high and a low word, the two words of a double word,
      read from their places (`new`, `high`, `low`), and the storage (`words`,
      `debugText`);
   3. defines the value as a wide word and as a signed number, both ways (`toWide`,
      `ofWide`, `toInt`, `ofInt`);
   4. names what the erasing of double words is relied on for (`Eraser.Erases`); a way of
      erasing is supplied from outside (`Eraser`);
   5. states how the views of a new double word follow from its two words, that these are
      all there is to it (`new_high_low`), and how they are stored in either order
      (`words_lowFirst`, `words_highFirst`). -/
namespace WordArith

/-- Which word of a double word is stored first. -/
inductive WordOrder where
  | lowFirst
  | highFirst
deriving DecidableEq, Repr

/-- The place of the high word. -/
def WordOrder.highIndex : WordOrder → Fin 2
  | .lowFirst => 1
  | .highFirst => 0

/-- The place of the low word, which is the other one. -/
def WordOrder.lowIndex (o : WordOrder) : Fin 2 := 1 - o.highIndex

def WordOrder.debugText : WordOrder → String
  | .lowFirst => "LowFirst"
  | .highFirst => "HighFirst"

/-- Two words, stored in the given order. -/
structure DoubleWord (order : WordOrder) where
  v : Vector Word 2
deriving DecidableEq, Repr

namespace DoubleWord

variable {o : WordOrder}

/-- The double word of a high and a low word. -/
def new (high low : Word) : DoubleWord o where
  v :=
    match o with
    | .lowFirst => #v[low, high]
    | .highFirst => #v[high, low]

def high (d : DoubleWord o) : Word := d.v[o.highIndex]

/-- The high word as a signed number, which carries the sign of the double word. -/
def highSigned (d : DoubleWord o) : Int := d.v[o.highIndex].toInt

def low (d : DoubleWord o) : Word := d.v[o.lowIndex]

/-- The two words as stored. -/
def words (d : DoubleWord o) : List Word := d.v.toList

/-- The stored words in decimal. -/
def debugText (d : DoubleWord o) : String :=
  "DoubleWord \x7b v: [" ++ toString d.v[0].toNat ++ ", " ++ toString d.v[1].toNat ++ "] \x7d"

/-- The double word that holds zero. -/
def zero : DoubleWord o := ⟨Vector.replicate 2 0⟩

instance : Inhabited (DoubleWord o) := ⟨zero⟩

def toWide (d : DoubleWord o) : Wide := d.high.setWidth 64 <<< wordBits ||| d.low.setWidth 64

def ofWide (v : Wide) : DoubleWord o := new ((v >>> wordBits).setWidth 32) (v.setWidth 32)

/-- The value as a signed number, in two's complement. -/
def toInt (d : DoubleWord o) : Int := d.toWide.toInt

/-- The double word of a signed number, wrapped to the range of a wide word. -/
def ofInt (v : Int) : DoubleWord o := ofWide (BitVec.ofInt 64 v)

/-- A way of erasing double words, for either order of storage. It is supplied from outside. -/
abbrev Eraser := ∀ o : WordOrder, DoubleWord o → DoubleWord o

/-- All that is relied on: both stored words are zero afterwards. -/
def Eraser.Erases (erase : Eraser) : Prop := ∀ (o : WordOrder) (d : DoubleWord o),
  (erase o d).words = [0, 0]

@[simp] theorem high_new (h l : Word) : (new h l : DoubleWord o).high = h := by cases o <;> rfl

@[simp] theorem low_new (h l : Word) : (new h l : DoubleWord o).low = l := by cases o <;> rfl

theorem highSigned_eq (d : DoubleWord o) : d.highSigned = d.high.toInt := rfl

/-- The two places are all places, whichever of them is the high one. -/
@[simp] theorem new_high_low (d : DoubleWord o) : new d.high d.low = d := by
  cases o <;>
    exact congrArg mk (Vector.ext fun
      | 0, _ => rfl
      | 1, _ => rfl)

theorem words_lowFirst (d : DoubleWord .lowFirst) : d.words = [d.low, d.high] := by
  rw [← new_high_low d]
  rfl

theorem words_highFirst (d : DoubleWord .highFirst) : d.words = [d.high, d.low] := by
  rw [← new_high_low d]
  rfl

/-- The stored words determine the double word. -/
theorem words_inj {d e : DoubleWord o} : d.words = e.words ↔ d = e := by
  cases d
  cases e
  simp [words, Vector.toList_inj]

end DoubleWord

end WordArith
