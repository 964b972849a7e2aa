import Mathlib
import WordArith.DoubleWord.Lemmas
import WordArith.DoubleWord.Shift

/- A shift of a double word is the shift of its value.

   Double words are compared bit by bit: a bit of the value below 32 is a bit of the low
   word, any other is a bit of the high word. This file

   1. says which bit of a word a shift puts at a place (`getLsbD_shiftLeft_of_le`, …) and
      proves the reading of the value (`getLsbD_toWide`), from which a double word built
      from two words is the double word of a value as soon as their bits agree
      (`new_eq_ofWide`);
   2. says which case of a shift a distance takes: zero, less than a word or a word or more
      (`distance_cases`, `byDistance_of_short`, `byDistance_of_long`), whatever the word
      shifts are, and follows the three shifts through the cases to the words they build
      (`shiftLeft_of_short`, `shiftLeft_of_long`, …). No word shift inside is by a word or
      more;
   3. shows that these words are those of the shifted value (`new_left_short`, …), and puts
      the cases together (`eq_shift_of_cases`): a distance of two words or more is the
      only cause of a fault (`shiftLeft_eq`, `shiftRight_eq`, `sshiftRight_eq`). -/
namespace WordArith.DoubleWord

variable {o : WordOrder} {w k i : Nat}

/-! ## Bits of a shifted word -/

theorem getLsbD_shiftLeft_of_lt (x : BitVec w) (h : i < k) : (x <<< k).getLsbD i = false := by
  simp [h]

theorem getLsbD_shiftLeft_of_le (x : BitVec w) (h : k ≤ i) (hi : i < w) :
    (x <<< k).getLsbD i = x.getLsbD (i - k) := by
  have hki : ¬i < k := Nat.not_lt.mpr h
  simp only [BitVec.getLsbD_shiftLeft, hi, hki, decide_true, decide_false, Bool.not_false,
    Bool.true_and]

theorem getLsbD_sshiftRight_of_lt (x : BitVec w) (h : k + i < w) :
    (x.sshiftRight k).getLsbD i = x.getLsbD (k + i) := by
  have hi : ¬w ≤ i := by omega
  simp [BitVec.getLsbD_sshiftRight, h, hi]

/-- The places a shift to the right vacates get the sign. -/
theorem getLsbD_sshiftRight_of_le (x : BitVec w) (h : w ≤ k + i) (hi : i < w) :
    (x.sshiftRight k).getLsbD i = x.msb := by
  have hki : ¬k + i < w := Nat.not_lt.mpr h
  rw [BitVec.getLsbD_sshiftRight, if_neg hki, decide_eq_false (Nat.not_le.mpr hi)]
  exact Bool.true_and _

/-- From one less than the width on, a shift leaves copies of the sign only. -/
theorem getLsbD_sshiftRight_sign (x : BitVec w) (hk : w ≤ k + 1) (hi : i < w) :
    (x.sshiftRight k).getLsbD i = x.msb := by
  by_cases hki : k + i < w
  · -- The one bit that is not vacated gets the sign by moving.
    have hlast : k + i = w - 1 := by omega
    rw [getLsbD_sshiftRight_of_lt x hki, hlast, BitVec.msb_eq_getLsbD_last]
  · exact getLsbD_sshiftRight_of_le x (Nat.not_lt.mp hki) hi

/-! ## Bits of the value -/

theorem getLsbD_toWide (d : DoubleWord o) (i : Nat) :
    d.toWide.getLsbD i = if i < 32 then d.low.getLsbD i else d.high.getLsbD (i - 32) := by
  simp only [toWide, wordBits, BitVec.getLsbD_or, BitVec.getLsbD_shiftLeft,
    BitVec.getLsbD_setWidth]
  by_cases hi : i < 32
  · have hwide : i < 64 := by omega
    simp [hi, hwide]
  · have hlow : d.low.getLsbD i = false := BitVec.getLsbD_of_ge _ _ (by omega)
    by_cases hi' : i < 64
    · have hhigh : i - 32 < 64 := by omega
      simp [hi, hi', hlow, hhigh]
    · have hhigh : d.high.getLsbD (i - 32) = false := BitVec.getLsbD_of_ge _ _ (by omega)
      simp [hi, hi', hhigh]

theorem getLsbD_toWide_of_lt (d : DoubleWord o) (h : i < 32) :
    d.toWide.getLsbD i = d.low.getLsbD i := by
  rw [getLsbD_toWide, if_pos h]

theorem getLsbD_toWide_of_le (d : DoubleWord o) (h : 32 ≤ i) :
    d.toWide.getLsbD i = d.high.getLsbD (i - 32) := by
  rw [getLsbD_toWide, if_neg (Nat.not_lt.mpr h)]

theorem getLsbD_high (d : DoubleWord o) (i : Nat) :
    d.high.getLsbD i = d.toWide.getLsbD (i + 32) := by
  rw [getLsbD_toWide_of_le d (Nat.le_add_left 32 i), Nat.add_sub_cancel]

theorem msb_toWide (d : DoubleWord o) : d.toWide.msb = d.high.msb := by
  rw [BitVec.msb_eq_getLsbD_last, BitVec.msb_eq_getLsbD_last]
  exact getLsbD_toWide_of_le d (by decide)

/-- Two words that have the bits of a value are its double word. -/
theorem new_eq_ofWide {h l : Word} {v : Wide} (hl : ∀ i < 32, l.getLsbD i = v.getLsbD i)
    (hh : ∀ i < 32, h.getLsbD i = v.getLsbD (i + 32)) : (new h l : DoubleWord o) = ofWide v := by
  rw [← ofWide_toWide (new h l : DoubleWord o)]
  congr 1
  apply BitVec.eq_of_getLsbD_eq
  intro i hi
  by_cases hlow : i < 32
  · rw [getLsbD_toWide_of_lt _ hlow, low_new, hl i hlow]
  · have hplace : i - 32 + 32 = i := by omega
    rw [getLsbD_toWide_of_le _ (Nat.not_lt.mp hlow), high_new, hh (i - 32) (by omega), hplace]

/-! ## Cases of a shift -/

theorem lack_lt (h0 : k ≠ 0) : 32 - k < 32 := Nat.sub_lt (by decide) (Nat.pos_of_ne_zero h0)

theorem excess_lt (hge : 32 ≤ k) (hk : k < 64) : k - 32 < 32 := Nat.sub_lt_left_of_lt_add hge hk

/-- What the tests in a shift say of a distance below a word. -/
theorem short_distance (hk : k < 32) : k < 2 * wordBits ∧ ¬wordBits ≤ k ∧ k ≤ wordBits :=
  ⟨Nat.lt_trans hk (by decide), Nat.not_le.mpr hk, Nat.le_of_lt hk⟩

/-- What they say of one of a word or more. -/
theorem long_distance (hge : 32 ≤ k) (hk : k < 64) : k < 2 * wordBits ∧ k ≠ 0 ∧ wordBits ≤ k :=
  ⟨hk, Nat.ne_of_gt (Nat.lt_of_lt_of_le (by decide) hge), hge⟩

/-- A distance is zero, less than a word, or a word or more. -/
theorem distance_cases {P : Nat → Prop} (zero : P 0) (short : ∀ k, k ≠ 0 → k < 32 → P k)
    (long : ∀ k, 32 ≤ k → k < 64 → P k) (hk : k < 64) : P k := by
  by_cases h0 : k = 0
  · rw [h0]
    exact zero
  by_cases hlt : k < 32
  · exact short k h0 hlt
  · exact long k (Nat.not_lt.mp hlt) hk

section AnyMonad

variable {m : Type → Type} [Monad m] [LawfulMonad m] [MonadLiftT Checked m]
  [LawfulMonadLiftT Checked m] (d : DoubleWord o) (long short : Nat → m (DoubleWord o))

theorem byDistance_zero : d.byDistance 0 long short = pure d := by
  have hwide : 0 < 2 * wordBits := by decide
  rw [byDistance, Checked.require_of hwide, Checked.liftM_ok, pure_bind, if_pos rfl]

theorem byDistance_of_short (h0 : k ≠ 0) (hk : k < 32) :
    d.byDistance k long short = short (32 - k) := by
  obtain ⟨hwide, hshort, hle⟩ := short_distance hk
  rw [byDistance, Checked.require_of hwide, Checked.liftM_ok, pure_bind, if_neg h0, if_neg hshort,
    Checked.subCount_of_le hle, Checked.liftM_ok, pure_bind]
  rfl

theorem byDistance_of_long (hge : 32 ≤ k) (hk : k < 64) :
    d.byDistance k long short = long (k - 32) := by
  obtain ⟨hwide, h0, hlong⟩ := long_distance hge hk
  rw [byDistance, Checked.require_of hwide, Checked.liftM_ok, pure_bind, if_neg h0, if_pos hlong,
    Checked.subCount_of_le hlong, Checked.liftM_ok, pure_bind]
  rfl

end AnyMonad

/-- The distance is tested before anything else, also before the double word is looked at. -/
theorem byDistance_of_out (d : DoubleWord o) (long short : Nat → Checked (DoubleWord o))
    (hk : ¬k < 64) : d.byDistance k long short = .error (.violated .distanceBelowWide) := by
  have hout : ¬k < 2 * wordBits := hk
  rw [byDistance, Checked.require_of_not hout]
  rfl

/-! The checked word shifts below a word. -/

theorem checked_left_of_lt (x : Word) (hk : k < 32) : WordShifts.checked.left x k = .ok (x <<< k) :=
  Checked.shiftLeft_of_lt hk

theorem checked_right_of_lt (x : Word) (hk : k < 32) :
    WordShifts.checked.right x k = .ok (x >>> k) :=
  Checked.shiftRight_of_lt hk

theorem checked_signedRight_of_lt (x : Word) (hk : k < 32) :
    WordShifts.checked.signedRight x k = .ok (x.sshiftRight k) :=
  Checked.sshiftRight_of_lt hk

/-- An operation shifts the value if it does so in each of its cases and faults from two words
    on. -/
theorem eq_shift_of_cases {shift : Nat → Checked (DoubleWord o)} {onValue : Nat → Wide}
    (zero : shift 0 = .ok (ofWide (onValue 0)))
    (short : ∀ k, k ≠ 0 → k < 32 → shift k = .ok (ofWide (onValue k)))
    (long : ∀ k, 32 ≤ k → k < 64 → shift k = .ok (ofWide (onValue k)))
    (out : ∀ k, ¬k < 64 → shift k = .error (.violated .distanceBelowWide)) (k : Nat) :
    shift k =
      if k < 64 then .ok (ofWide (onValue k)) else .error (.violated .distanceBelowWide) := by
  by_cases hk : k < 64
  · rw [if_pos hk]
    exact distance_cases (P := fun k => shift k = .ok (ofWide (onValue k))) zero short long hk
  · rw [if_neg hk, out k hk]

/-! ## Shifts to the left -/

theorem shiftLeft_zero (d : DoubleWord o) : d.shiftLeft 0 = .ok d := byDistance_zero d _ _

theorem shiftLeft_of_short (d : DoubleWord o) (h0 : k ≠ 0) (hk : k < 32) :
    d.shiftLeft k = .ok (.new (d.high <<< k ||| d.low >>> (32 - k)) (d.low <<< k)) := by
  rw [shiftLeft, shiftLeftBy, byDistance_of_short d _ _ h0 hk, checked_right_of_lt _ (lack_lt h0),
    Checked.ok_bind, checked_left_of_lt _ hk, Checked.ok_bind, checked_left_of_lt _ hk,
    Checked.ok_bind]
  rfl

theorem shiftLeft_of_long (d : DoubleWord o) (hge : 32 ≤ k) (hk : k < 64) :
    d.shiftLeft k = .ok (.new (d.low <<< (k - 32)) 0) := by
  rw [shiftLeft, shiftLeftBy, byDistance_of_long d _ _ hge hk,
    checked_left_of_lt _ (excess_lt hge hk), Checked.ok_bind]
  rfl

theorem new_left_short (d : DoubleWord o) (hk : k < 32) :
    (new (d.high <<< k ||| d.low >>> (32 - k)) (d.low <<< k) : DoubleWord o) =
      ofWide (d.toWide <<< k) := by
  apply new_eq_ofWide
  · intro i hi
    by_cases hik : i < k
    · rw [getLsbD_shiftLeft_of_lt _ hik, getLsbD_shiftLeft_of_lt _ hik]
    · have hki : k ≤ i := Nat.not_lt.mp hik
      have hlow : i - k < 32 := by omega
      rw [getLsbD_shiftLeft_of_le _ hki hi, getLsbD_shiftLeft_of_le _ hki (by omega),
        getLsbD_toWide_of_lt d hlow]
  · intro i hi
    rw [getLsbD_shiftLeft_of_le d.toWide (by omega) (by omega), BitVec.getLsbD_or,
      BitVec.getLsbD_ushiftRight]
    -- Below the distance the bit comes out of the low word, else out of the high word.
    by_cases hik : i < k
    · have hplace : 32 - k + i = i + 32 - k := by omega
      rw [getLsbD_shiftLeft_of_lt _ hik, Bool.false_or, hplace,
        getLsbD_toWide_of_lt d (by omega)]
    · have hplace : i + 32 - k - 32 = i - k := by omega
      have hgone : d.low.getLsbD (32 - k + i) = false := BitVec.getLsbD_of_ge _ _ (by omega)
      rw [getLsbD_shiftLeft_of_le _ (Nat.not_lt.mp hik) hi, hgone, Bool.or_false,
        getLsbD_toWide_of_le d (by omega), hplace]

/-- The low word moves up; the upper word leaves the double word. -/
theorem new_left_long (d : DoubleWord o) (hge : 32 ≤ k) :
    (new (d.low <<< (k - 32)) 0 : DoubleWord o) = ofWide (d.toWide <<< k) := by
  apply new_eq_ofWide
  · intro i hi
    rw [getLsbD_shiftLeft_of_lt _ (by omega)]
    exact BitVec.getLsbD_zero
  · intro i hi
    by_cases hik : i + 32 < k
    · rw [getLsbD_shiftLeft_of_lt _ (by omega), getLsbD_shiftLeft_of_lt _ hik]
    · have hplace : i - (k - 32) = i + 32 - k := by omega
      rw [getLsbD_shiftLeft_of_le _ (by omega) hi, getLsbD_shiftLeft_of_le _ (by omega) (by omega),
        getLsbD_toWide_of_lt d (by omega), hplace]

theorem shiftLeft_eq (d : DoubleWord o) (k : Nat) : d.shiftLeft k =
    if k < 64 then .ok (ofWide (d.toWide <<< k)) else .error (.violated .distanceBelowWide) := by
  refine eq_shift_of_cases ?_ ?_ ?_ ?_ k
  · rw [shiftLeft_zero, BitVec.shiftLeft_zero, ofWide_toWide]
  · intro k h0 hk
    rw [shiftLeft_of_short d h0 hk, new_left_short d hk]
  · intro k hge hk
    rw [shiftLeft_of_long d hge hk, new_left_long d hge]
  · intro k hk
    exact byDistance_of_out d _ _ hk

theorem shiftLeft_of_lt (d : DoubleWord o) (hk : k < 64) :
    d.shiftLeft k = .ok (ofWide (d.toWide <<< k)) := by
  rw [shiftLeft_eq, if_pos hk]

/-! ## Shifts to the right

The two differ in what enters from the left, so in the high word only; the low word of a short
shift takes in what the high word loses. -/

theorem getLsbD_low_carries (d : DoubleWord o) (hk : k < 32) (hi : i < 32) :
    (d.low >>> k ||| d.high <<< (32 - k)).getLsbD i = d.toWide.getLsbD (k + i) := by
  rw [BitVec.getLsbD_or, BitVec.getLsbD_ushiftRight]
  by_cases hki : k + i < 32
  · rw [getLsbD_shiftLeft_of_lt _ (by omega), Bool.or_false, getLsbD_toWide_of_lt d hki]
  · have hplace : i - (32 - k) = k + i - 32 := by omega
    have hgone : d.low.getLsbD (k + i) = false := BitVec.getLsbD_of_ge _ _ (by omega)
    rw [getLsbD_shiftLeft_of_le _ (by omega) hi, hgone, Bool.false_or,
      getLsbD_toWide_of_le d (by omega), hplace]

/-! Zeros enter. -/

theorem shiftRight_zero (d : DoubleWord o) : d.shiftRight 0 = .ok d := byDistance_zero d _ _

theorem shiftRight_of_short (d : DoubleWord o) (h0 : k ≠ 0) (hk : k < 32) :
    d.shiftRight k = .ok (.new (d.high >>> k) (d.low >>> k ||| d.high <<< (32 - k))) := by
  rw [shiftRight, shiftRightBy, byDistance_of_short d _ _ h0 hk, checked_left_of_lt _ (lack_lt h0),
    Checked.ok_bind, checked_right_of_lt _ hk, Checked.ok_bind, checked_right_of_lt _ hk,
    Checked.ok_bind]
  rfl

theorem shiftRight_of_long (d : DoubleWord o) (hge : 32 ≤ k) (hk : k < 64) :
    d.shiftRight k = .ok (.new 0 (d.high >>> (k - 32))) := by
  rw [shiftRight, shiftRightBy, byDistance_of_long d _ _ hge hk,
    checked_right_of_lt _ (excess_lt hge hk), Checked.ok_bind]
  rfl

theorem new_right_short (d : DoubleWord o) (hk : k < 32) :
    (new (d.high >>> k) (d.low >>> k ||| d.high <<< (32 - k)) : DoubleWord o) =
      ofWide (d.toWide >>> k) := by
  apply new_eq_ofWide
  · intro i hi
    rw [getLsbD_low_carries d hk hi, BitVec.getLsbD_ushiftRight]
  · intro i hi
    have hplace : k + (i + 32) - 32 = k + i := by omega
    rw [BitVec.getLsbD_ushiftRight, BitVec.getLsbD_ushiftRight, getLsbD_toWide_of_le d (by omega),
      hplace]

theorem new_right_long (d : DoubleWord o) (hge : 32 ≤ k) :
    (new 0 (d.high >>> (k - 32)) : DoubleWord o) = ofWide (d.toWide >>> k) := by
  apply new_eq_ofWide
  · intro i hi
    have hplace : k - 32 + i = k + i - 32 := by omega
    rw [BitVec.getLsbD_ushiftRight, BitVec.getLsbD_ushiftRight, getLsbD_toWide_of_le d (by omega),
      hplace]
  · intro i hi
    have hgone : d.high.getLsbD (k + (i + 32) - 32) = false := BitVec.getLsbD_of_ge _ _ (by omega)
    rw [BitVec.getLsbD_ushiftRight, getLsbD_toWide_of_le d (by omega), hgone]
    exact BitVec.getLsbD_zero

theorem shiftRight_eq (d : DoubleWord o) (k : Nat) : d.shiftRight k =
    if k < 64 then .ok (ofWide (d.toWide >>> k)) else .error (.violated .distanceBelowWide) := by
  refine eq_shift_of_cases ?_ ?_ ?_ ?_ k
  · rw [shiftRight_zero, BitVec.ushiftRight_zero, ofWide_toWide]
  · intro k h0 hk
    rw [shiftRight_of_short d h0 hk, new_right_short d hk]
  · intro k hge hk
    rw [shiftRight_of_long d hge hk, new_right_long d hge]
  · intro k hk
    exact byDistance_of_out d _ _ hk

theorem shiftRight_of_lt (d : DoubleWord o) (hk : k < 64) :
    d.shiftRight k = .ok (ofWide (d.toWide >>> k)) := by
  rw [shiftRight_eq, if_pos hk]

/-! Copies of the sign enter. -/

theorem sshiftRight_zero (d : DoubleWord o) : d.sshiftRight 0 = .ok d := byDistance_zero d _ _

theorem sshiftRight_of_short (d : DoubleWord o) (h0 : k ≠ 0) (hk : k < 32) :
    d.sshiftRight k =
      .ok (.new (d.high.sshiftRight k) (d.low >>> k ||| d.high <<< (32 - k))) := by
  rw [sshiftRight, sshiftRightBy, byDistance_of_short d _ _ h0 hk,
    checked_left_of_lt _ (lack_lt h0), Checked.ok_bind, checked_signedRight_of_lt _ hk,
    Checked.ok_bind, checked_right_of_lt _ hk, Checked.ok_bind]
  rfl

theorem sshiftRight_of_long (d : DoubleWord o) (hge : 32 ≤ k) (hk : k < 64) :
    d.sshiftRight k =
      .ok (.new (d.high.sshiftRight 31) (d.high.sshiftRight (k - 32))) := by
  rw [sshiftRight, sshiftRightBy, byDistance_of_long d _ _ hge hk,
    checked_signedRight_of_lt _ (excess_lt hge hk), Checked.ok_bind]
  rfl

theorem new_sright_short (d : DoubleWord o) (hk : k < 32) :
    (new (d.high.sshiftRight k) (d.low >>> k ||| d.high <<< (32 - k)) : DoubleWord o) =
      ofWide (d.toWide.sshiftRight k) := by
  apply new_eq_ofWide
  · intro i hi
    rw [getLsbD_low_carries d hk hi, getLsbD_sshiftRight_of_lt _ (by omega)]
  · intro i hi
    by_cases hki : k + i < 32
    · have hplace : k + (i + 32) - 32 = k + i := by omega
      rw [getLsbD_sshiftRight_of_lt _ hki, getLsbD_sshiftRight_of_lt _ (by omega),
        getLsbD_toWide_of_le d (by omega), hplace]
    · rw [getLsbD_sshiftRight_of_le _ (by omega) hi,
        getLsbD_sshiftRight_of_le _ (by omega) (by omega), msb_toWide]

theorem new_sright_long (d : DoubleWord o) (hge : 32 ≤ k) (hk : k < 64) :
    (new (d.high.sshiftRight 31) (d.high.sshiftRight (k - 32)) : DoubleWord o) =
      ofWide (d.toWide.sshiftRight k) := by
  apply new_eq_ofWide
  · intro i hi
    by_cases hki : k + i < 64
    · have hplace : k - 32 + i = k + i - 32 := by omega
      rw [getLsbD_sshiftRight_of_lt _ (by omega), getLsbD_sshiftRight_of_lt _ hki,
        getLsbD_toWide_of_le d (by omega), hplace]
    · rw [getLsbD_sshiftRight_of_le _ (by omega) hi,
        getLsbD_sshiftRight_of_le _ (by omega) (by omega), msb_toWide]
  · intro i hi
    rw [getLsbD_sshiftRight_sign _ (by decide) hi,
      getLsbD_sshiftRight_of_le _ (by omega) (by omega), msb_toWide]

theorem sshiftRight_eq (d : DoubleWord o) (k : Nat) : d.sshiftRight k =
    if k < 64 then .ok (ofWide (d.toWide.sshiftRight k))
    else .error (.violated .distanceBelowWide) := by
  refine eq_shift_of_cases ?_ ?_ ?_ ?_ k
  · rw [sshiftRight_zero, BitVec.sshiftRight_zero, ofWide_toWide]
  · intro k h0 hk
    rw [sshiftRight_of_short d h0 hk, new_sright_short d hk]
  · intro k hge hk
    rw [sshiftRight_of_long d hge hk, new_sright_long d hge hk]
  · intro k hk
    exact byDistance_of_out d _ _ hk

theorem sshiftRight_of_lt (d : DoubleWord o) (hk : k < 64) :
    d.sshiftRight k = .ok (ofWide (d.toWide.sshiftRight k)) := by
  rw [sshiftRight_eq, if_pos hk]

end WordArith.DoubleWord
