import Mathlib
import WordArith.DoubleWord.Lemmas
import WordArith.Proofs.Shift
import WordArith.Proofs.Signed

/- Two shifts of a double word, one after the other.

   A shift looks at its own distance only and takes the branch for it, so two shifts in a
   row go through any two of the branches. Their values do not show that. This file

   1. says that an operation does to the value what a shift of wide integers does
      (`ActsOn`), which holds of the three shifts, and so of two of them in a row
      (`ActsOn.andThen`);
   2. adds the distances of two shifts of one kind (`Composes`, `shifts_compose`): a sum of
      two words or more is no distance, but what is left after so many places is one double
      word for each kind;
   3. takes two shifts by one distance in opposite directions (`opposite_shifts`). To the
      left first, they cut the value to its low bits and extend it again, by zeros
      (`toNat_shiftLeft_ushiftRight`) or by the sign that was moved to the top
      (`shiftLeft_sshiftRight`); to the right first, they clear the low bits (`Cleared`). -/
namespace WordArith.DoubleWord

variable {o : WordOrder} {w j k : Nat}

/-! ## Shifts by their values -/

/-- The operation has a result for every distance below two words, and its value is that of
    `onValue`. -/
def ActsOn (shift : DoubleWord o → Nat → Checked (DoubleWord o)) (onValue : Wide → Nat → Wide) :
    Prop :=
  ∀ (d : DoubleWord o) (k : Nat), k < 64 → shift d k = .ok (ofWide (onValue d.toWide k))

theorem actsOn_shiftLeft : ActsOn (shiftLeft (o := o)) (· <<< ·) := fun d _ => shiftLeft_of_lt d

theorem actsOn_shiftRight : ActsOn (shiftRight (o := o)) (· >>> ·) := fun d _ => shiftRight_of_lt d

theorem actsOn_sshiftRight : ActsOn (sshiftRight (o := o)) BitVec.sshiftRight :=
  fun d _ => sshiftRight_of_lt d

theorem ActsOn.andThen {first second : DoubleWord o → Nat → Checked (DoubleWord o)}
    {f g : Wide → Nat → Wide} (hf : ActsOn first f) (hg : ActsOn second g) (d : DoubleWord o)
    (hj : j < 64) (hk : k < 64) :
    (first d j >>= (second · k)) = .ok (ofWide (g (f d.toWide j) k)) := by
  rw [hf d j hj, Checked.ok_bind, hg _ k hk, toWide_ofWide]

/-! ## Distances that add up -/

theorem sshiftRight_of_ge (x : BitVec w) (hk : w ≤ k) :
    x.sshiftRight k = x.sshiftRight (w - 1) := by
  apply BitVec.eq_of_getLsbD_eq
  intro i hi
  rw [getLsbD_sshiftRight_sign x (by omega) hi, getLsbD_sshiftRight_sign x (by omega) hi]

/-- The shift by `j` and then by `k` is the shift by the sum as far as that is a distance, and ends
    in `limit` beyond. It does not matter which comes first. -/
structure Composes (shift : DoubleWord o → Nat → Checked (DoubleWord o)) (d limit : DoubleWord o)
    (j k : Nat) : Prop where
  within : j + k < 64 → ∃ s, (shift d j >>= (shift · k)) = .ok s ∧ shift d (j + k) = .ok s
  beyond : 64 ≤ j + k → (shift d j >>= (shift · k)) = .ok limit
  swapped : (shift d j >>= (shift · k)) = (shift d k >>= (shift · j))

theorem ActsOn.composes {shift : DoubleWord o → Nat → Checked (DoubleWord o)}
    {f : Wide → Nat → Wide} (hf : ActsOn shift f) (hadd : ∀ v j k, f (f v j) k = f v (j + k))
    (d : DoubleWord o) {limit : Wide} (hlimit : ∀ n, 64 ≤ n → f d.toWide n = limit) (hj : j < 64)
    (hk : k < 64) : Composes shift d (ofWide limit) j k := by
  have hjk := hf.andThen hf d hj hk
  have hkj := hf.andThen hf d hk hj
  rw [hadd] at hjk hkj
  refine ⟨?_, ?_, ?_⟩
  · intro hsum
    exact ⟨_, hjk, hf d (j + k) hsum⟩
  · intro hsum
    rw [hjk, hlimit _ hsum]
  · rw [hjk, hkj, Nat.add_comm]

/-- Two shifts of one kind are one shift by the sum of their distances, in whatever order. Where
    the sum is out of range, no bit is left of the value, or nothing but its sign. -/
theorem shifts_compose (d : DoubleWord o) (hj : j < 64) (hk : k < 64) :
    Composes shiftLeft d zero j k ∧ Composes shiftRight d zero j k ∧
      ∃ s, d.sshiftRight 63 = .ok s ∧ Composes sshiftRight d s j k := by
  have hzero : (ofWide 0 : DoubleWord o) = zero := by cases o <;> rfl
  refine ⟨?_, ?_, ?_⟩
  · rw [← hzero]
    refine actsOn_shiftLeft.composes (fun v j k => ?_) d (fun n hn => ?_) hj hk
    · exact (BitVec.shiftLeft_add v j k).symm
    · exact BitVec.shiftLeft_eq_zero hn
  · rw [← hzero]
    refine actsOn_shiftRight.composes (fun v j k => ?_) d (fun n hn => ?_) hj hk
    · exact (BitVec.shiftRight_add v j k).symm
    · exact BitVec.ushiftRight_eq_zero hn
  · refine ⟨_, sshiftRight_of_lt d (by decide), ?_⟩
    refine actsOn_sshiftRight.composes (fun v j k => ?_) d (fun n hn => ?_) hj hk
    · exact BitVec.sshiftRight_add.symm
    · exact sshiftRight_of_ge d.toWide hn

/-- Below a word twice, together above it: two short shifts build the words of a long one. Below a
    word, then above it: together two words, the first sum that is no distance. -/
theorem shifts_compose_across_words : 20 < 64 ∧ 25 < 64 ∧ 31 < 64 ∧ 33 < 64 ∧
    (∃ s t u : DoubleWord .highFirst,
      ((new 0x80000001 7).shiftLeft 20 >>= (·.shiftLeft 25)) = .ok s ∧
      (new 0x80000001 7).shiftLeft 45 = .ok s ∧ s = new 0xe000 0 ∧
      ((new 0x80000001 7).shiftRight 20 >>= (·.shiftRight 25)) = .ok t ∧
      (new 0x80000001 7).shiftRight 45 = .ok t ∧ t = new 0 0x40000 ∧
      ((new 0x80000001 7).sshiftRight 20 >>= (·.sshiftRight 25)) = .ok u ∧
      (new 0x80000001 7).sshiftRight 45 = .ok u ∧ u = new 0xffffffff 0xfffc0000) ∧
    ((new 0x80000001 7 : DoubleWord .highFirst).shiftLeft 31 >>= (·.shiftLeft 33)) = .ok zero ∧
    ((new 0x80000001 7 : DoubleWord .highFirst).shiftRight 31 >>= (·.shiftRight 33)) = .ok zero ∧
    ((new 0x80000001 7 : DoubleWord .highFirst).sshiftRight 31 >>= (·.sshiftRight 33)) =
      .ok (ofInt (-1)) := by
  have h20 : 20 < 64 := by decide
  have h25 : 25 < 64 := by decide
  have h31 : 31 < 64 := by decide
  have h33 : 33 < 64 := by decide
  refine ⟨h20, h25, h31, h33, ?_, ?_⟩
  · have hsum : 20 + 25 < 64 := by decide
    obtain ⟨hleft, hright, _, _, hsigned⟩ :=
      shifts_compose (new 0x80000001 7 : DoubleWord .highFirst) h20 h25
    obtain ⟨s, hs, hs'⟩ := hleft.within hsum
    obtain ⟨t, ht, ht'⟩ := hright.within hsum
    obtain ⟨u, hu, hu'⟩ := hsigned.within hsum
    refine ⟨s, t, u, hs, hs', ?_, ht, ht', ?_, hu, hu', ?_⟩
    · exact Except.ok.inj (hs'.symm.trans (by decide))
    · exact Except.ok.inj (ht'.symm.trans (by decide))
    · exact Except.ok.inj (hu'.symm.trans (by decide))
  · have hsum : 64 ≤ 31 + 33 := by decide
    obtain ⟨hleft, hright, s, hs, hsigned⟩ :=
      shifts_compose (new 0x80000001 7 : DoubleWord .highFirst) h31 h33
    have hsign : s = ofInt (-1) := Except.ok.inj (hs.symm.trans (by decide))
    exact ⟨hleft.beyond hsum, hright.beyond hsum, hsign ▸ hsigned.beyond hsum⟩

/-! ## Opposite directions -/

/-- The bits that leave on the left do not come back. -/
theorem toNat_shiftLeft_ushiftRight (x : BitVec w) (hk : k ≤ w) :
    ((x <<< k) >>> k).toNat = x.toNat % 2 ^ (w - k) := by
  have hpow : 2 ^ w = 2 ^ (w - k) * 2 ^ k := by rw [← Nat.pow_add, Nat.sub_add_cancel hk]
  rw [BitVec.toNat_ushiftRight, BitVec.toNat_shiftLeft, Nat.shiftRight_eq_div_pow,
    Nat.shiftLeft_eq, hpow, Nat.mul_mod_mul_right]
  exact Nat.mul_div_cancel _ (Nat.two_pow_pos k)

/-- The bit that the shift to the left has moved to the top is the sign of the rest. -/
theorem shiftLeft_sshiftRight (x : BitVec w) (hk : k < w) :
    (x <<< k).sshiftRight k = (x.setWidth (w - k)).signExtend w := by
  apply BitVec.eq_of_getLsbD_eq
  intro i hi
  rw [BitVec.getLsbD_signExtend, decide_eq_true hi, Bool.true_and]
  by_cases hki : k + i < w
  · have hkept : i < w - k := by omega
    rw [getLsbD_sshiftRight_of_lt _ hki, getLsbD_shiftLeft_of_le _ (Nat.le_add_right k i) hki,
      Nat.add_sub_cancel_left, if_pos hkept, BitVec.getLsbD_setWidth, decide_eq_true hkept,
      Bool.true_and]
  · have hout : ¬i < w - k := by omega
    have hleft : 0 < w - k := by omega
    have hplace : w - 1 - k = w - k - 1 := by omega
    rw [getLsbD_sshiftRight_of_le _ (by omega) hi, BitVec.msb_eq_getLsbD_last,
      getLsbD_shiftLeft_of_le _ (by omega) (by omega), if_neg hout, BitVec.msb_setWidth,
      decide_eq_true hleft, Bool.true_and, hplace]

theorem getLsbD_ushiftRight_shiftLeft (x : BitVec w) (k i : Nat) :
    ((x >>> k) <<< k).getLsbD i = (decide (k ≤ i) && x.getLsbD i) := by
  by_cases hik : i < k
  · rw [getLsbD_shiftLeft_of_lt _ hik, decide_eq_false (Nat.not_le.mpr hik), Bool.false_and]
  have hki : k ≤ i := Nat.not_lt.mp hik
  rw [decide_eq_true hki, Bool.true_and]
  by_cases hi : i < w
  · rw [getLsbD_shiftLeft_of_le _ hki hi, BitVec.getLsbD_ushiftRight, Nat.add_sub_cancel' hki]
  · rw [BitVec.getLsbD_of_ge _ _ (Nat.not_lt.mp hi), BitVec.getLsbD_of_ge _ _ (Nat.not_lt.mp hi)]

theorem toNat_ushiftRight_shiftLeft (x : BitVec w) (k : Nat) :
    ((x >>> k) <<< k).toNat = x.toNat - x.toNat % 2 ^ k := by
  have hle := Nat.div_mul_le_self x.toNat (2 ^ k)
  rw [BitVec.toNat_shiftLeft, BitVec.toNat_ushiftRight, Nat.shiftRight_eq_div_pow, Nat.shiftLeft_eq,
    Nat.mod_eq_of_lt (Nat.lt_of_le_of_lt hle x.isLt)]
  exact Nat.div_mul_self_eq_mod_sub_self

/-- What enters on the left leaves again. -/
theorem sshiftRight_shiftLeft (x : BitVec w) (k : Nat) :
    x.sshiftRight k <<< k = (x >>> k) <<< k := by
  apply BitVec.eq_of_getLsbD_eq
  intro i hi
  by_cases hik : i < k
  · rw [getLsbD_shiftLeft_of_lt _ hik, getLsbD_shiftLeft_of_lt _ hik]
  · have hki : k ≤ i := Nat.not_lt.mp hik
    rw [getLsbD_shiftLeft_of_le _ hki hi, getLsbD_shiftLeft_of_le _ hki hi,
      getLsbD_sshiftRight_of_lt x (by omega), BitVec.getLsbD_ushiftRight]

/-- `s` is the signed number that the low `n` bits of `d` hold. -/
structure SignExtended (n : Nat) (d s : DoubleWord o) : Prop where
  value : s.toWide = (d.toWide.setWidth n).signExtend 64
  lower : -2 ^ (n - 1) ≤ s.toInt
  upper : s.toInt < 2 ^ (n - 1)
  modEq : s.toInt ≡ d.toWide.toNat [ZMOD 2 ^ n]

/-- `s` is `d` without its low `k` bits. -/
structure Cleared (k : Nat) (d s : DoubleWord o) : Prop where
  bits : ∀ i, s.toWide.getLsbD i = (decide (k ≤ i) && d.toWide.getLsbD i)
  value : s.toWide.toNat = d.toWide.toNat - d.toWide.toNat % 2 ^ k

theorem signExtended_signExtend (d : DoubleWord o) {n : Nat} (hn : n ≤ 64) :
    SignExtended n d (ofWide ((d.toWide.setWidth n).signExtend 64)) := by
  have hvalue : (ofWide ((d.toWide.setWidth n).signExtend 64) : DoubleWord o).toInt =
      (d.toWide.setWidth n).toInt := by
    rw [toInt, toWide_ofWide, BitVec.toInt_signExtend_of_le hn]
  refine ⟨toWide_ofWide _, ?_, ?_, ?_⟩
  · rw [hvalue]
    exact BitVec.le_toInt _
  · rw [hvalue]
    exact BitVec.toInt_lt
  · rw [hvalue, Int.ModEq, Signed.toInt_emod, BitVec.toNat_setWidth]
    push_cast
    rfl

theorem cleared_shiftLeft (d : DoubleWord o) (k : Nat) :
    Cleared k d (ofWide ((d.toWide >>> k) <<< k)) where
  bits i := by rw [toWide_ofWide, getLsbD_ushiftRight_shiftLeft]
  value := by rw [toWide_ofWide, toNat_ushiftRight_shiftLeft]

/-- Shifted to the left and back, a double word keeps what the places left hold, as a number from
    zero up or as a signed number. Shifted to the right and back, it loses its low bits, whatever
    enters on the left in between. -/
theorem opposite_shifts (d : DoubleWord o) (hk : k < 64) :
    (∃ s, (d.shiftLeft k >>= (·.shiftRight k)) = .ok s ∧
      s.toWide.toNat = d.toWide.toNat % 2 ^ (64 - k)) ∧
    (∃ s, (d.shiftLeft k >>= (·.sshiftRight k)) = .ok s ∧ SignExtended (64 - k) d s) ∧
    ∃ s, (d.shiftRight k >>= (·.shiftLeft k)) = .ok s ∧
      (d.sshiftRight k >>= (·.shiftLeft k)) = .ok s ∧ Cleared k d s := by
  refine ⟨⟨_, actsOn_shiftLeft.andThen actsOn_shiftRight d hk hk, ?_⟩,
    ⟨_, actsOn_shiftLeft.andThen actsOn_sshiftRight d hk hk, ?_⟩,
    ⟨_, actsOn_shiftRight.andThen actsOn_shiftLeft d hk hk, ?_, cleared_shiftLeft d k⟩⟩
  · rw [toWide_ofWide]
    exact toNat_shiftLeft_ushiftRight d.toWide (Nat.le_of_lt hk)
  · have hcut := shiftLeft_sshiftRight d.toWide hk
    show SignExtended (64 - k) d (ofWide ((d.toWide <<< k).sshiftRight k))
    rw [hcut]
    exact signExtended_signExtend d (Nat.sub_le 64 k)
  · have hback := actsOn_sshiftRight.andThen actsOn_shiftLeft d hk hk
    rw [hback]
    exact congrArg (fun v => Except.ok (ofWide v)) (sshiftRight_shiftLeft d.toWide k)

/-- A distance of more than a word. The sign comes out of the middle of the low word, and neither
    word is negative. -/
theorem opposite_shifts_long : 33 < 64 ∧ ∃ s t u : DoubleWord .lowFirst,
    ((new 0x12345679 0x4abcdef1).shiftLeft 33 >>= (·.shiftRight 33)) = .ok s ∧
    s.toWide.toNat = 0x4abcdef1 ∧
    ((new 0x12345679 0x4abcdef1).shiftLeft 33 >>= (·.sshiftRight 33)) = .ok t ∧
    t.toInt = -0x3543210f ∧
    ((new 0x12345679 0x4abcdef1).shiftRight 33 >>= (·.shiftLeft 33)) = .ok u ∧
    ((new 0x12345679 0x4abcdef1).sshiftRight 33 >>= (·.shiftLeft 33)) = .ok u ∧
    u.toWide.toNat = 0x1234567800000000 := by
  have hk : 33 < 64 := by decide
  obtain ⟨⟨s, hs, hzero⟩, ⟨t, ht, hsign⟩, u, hu, hu', hclear⟩ :=
    opposite_shifts (new 0x12345679 0x4abcdef1 : DoubleWord .lowFirst) hk
  refine ⟨hk, s, t, u, hs, hzero.trans (by decide), ht, ?_, hu, hu',
    hclear.value.trans (by decide)⟩
  rw [toInt, hsign.value]
  decide

end WordArith.DoubleWord
