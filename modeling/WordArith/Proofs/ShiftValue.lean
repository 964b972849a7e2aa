import Mathlib
import WordArith.DoubleWord.Lemmas
import WordArith.Proofs.Shift
import WordArith.Proofs.Signed
import WordArith.Proofs.WordShifts

/- Shifts of double words in numbers and in places.

   The three shifts move the bits of the value; they differ in the direction and in what
   they put where no bit arrives. This file

   1. says of two double words that one has the bits of the other in new places, word by
      word (`Moved`). A bit that crosses the boundary between the words arrives in the
      other word and nowhere else. On the values the boundary cannot be seen
      (`Moved.of_toWide`), so the shifted values have their bits moved
      (`moved_shiftLeft`, `moved_shiftRight`, `moved_sshiftRight`);
   2. concludes what the shifts make of the value as a number: the one that copies the
      sign divides and rounds downwards (`sshiftRight_floor`), the two that fill with
      zeros multiply and divide (`logical_shifts`). -/
namespace WordArith.DoubleWord

variable {o : WordOrder} {k : Nat}

/-! ## Bits in new places -/

/-- The bits of `d` are in `s` where `move` takes them: each of them from its word to the word of
    its new place. Where none arrives there is `fill`. -/
structure Moved (move : Nat → Nat → Prop) (fill : Bool) (d s : DoubleWord o) : Prop where
  lowToLow : ∀ i < 32, ∀ j < 32, move i j → s.low.getLsbD j = d.low.getLsbD i
  lowToHigh : ∀ i < 32, ∀ j < 32, move i (j + 32) → s.high.getLsbD j = d.low.getLsbD i
  highToLow : ∀ i < 32, ∀ j < 32, move (i + 32) j → s.low.getLsbD j = d.high.getLsbD i
  highToHigh : ∀ i < 32, ∀ j < 32, move (i + 32) (j + 32) → s.high.getLsbD j = d.high.getLsbD i
  lowFilled : ∀ j < 32, (∀ i < 64, ¬move i j) → s.low.getLsbD j = fill
  highFilled : ∀ j < 32, (∀ i < 64, ¬move i (j + 32)) → s.high.getLsbD j = fill

/-- On the value the boundary between the words cannot be seen. -/
theorem Moved.of_toWide {move : Nat → Nat → Prop} {fill : Bool} {d s : DoubleWord o}
    (moved : ∀ i < 64, ∀ j < 64, move i j → s.toWide.getLsbD j = d.toWide.getLsbD i)
    (filled : ∀ j < 64, (∀ i < 64, ¬move i j) → s.toWide.getLsbD j = fill) :
    Moved move fill d s where
  lowToLow i hi j hj h := by
    rw [← getLsbD_toWide_of_lt s hj, ← getLsbD_toWide_of_lt d hi]
    exact moved i (by omega) j (by omega) h
  lowToHigh i hi j hj h := by
    rw [getLsbD_high, ← getLsbD_toWide_of_lt d hi]
    exact moved i (by omega) (j + 32) (by omega) h
  highToLow i hi j hj h := by
    rw [← getLsbD_toWide_of_lt s hj, getLsbD_high]
    exact moved (i + 32) (by omega) j (by omega) h
  highToHigh i hi j hj h := by
    rw [getLsbD_high, getLsbD_high]
    exact moved (i + 32) (by omega) (j + 32) (by omega) h
  lowFilled j hj h := by
    rw [← getLsbD_toWide_of_lt s hj]
    exact filled j (by omega) h
  highFilled j hj h := by
    rw [getLsbD_high]
    exact filled (j + 32) (by omega) h

/-- Upwards by `k`, zeros below. -/
theorem moved_shiftLeft (d : DoubleWord o) (k : Nat) :
    Moved (fun i j => j = i + k) false d (ofWide (d.toWide <<< k)) := by
  apply Moved.of_toWide
  · rintro i hi _ hj rfl
    rw [toWide_ofWide, getLsbD_shiftLeft_of_le _ (Nat.le_add_left k i) hj, Nat.add_sub_cancel]
  · intro j hj hnone
    have hjk : j < k := by
      by_contra hge
      exact hnone (j - k) (by omega) (by omega)
    rw [toWide_ofWide, getLsbD_shiftLeft_of_lt _ hjk]

/-- Downwards by `k`, the fill where the source would lie above the value. -/
theorem Moved.down {fill : Bool} {d s : DoubleWord o}
    (moved : ∀ j, k + j < 64 → s.toWide.getLsbD j = d.toWide.getLsbD (k + j))
    (filled : ∀ j < 64, 64 ≤ k + j → s.toWide.getLsbD j = fill) :
    Moved (fun i j => i = j + k) fill d s := by
  apply Moved.of_toWide
  · rintro _ hi j _ rfl
    rw [Nat.add_comm j k] at hi ⊢
    exact moved j hi
  · intro j hj hnone
    refine filled j hj (Nat.not_lt.mp fun hlt => ?_)
    exact hnone (k + j) hlt (Nat.add_comm k j)

theorem moved_shiftRight (d : DoubleWord o) (k : Nat) :
    Moved (fun i j => i = j + k) false d (ofWide (d.toWide >>> k)) := by
  refine Moved.down ?_ ?_
  · intro j _
    rw [toWide_ofWide, BitVec.getLsbD_ushiftRight]
  · intro j _ hout
    rw [toWide_ofWide, BitVec.getLsbD_ushiftRight, BitVec.getLsbD_of_ge _ _ hout]

theorem moved_sshiftRight (d : DoubleWord o) (k : Nat) :
    Moved (fun i j => i = j + k) (d.toWide.getLsbD 63) d (ofWide (d.toWide.sshiftRight k)) := by
  refine Moved.down ?_ ?_
  · intro j hj
    rw [toWide_ofWide, getLsbD_sshiftRight_of_lt _ hj]
  · intro j hj hout
    rw [toWide_ofWide, getLsbD_sshiftRight_of_le _ hout hj, BitVec.msb_eq_getLsbD_last]

/-! ## Values -/

/-- The shift that copies the sign divides by a power of two and rounds downwards, also where the
    value is negative. The places it vacates get copies of the top bit. -/
theorem sshiftRight_floor (d : DoubleWord o) (hk : k < 64) :
    ∃ s, d.sshiftRight k = .ok s ∧ s.toInt = ⌊(d.toInt : ℚ) / 2 ^ k⌋ ∧
      Moved (fun i j => i = j + k) (d.toWide.getLsbD 63) d s := by
  refine ⟨ofWide (d.toWide.sshiftRight k), sshiftRight_of_lt d hk, ?_, moved_sshiftRight d k⟩
  rw [toInt, toWide_ofWide]
  exact Signed.toInt_sshiftRight_eq_floor d.toWide k

/-- An odd negative value and a distance of more than a word: the quotient is below the truncated
    one. -/
theorem sshiftRight_floor_negative : 33 < 64 ∧
    ∃ s : DoubleWord .highFirst, (ofInt (-0x10000000001)).sshiftRight 33 = .ok s ∧
      s.toInt = -129 := by
  have hk : 33 < 64 := by decide
  obtain ⟨s, hs, hvalue, -⟩ := sshiftRight_floor (ofInt (-0x10000000001) : DoubleWord .highFirst) hk
  refine ⟨hk, s, hs, hvalue.trans ?_⟩
  have hd : (ofInt (-0x10000000001) : DoubleWord .highFirst).toInt = -0x10000000001 := by decide
  rw [hd, Int.floor_eq_iff]
  norm_num

/-- The shifts that fill with zeros multiply modulo `2 ^ 64` and divide. Every bit that stays
    below `2 ^ 64` is in its new place, carries in the other word. The word shifts on the way are
    by `wordDistances k`, none of them by a word or more. -/
theorem logical_shifts (d : DoubleWord o) (hk : k < 64) :
    (∃ s, d.shiftLeft k = .ok s ∧ s.toWide.toNat = d.toWide.toNat * 2 ^ k % 2 ^ 64 ∧
      Moved (fun i j => j = i + k) false d s ∧
      ∃ distances, (d.shiftLeftBy .noting k).run [] = .ok (s, distances) ∧
        distances = wordDistances k ∧ ∀ n ∈ distances, n < 32) ∧
    ∃ s, d.shiftRight k = .ok s ∧ s.toWide.toNat = d.toWide.toNat / 2 ^ k ∧
      Moved (fun i j => i = j + k) false d s ∧
      ∃ distances, (d.shiftRightBy .noting k).run [] = .ok (s, distances) ∧
        distances = wordDistances k ∧ ∀ n ∈ distances, n < 32 := by
  have hleft := shiftLeftBy_noting d hk
  have hright := shiftRightBy_noting d hk
  have hbelow := lt_of_mem_wordDistances hk
  refine ⟨⟨_, shiftLeft_of_lt d hk, ?_, moved_shiftLeft d k, _, hleft, rfl, hbelow⟩,
    ⟨_, shiftRight_of_lt d hk, ?_, moved_shiftRight d k, _, hright, rfl, hbelow⟩⟩
  · rw [toWide_ofWide, BitVec.toNat_shiftLeft, Nat.shiftLeft_eq]
  · rw [toWide_ofWide, BitVec.toNat_ushiftRight, Nat.shiftRight_eq_div_pow]

/-- A distance next to a word: all bits of one word but one cross the boundary. -/
theorem logical_shifts_across : 31 < 64 ∧
    ∃ s t : DoubleWord .lowFirst, (new 0x80000001 0x80000001).shiftLeft 31 = .ok s ∧
      s.toWide.toNat = 0xc000000080000000 ∧
      (new 0x80000001 0x80000001).shiftRight 31 = .ok t ∧ t.toWide.toNat = 0x100000003 := by
  have hk : 31 < 64 := by decide
  obtain ⟨⟨s, hs, hsv, -⟩, t, ht, htv, -⟩ :=
    logical_shifts (new 0x80000001 0x80000001 : DoubleWord .lowFirst) hk
  exact ⟨hk, s, t, hs, hsv.trans (by decide), ht, htv.trans (by decide)⟩

end WordArith.DoubleWord
