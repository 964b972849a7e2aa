import Mathlib
import WordArith.Word.Division
import WordArith.Wide.Division
import WordArith.Proofs.LongDivision

/- The invariants of the two loops of a long division, in both divisions.

   Each loop is taken at its heads, the states in which its condition is tested. This file

   1. shows that the alignment of words stops where that of wide integers does, although it
      tests the marker as well (`AtPlace.belowMarked_iff`, `exists_aligned_alignMarked`);
   2. takes the heads of the rounds as the states that the turns of the loop reach (`Turn`,
      `Reaches`). The loop has a result where one of them has lost its marker, and this is
      the result (`reduce_eq_ok_iff`);
   3. states what a turn keeps (`Kept`, `Turn.keeps`) and follows it to all heads
      (`Reaches.keeps`). With the marker in the word divisor and marker are in step and
      the two ways of noting are one (`Dividing.setBit_eq_addBit`). The last turn shifts
      the marker out and divides the divisor once too often, so a head without a marker
      keeps only the balance of dividend, quotient and rest;
   4. concludes that both divisions keep these invariants from the alignment to the result
      (`divisions_keep_invariant`). -/
namespace WordArith.LongDivision

variable {w : Nat} {n d : BitVec w} {s t : LongDivision w} {note : Note w} {j k : Nat}
  {going going' : LongDivision w → Prop}

/-! ## Alignment -/

/-- The alignment that watches the marker goes on at `s`. -/
def BelowMarked (s : LongDivision w) : Prop :=
  s.den < s.num ∧ s.marker ≠ 0 ∧ s.den &&& signMask w = 0

/-- While the marker is in the word it has no say in the alignment. -/
theorem AtPlace.belowMarked_iff (h : AtPlace d k s) : BelowMarked s ↔ Below s := by
  constructor
  · rintro ⟨hlt, -, htop⟩
    exact ⟨htop, hlt⟩
  · rintro ⟨htop, hlt⟩
    exact ⟨hlt, h.marker_ne_zero, htop⟩

/-- Conditions that agree on the way stop the alignment at the same head. -/
theorem Aligned.of_iff (h : Aligned going n d k s)
    (hiff : ∀ {j t}, AtPlace d j t → (going' t ↔ going t)) : Aligned going' n d k s where
  __ := h
  goesOn j hj := (hiff (h.lossless j (Nat.le_of_lt hj))).mpr (h.goesOn j hj)
  stops hgo := h.stops ((hiff ⟨h.den, h.marker⟩).mp hgo)

theorem exists_aligned_alignMarked (n : BitVec w) (hd : d ≠ 0) :
    ∃ k, Aligned BelowMarked n d k (start n d).alignMarked := by
  obtain ⟨k, h⟩ := exists_aligned_align n hd
  have hat := atPlace_start (width_pos_of_ne_zero hd) n d
  rw [alignMarked_eq_align hd (start n d) hd 0 hat]
  exact ⟨k, h.of_iff AtPlace.belowMarked_iff⟩

/-! ## Heads of the rounds -/

/-- The loop goes on at `s`, and one round takes it to `t`. -/
def Turn (note : Note w) (s t : LongDivision w) : Prop := s.marker ≠ 0 ∧ step note s = .ok t

/-- A loop whose first head is `s` comes to the head `t`. -/
abbrev Reaches (note : Note w) : LongDivision w → LongDivision w → Prop :=
  Relation.ReflTransGen (Turn note)

/-- From each head that it reaches, the loop has the same result still before it. -/
theorem Reaches.reduce_eq (h : Reaches note s t) : reduce note s = reduce note t := by
  induction h with
  | refl => rfl
  | tail _ hturn ih =>
    obtain ⟨hgo, hstep⟩ := hturn
    rw [ih, reduce_of_marker_ne_zero hgo, hstep, Checked.ok_bind]

theorem reaches_of_reduce (h : reduce note s = .ok t) : Reaches note s t ∧ t.marker = 0 := by
  -- Along the recursion of the loop: `case1` is its end, `case2` a turn.
  fun_induction reduce note s with
  | case1 s hend =>
    obtain rfl : s = t := Except.ok.inj h
    exact ⟨.refl, hend⟩
  | case2 s hgo ih =>
    cases htake : s.takeOff note with
    | error cause =>
      rw [htake] at h
      cases h
    | ok taken =>
      rw [htake] at h
      obtain ⟨hreach, hend⟩ := ih taken.1 taken.2 h
      exact ⟨.head ⟨hgo, step_of_takeOff htake⟩ hreach, hend⟩

/-- The loop ends at the head that has lost its marker. -/
theorem reduce_eq_ok_iff : reduce note s = .ok t ↔ Reaches note s t ∧ t.marker = 0 := by
  constructor
  · exact reaches_of_reduce
  · rintro ⟨hreach, hend⟩
    rw [hreach.reduce_eq, reduce_of_marker_eq_zero hend]

/-! ## What the turns keep -/

/-- What holds at every head: either the marker is at some place, or it is gone. -/
def Kept (n d : BitVec w) (s : LongDivision w) : Prop := (∃ k, Dividing n d k s) ∨ Divided n d s

theorem Turn.keeps (hnote : Note.Adds note) (hturn : Turn note s t) (h : Kept n d s) :
    Kept n d t := by
  obtain ⟨hgo, hstep⟩ := hturn
  rcases h with ⟨k, hdiv⟩ | hdone
  · cases k with
    | zero =>
      obtain ⟨u, hu, hdone⟩ := hdiv.step_zero hnote
      obtain rfl : u = t := Except.ok.inj (hu.symm.trans hstep)
      exact .inr hdone
    | succ k =>
      obtain ⟨u, hu, hdiv'⟩ := hdiv.step_succ hnote
      obtain rfl : u = t := Except.ok.inj (hu.symm.trans hstep)
      exact .inl ⟨k, hdiv'⟩
  · exact absurd hdone.marker hgo

theorem Reaches.keeps (hnote : Note.Adds note) (hreach : Reaches note s t) (h : Kept n d s) :
    Kept n d t := by
  induction hreach with
  | refl => exact h
  | tail _ hturn ih => exact hturn.keeps hnote ih

/-- The marker tells the place. -/
theorem Kept.dividing (h : Kept n d s) (hmarker : s.marker.toNat = 2 ^ j) : Dividing n d j s := by
  rcases h with ⟨k, hdiv⟩ | hdone
  · obtain rfl : k = j := Nat.pow_right_injective (Nat.le_refl 2) (hdiv.marker.symm.trans hmarker)
    exact hdiv
  · rw [hdone.marker] at hmarker
    exact absurd hmarker (Nat.two_pow_pos j).ne

theorem Kept.divided (h : Kept n d s) (hmarker : s.marker = 0) : Divided n d s := by
  rcases h with ⟨k, hdiv⟩ | hdone
  · exact absurd hmarker hdiv.marker_ne_zero
  · exact hdone

theorem Dividing.getLsbD_quot (h : Dividing n d k s) : s.quot.getLsbD k = false := by
  obtain ⟨c, hc⟩ := h.clear
  rw [BitVec.getLsbD, hc, Nat.testBit_two_pow_mul]
  simp

/-- Setting the marker's bit and adding the marker's value are the same update. -/
theorem Dividing.setBit_eq_addBit (h : Dividing n d k s) :
    setBit s.quot s.marker = addBit s.quot s.marker := by
  have hlt := h.quot_add_marker
  rw [setBit_adds _ _ k h.marker h.clear hlt, addBit_adds _ _ k h.marker h.clear hlt]

/-! ## Both divisions -/

/-- What holds at all heads of the rounds that begin at `s`. -/
structure Invariant (note : Note w) (n d : BitVec w) (s : LongDivision w) : Prop where
  /-- The loop goes on with a single bit as its marker. -/
  place : ∀ t, Reaches note s t → t.marker ≠ 0 → ∃ j, t.marker.toNat = 2 ^ j
  dividing : ∀ t j, Reaches note s t → t.marker.toNat = 2 ^ j → Dividing n d j t
  /-- The marker's bit is clear in the quotient, and so there is one way of noting it. -/
  unnoted : ∀ t j, Reaches note s t → t.marker.toNat = 2 ^ j →
    t.quot.getLsbD j = false ∧ setBit t.quot t.marker = addBit t.quot t.marker
  divided : ∀ t, Reaches note s t → t.marker = 0 → Divided n d t

theorem Aligned.invariant (h : Aligned going n d k s) (hnote : Note.Adds note) :
    Invariant note n d s := by
  have hkept : ∀ t, Reaches note s t → Kept n d t :=
    fun t hreach => hreach.keeps hnote (.inl ⟨k, h.dividing⟩)
  refine ⟨?_, ?_, ?_, ?_⟩
  · intro t hreach hgo
    rcases hkept t hreach with ⟨j, hdiv⟩ | hdone
    · exact ⟨j, hdiv.marker⟩
    · exact absurd hdone.marker hgo
  · exact fun t j hreach hmarker => (hkept t hreach).dividing hmarker
  · intro t j hreach hmarker
    have hdiv := (hkept t hreach).dividing hmarker
    exact ⟨hdiv.getLsbD_quot, hdiv.setBit_eq_addBit⟩
  · exact fun t hreach hmarker => (hkept t hreach).divided hmarker

theorem Aligned.ends (h : Aligned going n d k s) (hnote : Note.Adds note) :
    ∃ t, reduce note s = .ok t := by
  obtain ⟨t, ht, _, _⟩ := reduce_eq_rounds hnote h.dividing
  exact ⟨t, ht⟩

/-- Both divisions, by every divisor other than zero: the alignment stops with divisor and marker
    in step and twice the divisor above the dividend, the rounds from there on keep their
    invariant, and the head at which the marker is gone holds quotient and remainder. -/
theorem divisions_keep_invariant :
    (∀ n d : Word, d ≠ 0 → ∃ k t,
      Aligned BelowMarked n d k (start n d).alignMarked ∧
      Invariant setBit n d (start n d).alignMarked ∧
      Reaches setBit (start n d).alignMarked t ∧ t.marker = 0 ∧
      Word.divRem n d = .ok (t.quot, t.num)) ∧
    ∀ (n d : Wide) (hd : d ≠ 0), ∃ k t,
      Aligned Below n d k ((start n d).align hd) ∧
      Invariant addBit n d ((start n d).align hd) ∧
      Reaches addBit ((start n d).align hd) t ∧ t.marker = 0 ∧
      ∀ dest, Wide.divMod n d dest = (.ok t.quot, dest.map fun _ => t.num) := by
  constructor
  · intro n d hd
    obtain ⟨k, h⟩ := exists_aligned_alignMarked n hd
    obtain ⟨t, ht⟩ := h.ends setBit_adds
    obtain ⟨hreach, hend⟩ := reduce_eq_ok_iff.mp ht
    refine ⟨k, t, h, h.invariant setBit_adds, hreach, hend, ?_⟩
    rw [Word.divRem, ht]
    rfl
  · intro n d hd
    obtain ⟨k, h⟩ := exists_aligned_align n hd
    obtain ⟨t, ht⟩ := h.ends addBit_adds
    obtain ⟨hreach, hend⟩ := reduce_eq_ok_iff.mp ht
    refine ⟨k, t, h, h.invariant addBit_adds, hreach, hend, ?_⟩
    intro dest
    rw [Wide.divMod, dif_neg hd, ht]

/-- All bits set, divided by three: at place 30 the divisor fills the word and is still below the
    dividend, which is below twice the divisor all the same. -/
theorem divisions_keep_invariant_filled : (3 : Word) ≠ 0 ∧
    Aligned BelowMarked (0xffffffff : Word) 3 30 (start 0xffffffff 3).alignMarked ∧
    Invariant setBit (0xffffffff : Word) 3 (start 0xffffffff 3).alignMarked := by
  have hd : (3 : Word) ≠ 0 := by decide
  obtain ⟨k, t, h, hinv, _⟩ := divisions_keep_invariant.1 0xffffffff 3 hd
  have hden : 3 * 2 ^ k < 2 ^ 32 := h.den_lt
  have hnum : 0xffffffff < 2 * (3 * 2 ^ k) := h.den ▸ h.num_lt
  have hbelow : k < 31 := (Nat.pow_lt_pow_iff_right (Nat.le_refl 2)).mp (by omega : 2 ^ k < 2 ^ 31)
  have habove : 29 < k := (Nat.pow_lt_pow_iff_right (Nat.le_refl 2)).mp (by omega : 2 ^ 29 < 2 ^ k)
  obtain rfl : k = 30 := by omega
  exact ⟨hd, h, hinv⟩

end WordArith.LongDivision
