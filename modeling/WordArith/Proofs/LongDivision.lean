import Mathlib
import WordArith.LongDivision
import WordArith.Checked.Lemmas

/- Long division computes the quotient and the remainder of natural numbers.

   Both loops are followed state by state, at any width. This file

   1. says where divisor and marker stand after some doublings (`AtPlace`) and shows
      that the alignment of a divisor other than zero is a number of doublings, none of
      which loses a bit, and stops with a divisor whose double exceeds the dividend
      (`Aligned`, `exists_aligned_align`);
   2. shows that the alignment that watches the marker agrees with it
      (`alignMarked_eq_align`), and that on a divisor of zero it only shifts the marker
      out (`alignMarked_of_den_eq_zero`);
   3. states what holds at the head of each round (`Dividing`), shows that a round keeps
      it and leaves the word with neither of its sums (`Dividing.step_succ`,
      `Dividing.step_zero`), and follows the rounds to the end of the loop
      (`reduce_eq_rounds`);
   4. concludes that the loops give `n / d` and `n % d` (`reduce_align`).

   The rounds are the same for every way of noting the marker that amounts to adding it
   where its bit is clear (`Note.Adds`), in particular for setting the bit. -/
namespace WordArith.LongDivision

variable {w : Nat} {n d : BitVec w} {s : LongDivision w} {note : Note w} {k : Nat}
  {going : LongDivision w → Prop}

/-! ## Alignment -/

/-- The alignment goes on at `s`. -/
def Below (s : LongDivision w) : Prop := s.den &&& signMask w = 0 ∧ s.den < s.num

/-- The divisor of `s` is `d`, and its marker is one, `k` places up with no bit lost. -/
structure AtPlace (d : BitVec w) (k : Nat) (s : LongDivision w) : Prop where
  den : s.den.toNat = d.toNat * 2 ^ k
  marker : s.marker.toNat = 2 ^ k

theorem width_pos_of_ne_zero {x : BitVec w} (h : x ≠ 0) : 0 < w := by
  apply Nat.pos_of_ne_zero
  rintro rfl
  exact h (Subsingleton.elim x 0)

theorem atPlace_start (hw : 0 < w) (n d : BitVec w) : AtPlace d 0 (start n d) := by
  refine ⟨by simp [start], ?_⟩
  simp [start, Nat.one_mod_two_pow_eq_one.mpr hw]

theorem AtPlace.marker_ne_zero (h : AtPlace d k s) : s.marker ≠ 0 := by
  intro h0
  have hm : 0 = 2 ^ k := by simpa [h0] using h.marker
  exact absurd hm (Nat.two_pow_pos k).ne

theorem AtPlace.den_ne_zero (hd : d ≠ 0) (h : AtPlace d k s) : s.den ≠ 0 := by
  intro h0
  have hden : 0 = d.toNat * 2 ^ k := by simpa [h0] using h.den
  exact absurd hden (Nat.mul_pos (BitVec.toNat_pos_of_ne_zero hd) (Nat.two_pow_pos k)).ne

/-- A marker in the word is a place in the word. -/
theorem AtPlace.lt_width (h : AtPlace d k s) : k < w := by
  have hlt := s.marker.isLt
  rw [h.marker] at hlt
  exact (Nat.pow_lt_pow_iff_right (by decide)).mp hlt

/-- The marker is not above the divisor, so it doubles without loss where the divisor does. -/
theorem AtPlace.raise (hd : d ≠ 0) (h : AtPlace d k s) (top : s.den &&& signMask w = 0) :
    AtPlace d (k + 1) s.raise := by
  have hpos := BitVec.toNat_pos_of_ne_zero hd
  have hmsb := and_signMask_eq_zero_iff.mp top
  have hden := BitVec.msb_eq_false_iff_two_mul_lt.mp hmsb
  have hle : s.marker.toNat ≤ s.den.toNat := by
    rw [h.marker, h.den]
    exact Nat.le_mul_of_pos_left _ hpos
  have hmark : s.marker.msb = false := BitVec.msb_eq_false_iff_two_mul_lt.mpr (by omega)
  constructor
  · rw [den_raise, toNat_shiftLeft_one_of_msb hmsb, h.den, Nat.pow_succ]
    ring
  · rw [marker_raise, toNat_shiftLeft_one_of_msb hmark, h.marker, Nat.pow_succ]
    ring

/-- The alignment is as many doublings as it takes until it stops. -/
theorem align_eq_iterate (s : LongDivision w) (h : s.den ≠ 0) :
    ∃ k, s.align h = raise^[k] s ∧ (∀ j < k, Below (raise^[j] s)) ∧ ¬Below (raise^[k] s) := by
  -- Along the recursion of the loop: `case1` is a doubling, `case2` the stop.
  fun_induction align s h with
  | case1 s h below ih =>
    obtain ⟨k, heq, hgo, hstop⟩ := ih
    refine ⟨k + 1, heq, ?_, hstop⟩
    intro j hj
    cases j with
    | zero => exact below
    | succ j => exact hgo j (by omega)
  | case2 s h hn => exact ⟨0, rfl, fun j hj => absurd hj (Nat.not_lt_zero j), hn⟩

theorem atPlace_iterate (hd : d ≠ 0) (hgo : ∀ j < k, Below (raise^[j] (start n d))) :
    ∀ j ≤ k, AtPlace d j (raise^[j] (start n d)) := by
  intro j
  induction j with
  | zero => exact fun _ => atPlace_start (width_pos_of_ne_zero hd) n d
  | succ j ih =>
    intro hj
    rw [Function.iterate_succ_apply']
    exact (ih (by omega)).raise hd (hgo j (by omega)).1

theorem num_iterate (n d : BitVec w) (k : Nat) : (raise^[k] (start n d)).num = n := by
  induction k with
  | zero => rfl
  | succ k ih => rw [Function.iterate_succ_apply']; exact ih

theorem quot_iterate (n d : BitVec w) (k : Nat) : (raise^[k] (start n d)).quot = 0 := by
  induction k with
  | zero => rfl
  | succ k ih => rw [Function.iterate_succ_apply']; exact ih

/-- Where the alignment stops the divisor has reached the dividend or the top of the word; in
    both cases twice the divisor is above the dividend. -/
theorem num_lt_of_not_below (hn : ¬Below s) (hden : s.den ≠ 0) :
    s.num.toNat < 2 * s.den.toNat := by
  by_cases top : s.den &&& signMask w = 0
  · -- The divisor has reached the dividend.
    have hle : s.num ≤ s.den := BitVec.not_lt.mp fun hlt => hn ⟨top, hlt⟩
    have hpos := BitVec.toNat_pos_of_ne_zero hden
    have hnum : s.num.toNat ≤ s.den.toNat := hle
    omega
  · -- The divisor fills the word, and no dividend reaches twice that.
    have hmsb := Bool.eq_true_of_not_eq_false (mt and_signMask_eq_zero_iff.mpr top)
    have hge := BitVec.msb_eq_true_iff_two_mul_ge.mp hmsb
    have hnum := s.num.isLt
    omega

/-- An alignment that goes on where `going` says so takes the division of `n` by `d` to `s`, `k`
    places up. -/
structure Aligned (going : LongDivision w → Prop) (n d : BitVec w) (k : Nat)
    (s : LongDivision w) : Prop where
  place_lt : k < w
  reached : s = raise^[k] (start n d)
  goesOn : ∀ j < k, going (raise^[j] (start n d))
  stops : ¬going s
  /-- No doubling on the way has lost a bit of the divisor or the marker. -/
  lossless : ∀ j ≤ k, AtPlace d j (raise^[j] (start n d))
  den : s.den.toNat = d.toNat * 2 ^ k
  den_lt : d.toNat * 2 ^ k < 2 ^ w
  marker : s.marker.toNat = 2 ^ k
  marker_ne_zero : s.marker ≠ 0
  num_lt : n.toNat < 2 * s.den.toNat

theorem exists_aligned_align (n : BitVec w) (hd : d ≠ 0) :
    ∃ k, Aligned Below n d k ((start n d).align hd) := by
  obtain ⟨k, heq, hgo, hstop⟩ := align_eq_iterate (start n d) hd
  have hat := atPlace_iterate hd hgo
  have hlast := hat k (Nat.le_refl k)
  have hnum := num_lt_of_not_below hstop (hlast.den_ne_zero hd)
  rw [num_iterate] at hnum
  refine ⟨k, ?_⟩
  rw [heq]
  exact {
    place_lt := hlast.lt_width
    reached := rfl
    goesOn := hgo
    stops := hstop
    lossless := hat
    den := hlast.den
    den_lt := hlast.den ▸ BitVec.isLt _
    marker := hlast.marker
    marker_ne_zero := hlast.marker_ne_zero
    num_lt := hnum }

/-! The alignment that watches the marker. -/

/-- A divisor other than zero reaches the top before its marker is shifted out. -/
theorem alignMarked_eq_align (hd : d ≠ 0) (s : LongDivision w) (h : s.den ≠ 0) :
    ∀ k, AtPlace d k s → s.alignMarked = s.align h := by
  fun_induction align s h with
  | case1 s h below ih =>
    intro k hk
    rw [alignMarked_of_below ⟨below.2, hk.marker_ne_zero, below.1⟩]
    exact ih (k + 1) (hk.raise hd below.1)
  | case2 s h hn =>
    intro k _
    exact alignMarked_of_not_below fun hgo => hn ⟨hgo.2.2, hgo.1⟩

/-- A divisor of zero stays what it is: only the loss of the marker ends the alignment. -/
theorem alignMarked_of_den_eq_zero (s : LongDivision w) (hden : s.den = 0) (hnum : s.num ≠ 0) :
    s.alignMarked = { s with marker := 0 } := by
  fun_induction alignMarked s with
  | case1 s hgo ih =>
    have hraise : s.raise.den = 0 := by
      rw [den_raise, hden]
      exact BitVec.zero_shiftLeft 1
    rw [ih hraise hnum]
    simp [raise, hden]
  | case2 s hn =>
    -- Two of the three reasons to stop are out, so the marker is gone.
    have hlt : s.den < s.num := by
      rw [hden]
      exact BitVec.lt_def.mpr (by simpa using BitVec.toNat_pos_of_ne_zero hnum)
    have hmarker : s.marker = 0 := by
      by_contra hm
      exact hn ⟨hlt, hm, by rw [hden]; exact BitVec.zero_and⟩
    rw [← hmarker]

/-! ## Subtraction -/

/-- A way of noting adds the marker wherever its bit is clear in the quotient and the sum fits. -/
def Note.Adds (note : Note w) : Prop :=
  ∀ (quot marker : BitVec w) (k : Nat), marker.toNat = 2 ^ k → 2 ^ (k + 1) ∣ quot.toNat →
    quot.toNat + 2 ^ k < 2 ^ w → note quot marker = .ok (quot + marker)

theorem addBit_adds : Note.Adds (addBit : Note w) := by
  intro quot marker k hm _ hlt
  exact Checked.add_of_lt (by rw [hm]; exact hlt)

theorem setBit_adds : Note.Adds (setBit : Note w) := by
  intro quot marker k hm hdvd hlt
  obtain ⟨c, hc⟩ := hdvd
  have hbit : 2 ^ k < 2 ^ (k + 1) := Nat.pow_lt_pow_right (by decide) (Nat.lt_succ_self k)
  have hor := Nat.shiftLeft_add_eq_or_of_lt hbit c
  rw [Nat.shiftLeft_eq, Nat.mul_comm c, ← hc] at hor
  refine congrArg Except.ok (BitVec.eq_of_toNat_eq ?_)
  rw [BitVec.toNat_or, BitVec.toNat_add, hm, Nat.mod_eq_of_lt hlt, hor]

/-- What holds at the head of a round with the marker at place `k`. The quotient has no bit at
    or below the marker yet. -/
structure Dividing (n d : BitVec w) (k : Nat) (s : LongDivision w) : Prop
    extends AtPlace d k s where
  split : n.toNat = s.quot.toNat * d.toNat + s.num.toNat
  num_lt : s.num.toNat < 2 * s.den.toNat
  clear : 2 ^ (k + 1) ∣ s.quot.toNat

/-- What holds when the marker is gone. -/
structure Divided (n d : BitVec w) (s : LongDivision w) : Prop where
  marker : s.marker = 0
  split : n.toNat = s.quot.toNat * d.toNat + s.num.toNat
  num_lt : s.num.toNat < d.toNat

/-- The two sums of a round at `s` stay in the word if they are taken. -/
def SumsFit (s : LongDivision w) : Prop :=
  s.den ≤ s.num → Checked.sub s.num s.den = .ok (s.num - s.den) ∧
    Checked.add s.quot s.marker = .ok (s.quot + s.marker)

/-- The quotient is a multiple of twice the marker, so below the top of the word it leaves room for
    the marker, whether or not the divisor is taken off. -/
theorem Dividing.quot_add_marker (h : Dividing n d k s) : s.quot.toNat + 2 ^ k < 2 ^ w := by
  have htop : 2 ^ (k + 1) ∣ 2 ^ w := Nat.pow_dvd_pow 2 h.lt_width
  have hroom : 2 ^ (k + 1) ≤ 2 ^ w - s.quot.toNat :=
    Nat.le_of_dvd (Nat.sub_pos_of_lt s.quot.isLt) (Nat.dvd_sub htop h.clear)
  have hbit : 2 ^ k < 2 ^ (k + 1) := Nat.pow_lt_pow_right (by decide) (Nat.lt_succ_self k)
  omega

theorem Dividing.sumsFit (h : Dividing n d k s) : SumsFit s := by
  intro hle
  refine ⟨Checked.sub_of_le hle, Checked.add_of_lt ?_⟩
  rw [h.marker]
  exact h.quot_add_marker

/-- What a round takes off: the rest is below the divisor at its place, dividend and quotient
    stay in balance, and the quotient has no bit below the place. -/
theorem Dividing.takeOff (hnote : Note.Adds note) (h : Dividing n d k s) :
    ∃ num quot, s.takeOff note = .ok (num, quot) ∧ num.toNat < d.toNat * 2 ^ k ∧
      n.toNat = quot.toNat * d.toNat + num.toNat ∧ 2 ^ k ∣ quot.toNat := by
  have hdvd : 2 ^ k ∣ s.quot.toNat := Dvd.dvd.trans ⟨2, Nat.pow_succ ..⟩ h.clear
  have hlt := h.num_lt
  rw [h.den] at hlt
  by_cases hle : s.den ≤ s.num
  · have hfit := h.quot_add_marker
    have hden : d.toNat * 2 ^ k ≤ s.num.toNat := h.den ▸ hle
    refine ⟨s.num - s.den, s.quot + s.marker, ?_, ?_, ?_, ?_⟩
    · rw [takeOff_of_le hle, hnote _ _ k h.marker h.clear hfit, Checked.map_ok]
    · -- The dividend was below twice the divisor, so one divisor less it is below the divisor.
      rw [BitVec.toNat_sub_of_le hle, h.den]
      omega
    · rw [BitVec.toNat_sub_of_le hle, h.den, BitVec.toNat_add, h.marker, Nat.mod_eq_of_lt hfit,
        Nat.add_mul, Nat.mul_comm (2 ^ k), h.split]
      omega
    · rw [BitVec.toNat_add, h.marker, Nat.mod_eq_of_lt hfit]
      exact Nat.dvd_add hdvd (Nat.dvd_refl _)
  · have hgt : s.num < s.den := BitVec.not_le.mp hle
    have hnum : s.num.toNat < s.den.toNat := hgt
    rw [h.den] at hnum
    exact ⟨s.num, s.quot, takeOff_of_lt hgt, hnum, h.split, hdvd⟩

theorem AtPlace.lower (h : AtPlace d (k + 1) s) (num quot : BitVec w) :
    AtPlace d k (s.lower num quot) := by
  constructor
  · rw [den_lower, BitVec.toNat_ushiftRight, h.den, Nat.shiftRight_eq_div_pow, Nat.pow_succ,
      ← Nat.mul_assoc, Nat.pow_one]
    exact Nat.mul_div_cancel _ (by decide)
  · rw [marker_lower, BitVec.toNat_ushiftRight, h.marker, Nat.shiftRight_eq_div_pow, Nat.pow_succ,
      Nat.pow_one]
    exact Nat.mul_div_cancel _ (by decide)

theorem Dividing.step_succ (hnote : Note.Adds note) (h : Dividing n d (k + 1) s) :
    ∃ t, step note s = .ok t ∧ Dividing n d k t := by
  obtain ⟨num, quot, htake, hlt, hsplit, hdvd⟩ := h.takeOff hnote
  have hat := h.toAtPlace.lower num quot
  refine ⟨s.lower num quot, step_of_takeOff htake, hat, hsplit, ?_, hdvd⟩
  rw [hat.den]
  calc num.toNat < d.toNat * 2 ^ (k + 1) := hlt
    _ = 2 * (d.toNat * 2 ^ k) := by ring

/-- The last round: the marker stands at place zero and is shifted out. -/
theorem Dividing.step_zero (hnote : Note.Adds note) (h : Dividing n d 0 s) :
    ∃ t, step note s = .ok t ∧ Divided n d t := by
  obtain ⟨num, quot, htake, hlt, hsplit, _⟩ := h.takeOff hnote
  rw [Nat.pow_zero, Nat.mul_one] at hlt
  refine ⟨s.lower num quot, step_of_takeOff htake, ?_, hsplit, hlt⟩
  apply BitVec.eq_of_toNat_eq
  rw [marker_lower, BitVec.toNat_ushiftRight, h.marker]
  simp

/-- The state after a number of rounds, whatever the marker. -/
def rounds (note : Note w) : Nat → LongDivision w → Checked (LongDivision w)
  | 0, s => .ok s
  | k + 1, s => step note s >>= rounds note k

/-- A round that begins at place `i + k` is followed by one at each place down to `k`. -/
theorem Dividing.rounds (hnote : Note.Adds note) : ∀ (i : Nat) {s : LongDivision w},
    Dividing n d (k + i) s → ∃ t, rounds note i s = .ok t ∧ Dividing n d k t
  | 0, s, h => ⟨s, rfl, h⟩
  | i + 1, s, h => by
    obtain ⟨u, hu, hdiv⟩ := Dividing.step_succ (k := k + i) hnote h
    obtain ⟨t, ht, hlast⟩ := Dividing.rounds hnote i hdiv
    exact ⟨t, by rw [LongDivision.rounds, hu, Checked.ok_bind, ht], hlast⟩

/-- From place `k` the loop takes `k + 1` rounds, none of which faults. -/
theorem reduce_eq_rounds (hnote : Note.Adds note) (h : Dividing n d k s) :
    ∃ t, reduce note s = .ok t ∧ LongDivision.rounds note (k + 1) s = .ok t ∧ Divided n d t := by
  induction k generalizing s with
  | zero =>
    obtain ⟨t, ht, hdone⟩ := h.step_zero hnote
    refine ⟨t, ?_, ?_, hdone⟩
    · rw [reduce_of_marker_ne_zero h.marker_ne_zero, ht, Checked.ok_bind,
        reduce_of_marker_eq_zero hdone.marker]
    · rw [LongDivision.rounds, ht, Checked.ok_bind, LongDivision.rounds]
  | succ k ih =>
    -- The marker one place further down is not zero yet, so the loop goes on from `u`.
    obtain ⟨u, hu, hdiv⟩ := h.step_succ hnote
    obtain ⟨t, hred, hrounds, hdone⟩ := ih hdiv
    refine ⟨t, ?_, ?_, hdone⟩
    · rw [reduce_of_marker_ne_zero h.marker_ne_zero, hu, Checked.ok_bind, hred]
    · rw [LongDivision.rounds, hu, Checked.ok_bind, hrounds]

/-! ## The whole division -/

/-- The invariant of the rounds holds where the alignment stops: nothing has been taken off yet. -/
theorem Aligned.dividing (h : Aligned going n d k s) : Dividing n d k s := by
  have hnum : s.num = n := by rw [h.reached, num_iterate]
  have hquot : s.quot = 0 := by rw [h.reached, quot_iterate]
  refine ⟨⟨h.den, h.marker⟩, ?_, ?_, ?_⟩
  · simp [hnum, hquot]
  · rw [hnum]
    exact h.num_lt
  · simp [hquot]

/-- Quotient and remainder make up the dividend. -/
theorem toNat_eq_udiv_umod (n d : BitVec w) :
    n.toNat = d.toNat * (n / d).toNat + (n % d).toNat := by
  rw [BitVec.toNat_udiv, BitVec.toNat_umod]
  exact (Nat.div_add_mod n.toNat d.toNat).symm

theorem toNat_umod_lt_of_ne_zero (n : BitVec w) (hd : d ≠ 0) : (n % d).toNat < d.toNat := by
  rw [BitVec.toNat_umod]
  exact Nat.mod_lt _ (BitVec.toNat_pos_of_ne_zero hd)

theorem Divided.quot_eq (h : Divided n d s) : s.quot = n / d := by
  apply BitVec.eq_of_toNat_eq
  rw [BitVec.toNat_udiv]
  have hpos : 0 < d.toNat := Nat.lt_of_le_of_lt (Nat.zero_le _) h.num_lt
  refine (((Nat.div_mod_unique hpos).mpr ⟨?_, h.num_lt⟩).1).symm
  rw [h.split]
  ring

theorem Divided.num_eq (h : Divided n d s) : s.num = n % d := by
  apply BitVec.eq_of_toNat_eq
  rw [BitVec.toNat_umod, h.split, Nat.mul_add_mod_self_right, Nat.mod_eq_of_lt h.num_lt]

/-- The two loops on `n` and `d` as they go. -/
structure Course (n d : BitVec w) (hd : d ≠ 0) (k : Nat) : Prop where
  /-- The divisor is doubled `k` times, fewer than the word has bits. -/
  places : k < w
  aligned : (start n d).align hd = raise^[k] (start n d)
  goesOn : ∀ j < k, Below (raise^[j] (start n d))
  stops : ¬Below (raise^[k] (start n d))
  /-- No doubling loses a bit of the divisor or the marker. -/
  lossless : ∀ j ≤ k, AtPlace d j (raise^[j] (start n d))
  /-- A round at each place from `k` down to zero, and every sum of it fits. -/
  fits : ∀ i ≤ k, ∃ s, LongDivision.rounds addBit i ((start n d).align hd) = .ok s ∧
    AtPlace d (k - i) s ∧ SumsFit s
  /-- The round at place zero is the last. -/
  finished : ∃ s, reduce addBit ((start n d).align hd) = .ok s ∧
    LongDivision.rounds addBit (k + 1) ((start n d).align hd) = .ok s ∧ s.marker = 0

theorem exists_course (n d : BitVec w) (hd : d ≠ 0) : ∃ k, Course n d hd k := by
  obtain ⟨k, h⟩ := exists_aligned_align n hd
  refine ⟨k, h.place_lt, h.reached, h.goesOn, h.reached ▸ h.stops, h.lossless, ?_, ?_⟩
  · intro i hi
    have hdiv : Dividing n d (k - i + i) ((start n d).align hd) := by
      rw [Nat.sub_add_cancel hi]
      exact h.dividing
    obtain ⟨s, hs, hs'⟩ := Dividing.rounds addBit_adds i hdiv
    exact ⟨s, hs, hs'.toAtPlace, hs'.sumsFit⟩
  · obtain ⟨t, hred, ht, hdone⟩ := reduce_eq_rounds addBit_adds h.dividing
    exact ⟨t, hred, ht, hdone.marker⟩

/-- The loops give quotient and remainder. -/
theorem reduce_align (hnote : Note.Adds note) (hd : d ≠ 0) :
    ∃ s, reduce note ((start n d).align hd) = .ok s ∧ s.quot = n / d ∧ s.num = n % d := by
  obtain ⟨k, h⟩ := exists_aligned_align n hd
  obtain ⟨t, ht, _, hdone⟩ := reduce_eq_rounds hnote h.dividing
  exact ⟨t, ht, hdone.quot_eq, hdone.num_eq⟩

/-- A dividend of zero is no exception to taking off a divisor of zero: the marker is noted at
    place zero, and the loop ends. -/
theorem reduce_start_zero (hnote : Note.Adds note) (hw : 0 < w) :
    reduce note (start (0 : BitVec w) 0) = .ok ((start 0 0).lower 0 1) := by
  have hat := atPlace_start hw (0 : BitVec w) 0
  have hnoted : note (start (0 : BitVec w) 0).quot (start (0 : BitVec w) 0).marker = .ok (0 + 1) :=
    hnote 0 _ 0 hat.marker (by simp) (by simpa using Nat.one_lt_two_pow hw.ne')
  have htake : (start (0 : BitVec w) 0).takeOff note = .ok (0, 1) := by
    rw [takeOff_of_le (BitVec.le_refl _), hnoted, Checked.map_ok]
    simp [start]
  have hgone : ((start (0 : BitVec w) 0).lower 0 1).marker = 0 := by
    apply BitVec.eq_of_toNat_eq
    rw [marker_lower, BitVec.toNat_ushiftRight, hat.marker]
    simp
  rw [reduce_of_marker_ne_zero hat.marker_ne_zero, step_of_takeOff htake, Checked.ok_bind,
    reduce_of_marker_eq_zero hgone]

/-- On a divisor of zero no round is taken unless the dividend is zero as well. -/
theorem reduce_alignMarked_zero (hnote : Note.Adds note) (hw : 0 < w) (n : BitVec w) :
    ∃ s, reduce note (start n 0).alignMarked = .ok s ∧
      s.quot = (if n = 0 then 1 else 0) ∧ s.num = n := by
  by_cases hn : n = 0
  · subst hn
    have hstay : (start (0 : BitVec w) 0).alignMarked = start 0 0 :=
      alignMarked_of_not_below fun hgo => absurd hgo.1 (BitVec.lt_irrefl 0)
    exact ⟨(start 0 0).lower 0 1, by rw [hstay, reduce_start_zero hnote hw], by simp [lower], rfl⟩
  · have hout := alignMarked_of_den_eq_zero (start n 0) rfl hn
    exact ⟨{ start n 0 with marker := 0 }, by rw [hout, reduce_of_marker_eq_zero rfl],
      (if_neg hn).symm, rfl⟩

end WordArith.LongDivision
