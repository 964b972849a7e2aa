import Mathlib
import WordArith.DoubleWord.Lemmas
import WordArith.Proofs.Shift

/- The word shifts that a shift of double words is made of.

   No word shift inside may be by a whole word or more. A fault would show one that is, but
   only because the checked word shifts fault there, so the shifts are also run on word
   shifts that take every distance. This file

   1. defines the word shifts that take every distance and leave a note of it
      (`WordShifts.noting`);
   2. lists the distances to be noted, all of them below a word (`wordDistances`,
      `lt_of_mem_wordDistances`);
   3. shows of the three shifts that a run on these word shifts has the shifted value as
      result and leaves just these notes (`shiftLeftBy_noting`, `shiftRightBy_noting`,
      `sshiftRightBy_noting`). The shift that fills a word with its sign is by a constant
      and not among them. -/
namespace WordArith

/-- A computation that leaves notes of distances. -/
abbrev Noted := StateT (List Nat) Checked

namespace WordShifts

/-- The word `y`, with a note of the distance it was shifted by. -/
def note (k : Nat) (y : Word) : Noted Word := do
  modify (· ++ [k])
  return y

/-- Word shifts by any distance, of which they leave a note. -/
def noting : WordShifts Noted :=
  ⟨fun x k => note k (x <<< k), fun x k => note k (x >>> k), fun x k => note k (x.sshiftRight k)⟩

end WordShifts

namespace DoubleWord

variable {o : WordOrder} {k : Nat}

/-- The distances of the word shifts inside a shift by `k`, in the order in which they are done. A
    shift by a word or more needs one word only; a shorter one finds the carries first. -/
def wordDistances (k : Nat) : List Nat :=
  if k = 0 then [] else if k < 32 then [32 - k, k, k] else [k - 32]

theorem wordDistances_of_short (h0 : k ≠ 0) (hk : k < 32) : wordDistances k = [32 - k, k, k] := by
  rw [wordDistances, if_neg h0, if_pos hk]

theorem wordDistances_of_long (hge : 32 ≤ k) : wordDistances k = [k - 32] := by
  have h0 : k ≠ 0 := by omega
  rw [wordDistances, if_neg h0, if_neg (Nat.not_lt.mpr hge)]

theorem lt_of_mem_wordDistances (hk : k < 64) : ∀ n ∈ wordDistances k, n < 32 := by
  refine distance_cases (P := fun k => ∀ n ∈ wordDistances k, n < 32) ?_ ?_ ?_ hk
  · intro n hn
    cases hn
  · intro k h0 hk n hn
    rw [wordDistances_of_short h0 hk] at hn
    have hmem : n = 32 - k ∨ n = k ∨ n = k := by simpa using hn
    omega
  · intro k hge hk n hn
    rw [wordDistances_of_long hge, List.mem_singleton] at hn
    omega

/-- A run notes these distances if it does so in each of its cases. -/
theorem noted_of_cases {shift : Nat → Noted (DoubleWord o)} {onValue : Nat → Wide}
    (zero : (shift 0).run [] = .ok (ofWide (onValue 0), []))
    (short : ∀ k, k ≠ 0 → k < 32 →
      (shift k).run [] = .ok (ofWide (onValue k), [32 - k, k, k]))
    (long : ∀ k, 32 ≤ k → k < 64 → (shift k).run [] = .ok (ofWide (onValue k), [k - 32]))
    (hk : k < 64) : (shift k).run [] = .ok (ofWide (onValue k), wordDistances k) := by
  refine distance_cases (P := fun k => (shift k).run [] = .ok (ofWide (onValue k), wordDistances k))
    zero ?_ ?_ hk
  · intro k h0 hk
    rw [wordDistances_of_short h0 hk, short k h0 hk]
  · intro k hge hk
    rw [wordDistances_of_long hge, long k hge hk]

theorem shiftLeftBy_noting (d : DoubleWord o) (hk : k < 64) :
    (d.shiftLeftBy .noting k).run [] = .ok (ofWide (d.toWide <<< k), wordDistances k) := by
  refine noted_of_cases ?_ ?_ ?_ hk
  · rw [shiftLeftBy, byDistance_zero, BitVec.shiftLeft_zero, ofWide_toWide]
    rfl
  · intro k h0 hk
    rw [shiftLeftBy, byDistance_of_short d _ _ h0 hk, ← new_left_short d hk]
    rfl
  · intro k hge hk
    rw [shiftLeftBy, byDistance_of_long d _ _ hge hk, ← new_left_long d hge]
    rfl

theorem shiftRightBy_noting (d : DoubleWord o) (hk : k < 64) :
    (d.shiftRightBy .noting k).run [] = .ok (ofWide (d.toWide >>> k), wordDistances k) := by
  refine noted_of_cases ?_ ?_ ?_ hk
  · rw [shiftRightBy, byDistance_zero, BitVec.ushiftRight_zero, ofWide_toWide]
    rfl
  · intro k h0 hk
    rw [shiftRightBy, byDistance_of_short d _ _ h0 hk, ← new_right_short d hk]
    rfl
  · intro k hge hk
    rw [shiftRightBy, byDistance_of_long d _ _ hge hk, ← new_right_long d hge]
    rfl

theorem sshiftRightBy_noting (d : DoubleWord o) (hk : k < 64) :
    (d.sshiftRightBy .noting k).run [] =
      .ok (ofWide (d.toWide.sshiftRight k), wordDistances k) := by
  refine noted_of_cases ?_ ?_ ?_ hk
  · rw [sshiftRightBy, byDistance_zero, BitVec.sshiftRight_zero, ofWide_toWide]
    rfl
  · intro k h0 hk
    rw [sshiftRightBy, byDistance_of_short d _ _ h0 hk, ← new_sright_short d hk]
    rfl
  · intro k hge hk
    rw [sshiftRightBy, byDistance_of_long d _ _ hge hk, ← new_sright_long d hge hk]
    rfl

end DoubleWord

end WordArith
