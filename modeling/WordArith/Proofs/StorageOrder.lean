import Mathlib
import WordArith.Accumulator
import WordArith.Checked.Lemmas
import WordArith.Proofs.Product
import WordArith.Proofs.Shift
import WordArith.Proofs.Word.Division

/- Runs do not depend on the order in which words are stored.

   A double word has a counterpart in the other order: the one with the same high and low
   word (`reorder`). This file

   1. says which views a double word shares with its counterpart, and that the stored
      words are those of the counterpart in reverse (`Alike`, `alike_reorder`). An eraser
      that sets both stored words to zero leaves counterparts (`Eraser.Erases.reorder`);
   2. shows of every operation that takes a double word apart or puts one together that
      it gives counterparts on counterparts (`map_reorder_mulWide`, `map_reorder_shiftLeft`, …),
      and so does every step, with the same fault or refusal if it has no result
      (`Step.apply_reorder`);
   3. follows a run step by step: its outcomes and its accumulators in one order are the
      counterparts of those in the other (`trace_reorder`, `accumulators_reorder`);
   4. concludes that two runs from the same high and low word, one in each order, are
      alike at every step (`runs_alike`). -/
namespace WordArith

variable {o o' : WordOrder}

/-! ## Double words in the two orders -/

namespace DoubleWord

/-- The counterpart in the given order. -/
def reorder (o' : WordOrder) (d : DoubleWord o) : DoubleWord o' := new d.high d.low

@[simp] theorem high_reorder (d : DoubleWord o) : (d.reorder o').high = d.high := high_new _ _

@[simp] theorem low_reorder (d : DoubleWord o) : (d.reorder o').low = d.low := low_new _ _

@[simp] theorem reorder_new (h l : Word) : (new h l : DoubleWord o).reorder o' = new h l := by
  rw [reorder, high_new, low_new]

@[simp] theorem toWide_reorder (d : DoubleWord o) : (d.reorder o').toWide = d.toWide := by
  rw [toWide, high_reorder, low_reorder, toWide]

@[simp] theorem reorder_ofWide (v : Wide) : (ofWide v : DoubleWord o).reorder o' = ofWide v :=
  reorder_new _ _

theorem reorder_zero : (zero : DoubleWord o).reorder o' = zero := by
  cases o <;> cases o' <;> rfl

theorem Eraser.Erases.eq_zero {erase : Eraser} (h : erase.Erases) (d : DoubleWord o) :
    erase o d = zero := words_inj.mp (h o d)

/-- Erased double words are counterparts, whatever they held. -/
theorem Eraser.Erases.reorder {erase : Eraser} (h : erase.Erases) (d : DoubleWord o) :
    erase o' (d.reorder o') = (erase o d).reorder o' := by
  rw [h.eq_zero, h.eq_zero, reorder_zero]

/-- Two double words of the two orders that only their storage tells apart. -/
structure Alike (d : DoubleWord .lowFirst) (e : DoubleWord .highFirst) : Prop where
  toWide : e.toWide = d.toWide
  toInt : e.toInt = d.toInt
  high : e.high = d.high
  low : e.low = d.low
  highSigned : e.highSigned = d.highSigned
  words : e.words = d.words.reverse

theorem alike_reorder (d : DoubleWord .lowFirst) : Alike d (d.reorder .highFirst) where
  toWide := toWide_reorder d
  toInt := congrArg BitVec.toInt (toWide_reorder d)
  high := high_reorder d
  low := low_reorder d
  highSigned := congrArg BitVec.toInt (high_reorder d)
  words := by
    rw [words_highFirst, words_lowFirst, high_reorder, low_reorder]
    rfl

/-! Operations on double words. -/

@[simp] theorem map_reorder_mulWide (a b : Word) :
    reorder o' <$> (Word.mulWide a b : Checked (DoubleWord o)) = Word.mulWide a b := by
  rw [Word.mulWide_eq, Word.mulWide_eq, Checked.map_ok, reorder_ofWide]

/-- An operation on the value that faults under a condition. -/
theorem map_reorder_if {ε : Type} {p : Prop} [Decidable p] (v : Wide) (e : ε) :
    reorder o' <$> (if p then .ok (ofWide v) else .error e : Except ε (DoubleWord o)) =
      if p then .ok (ofWide v) else .error e := by
  split
  · rw [Checked.map_ok, reorder_ofWide]
  · rfl

theorem map_reorder_shiftLeft (d : DoubleWord o) (k : Nat) :
    reorder o' <$> d.shiftLeft k = (d.reorder o').shiftLeft k := by
  rw [shiftLeft_eq, shiftLeft_eq, toWide_reorder, map_reorder_if]

theorem map_reorder_shiftRight (d : DoubleWord o) (k : Nat) :
    reorder o' <$> d.shiftRight k = (d.reorder o').shiftRight k := by
  rw [shiftRight_eq, shiftRight_eq, toWide_reorder, map_reorder_if]

theorem map_reorder_sshiftRight (d : DoubleWord o) (k : Nat) :
    reorder o' <$> d.sshiftRight k = (d.reorder o').sshiftRight k := by
  rw [sshiftRight_eq, sshiftRight_eq, toWide_reorder, map_reorder_if]

end DoubleWord

open DoubleWord

variable {erase : Eraser}

/-! ## One step -/

namespace Step

/-- A computation that does not see the order, and a double word made of its result. -/
theorem map_reorder_bind {ε α : Type} {f : α → DoubleWord o} {f' : α → DoubleWord o'}
    (h : ∀ a, (f a).reorder o' = f' a) (x : Except ε α) :
    reorder o' <$> (x >>= fun a => .ok (f a)) = x >>= fun a => .ok (f' a) := by
  cases x with
  | ok a => exact congrArg Except.ok (h a)
  | error e => rfl

/-- The same where that result is a pair. -/
theorem map_reorder_pair {ε α β : Type} {f : α → β → DoubleWord o} {f' : α → β → DoubleWord o'}
    (h : ∀ a b, (f a b).reorder o' = f' a b) (x : Except ε (α × β)) :
    reorder o' <$> (do
      let (a, b) ← x
      return f a b) = do
      let (a, b) ← x
      return f' a b := by
  cases x with
  | ok p => exact congrArg Except.ok (h p.1 p.2)
  | error e => rfl

theorem map_reorder_ofWide (x : Checked Wide) :
    reorder o' <$> (ofWide x : Except Failure (DoubleWord o)) = ofWide x := by
  rw [ofWide, Checked.map_orFail]
  exact congrArg Checked.orFail (map_reorder_bind reorder_ofWide x)

/-- A step takes counterparts to counterparts, or fails on both for the same cause. -/
theorem apply_reorder (herase : erase.Erases) (acc : DoubleWord o) (step : Step) :
    step.apply erase (acc.reorder o') = reorder o' <$> step.apply erase acc := by
  cases step with
  | mul x => rw [apply, apply, Wide.mul_eq, Wide.mul_eq, toWide_reorder, map_reorder_ofWide]
  | udiv x => rw [apply, apply, toWide_reorder, map_reorder_ofWide]
  | umod x => rw [apply, apply, toWide_reorder, map_reorder_ofWide]
  | tryDiv x =>
    rw [apply, apply, toWide_reorder]
    exact (map_reorder_pair (fun quot _ => reorder_ofWide quot) (Wide.tryDivRem acc.toWide x)).symm
  | tryMod x =>
    rw [apply, apply, toWide_reorder]
    exact (map_reorder_pair (fun _ rem => reorder_ofWide rem) (Wide.tryDivRem acc.toWide x)).symm
  | sdiv x => rw [apply, apply, toWide_reorder, map_reorder_ofWide]
  | smod x => rw [apply, apply, toWide_reorder, map_reorder_ofWide]
  | shiftLeft k => rw [apply, apply, Checked.map_orFail, map_reorder_shiftLeft]
  | shiftRight k => rw [apply, apply, Checked.map_orFail, map_reorder_shiftRight]
  | sshiftRight k => rw [apply, apply, Checked.map_orFail, map_reorder_sshiftRight]
  | mulWords =>
    rw [apply, apply, high_reorder, low_reorder, Checked.map_orFail, map_reorder_mulWide]
  | mulWide w => rw [apply, apply, low_reorder, Checked.map_orFail, map_reorder_mulWide]
  | mulEach w => rw [apply, apply, high_reorder, low_reorder, Checked.map_ok, reorder_new]
  | divRem w =>
    rw [apply, apply, low_reorder, Checked.map_orFail]
    exact congrArg Checked.orFail (map_reorder_pair reorder_new (Word.divRem acc.low w)).symm
  | divRemWords =>
    rw [apply, apply, high_reorder, low_reorder, Checked.map_orFail]
    exact congrArg Checked.orFail (map_reorder_pair reorder_new (Word.divRem acc.high acc.low)).symm
  | tryDivRem w =>
    rw [apply, apply, low_reorder]
    exact (map_reorder_pair reorder_new (Word.tryDivRem acc.low w)).symm
  | sdivMod w =>
    -- Neither of the two divisions has a fault, so their results stand in for them.
    rw [apply, apply, high_reorder, Word.sdiv_eq, Word.smod_eq]
    exact congrArg Except.ok (reorder_new _ _).symm
  | swap => rw [apply, apply, high_reorder, low_reorder, Checked.map_ok, reorder_new]
  | splitLow =>
    rw [apply, apply, low_reorder]
    exact congrArg Except.ok (reorder_new _ _).symm
  | join =>
    rw [apply, apply, high_reorder, low_reorder, Checked.map_orFail]
    exact congrArg Checked.orFail
      (map_reorder_bind (fun v => reorder_new 0 v) (Word.join acc.high acc.low)).symm
  | maskLow k =>
    rw [apply, apply, high_reorder, low_reorder, Checked.map_orFail]
    exact congrArg Checked.orFail
      (map_reorder_bind (fun mask => reorder_new acc.high (acc.low &&& mask))
        (Word.lsbMask k)).symm
  | zeroize => rw [apply, apply, herase.reorder, Checked.map_ok]

end Step

/-! ## Whole runs -/

namespace Accumulator

/-- The accumulators of a run: the start, then what each outcome leaves. -/
def accumulators (erase : Eraser) (start : DoubleWord o) (steps : List Step) :
    List (DoubleWord o) :=
  (trace erase start steps).scanl after start

theorem after_reorder (acc : DoubleWord o) (outcome : Except Failure (DoubleWord o)) :
    after (acc.reorder o') (reorder o' <$> outcome) = (after acc outcome).reorder o' := by
  cases outcome <;> rfl

/-- A run from the counterpart has the counterparts as outcomes, step by step. -/
theorem trace_reorder (herase : erase.Erases) (acc : DoubleWord o) (steps : List Step) :
    trace erase (acc.reorder o') steps = (trace erase acc steps).map (reorder o' <$> ·) := by
  induction steps generalizing acc with
  | nil => rfl
  | cons step rest ih =>
    rw [trace, trace, List.map_cons, Step.apply_reorder herase, after_reorder, ih]

theorem history_reorder (herase : erase.Erases) (start : DoubleWord o) (steps : List Step) :
    history erase (start.reorder o') steps =
      (history erase start steps).map (reorder o' <$> ·) := by
  rw [history, history, List.map_cons, trace_reorder herase, Checked.map_ok]

/-- What the outcomes leave depends on them and on the start only. -/
theorem scanl_after_reorder (acc : DoubleWord o)
    (outcomes : List (Except Failure (DoubleWord o))) :
    (outcomes.map (reorder o' <$> ·)).scanl after (acc.reorder o') =
      (outcomes.scanl after acc).map (reorder o') := by
  induction outcomes generalizing acc with
  | nil => rfl
  | cons outcome rest ih =>
    rw [List.map_cons, List.scanl_cons, List.scanl_cons, List.map_cons, after_reorder, ih]

theorem accumulators_reorder (herase : erase.Erases) (start : DoubleWord o) (steps : List Step) :
    accumulators erase (start.reorder o') steps =
      (accumulators erase start steps).map (reorder o') := by
  rw [accumulators, accumulators, trace_reorder herase, scanl_after_reorder]

/-- Outcomes in the two orders that agree: results alike, or one and the same failure. -/
def AlikeOutcomes :
    Except Failure (DoubleWord .lowFirst) → Except Failure (DoubleWord .highFirst) → Prop
  | .ok d, .ok e => Alike d e
  | .error f, .error g => f = g
  | _, _ => False

theorem alikeOutcomes_reorder (outcome : Except Failure (DoubleWord .lowFirst)) :
    AlikeOutcomes outcome (reorder .highFirst <$> outcome) := by
  cases outcome with
  | ok d => exact alike_reorder d
  | error f => exact rfl

/-- Two runs of the same steps from the same high and low word, one in each order, agree at the
    start and after every step: in all views of the accumulator but the stored words, which are
    reversed, and in which steps fail and why. Of the erasing it is enough to know that it sets
    both stored words to zero. -/
theorem runs_alike (herase : erase.Erases) (high low : Word) (steps : List Step) :
    List.Forall₂ AlikeOutcomes (history erase (.new high low : DoubleWord .lowFirst) steps)
        (history erase (.new high low : DoubleWord .highFirst) steps) ∧
      List.Forall₂ Alike (accumulators erase (.new high low : DoubleWord .lowFirst) steps)
        (accumulators erase (.new high low : DoubleWord .highFirst) steps) := by
  have hstart : (.new high low : DoubleWord .highFirst) =
      (.new high low : DoubleWord .lowFirst).reorder .highFirst := (reorder_new high low).symm
  rw [hstart, history_reorder herase, accumulators_reorder herase]
  constructor
  · exact List.forall₂_map_right_iff.mpr (List.forall₂_same.mpr fun x _ => alikeOutcomes_reorder x)
  · exact List.forall₂_map_right_iff.mpr (List.forall₂_same.mpr fun d _ => alike_reorder d)

/-- A run with a fault and an erasing in it: the one leaves the accumulator as it is, the other
    leaves nothing of it. -/
theorem runs_alike_erased : Eraser.Erases (fun _ _ => zero) ∧
    List.Forall₂ AlikeOutcomes
      (history (fun _ _ => zero) (.new 0x12345678 0x9abcdef0 : DoubleWord .lowFirst)
        [.swap, .shiftLeft 64, .splitLow, .zeroize, .mulWords])
      (history (fun _ _ => zero) (.new 0x12345678 0x9abcdef0 : DoubleWord .highFirst)
        [.swap, .shiftLeft 64, .splitLow, .zeroize, .mulWords]) ∧
    history (fun _ _ => zero) (.new 0x12345678 0x9abcdef0 : DoubleWord .lowFirst)
        [.swap, .shiftLeft 64, .splitLow, .zeroize, .mulWords] =
      [.ok (.new 0x12345678 0x9abcdef0), .ok (.new 0x9abcdef0 0x12345678),
        .error (.fault (.violated .distanceBelowWide)), .ok (.new 0x1234 0x5678), .ok zero,
        .ok zero] := by
  have herase : Eraser.Erases (fun _ _ => zero) := fun _ _ => rfl
  obtain ⟨houtcomes, _⟩ := runs_alike herase 0x12345678 0x9abcdef0
    [.swap, .shiftLeft 64, .splitLow, .zeroize, .mulWords]
  exact ⟨herase, houtcomes, by decide⟩

end Accumulator

end WordArith
