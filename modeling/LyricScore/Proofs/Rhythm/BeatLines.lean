/-
Beat lines. Whether a note sounds across a beat line is told by one comparison: the first line
behind its start, found by rounding down, lies before its end. Here the lines are the multiples of
a step, on both sides of zero, and a note sounds across one exactly if a multiple lies strictly
between its start and its end. A line on which the note starts or stops does not count.

# The middle of 4/4

In 4/4 the middle of the measure is looked at as well. It lies on a beat line already, so a note
across the middle sounds across a line in any case, and the test for it changes no answer.
-/
import LyricScore.Rhythm.Meter
import Mathlib.Algebra.Order.Field.Rat
import Mathlib.Data.List.TakeWhile
import Mathlib.Data.Rat.Floor
import Mathlib.Tactic.Linarith

namespace LyricScore

-- ============================================================= steps

/-- A meter over 8: behind its first stroke there is an eight and nothing else. -/
def OverEight (meter : String) : Prop :=
  ∃ beats : List Char, '/' ∉ beats ∧ meter.toList = beats ++ ['/', '8']

theorem meterDenominator_eq_eight_iff {meter : String} :
    meterDenominator meter = "8" ↔ OverEight meter := by
  have hsplit := List.takeWhile_append_dropWhile (p := (· != '/')) (l := meter.toList)
  have hbeats : '/' ∉ meter.toList.takeWhile (· != '/') := by
    intro hmem
    have hne := List.mem_takeWhile_imp hmem
    simp at hne
  constructor
  · intro h
    have hdrop : (meter.toList.dropWhile (· != '/')).drop 1 = ['8'] := by
      have hlist := congrArg String.toList h
      simpa [meterDenominator] using hlist
    refine ⟨_, hbeats, ?_⟩
    -- what is left begins with the stroke itself
    cases hrest : meter.toList.dropWhile (· != '/') with
    | nil =>
        rw [hrest] at hdrop
        cases hdrop
    | cons c rest =>
        have hstroke := List.head?_dropWhile_not (· != '/') meter.toList
        rw [hrest] at hstroke hdrop hsplit
        have hc : c = '/' := by simpa using hstroke
        rw [hc, show rest = ['8'] from hdrop] at hsplit
        exact hsplit.symm
  · rintro ⟨beats, hnone, htext⟩
    have hall : ∀ c ∈ beats, (c != '/') = true := by
      intro c hc
      have hne : c ≠ '/' := fun heq => hnone (heq ▸ hc)
      simpa using hne
    unfold meterDenominator
    rw [htext, List.dropWhile_append_of_pos hall]
    rfl

instance (meter : String) : Decidable (OverEight meter) :=
  decidable_of_iff _ meterDenominator_eq_eight_iff

/-- How far the beat lines of a meter lie apart. -/
def beatStep (meter : String) : Rat :=
  if OverEight meter then 3 else 1

theorem beatStep_pos (meter : String) : 0 < beatStep meter := by
  unfold beatStep
  split <;> norm_num

-- ============================================================= lines

/-- The first multiple of a step behind a time. -/
def nextLine (step start : Rat) : Rat :=
  (((start / step).floor : Rat) + 1) * step

/-- The first line behind a start lies before a stop if any line lies between them. -/
theorem nextLine_lt_iff {step : Rat} (hstep : 0 < step) (start stop : Rat) :
    nextLine step start < stop ↔ ∃ k : Int, start < k * step ∧ k * step < stop := by
  unfold nextLine
  constructor
  · intro h
    refine ⟨(start / step).floor + 1, ?_, by push_cast; exact h⟩
    have hbehind : start / step < (start / step).floor + 1 := Int.lt_floor_add_one (start / step)
    rw [div_lt_iff₀ hstep] at hbehind
    push_cast
    exact hbehind
  · rintro ⟨k, hstart, hstop⟩
    -- rounding down stays below every line behind the start
    have hbefore : start / step < k := (div_lt_iff₀ hstep).2 hstart
    have hfloor : (start / step).floor < k := Int.floor_lt.2 hbefore
    have hline : (((start / step).floor : Rat) + 1) ≤ k := by
      exact_mod_cast Int.add_one_le_of_lt hfloor
    calc (((start / step).floor : Rat) + 1) * step
        ≤ k * step := mul_le_mul_of_nonneg_right hline hstep.le
      _ < stop := hstop

theorem crossesBeatLine_eq (start duration : Rat) (meter : String) :
    crossesBeatLine start duration meter
      = (decide (nextLine (beatStep meter) start < start + duration)
        || (meter == defaultMeter && decide (start < 2) && decide (2 < start + duration))) := by
  unfold crossesBeatLine beatStep nextLine
  simp only [meterDenominator_eq_eight_iff]

/-- In 4/4 the middle of the measure is a beat line. -/
theorem nextLine_lt_of_middle {start stop : Rat} (hstart : start < 2) (hstop : 2 < stop) :
    nextLine (beatStep defaultMeter) start < stop := by
  apply (nextLine_lt_iff (beatStep_pos _) start stop).2
  have hstep : beatStep defaultMeter = 1 := if_neg (by decide)
  refine ⟨2, ?_, ?_⟩
  · rw [hstep]
    simpa using hstart
  · rw [hstep]
    simpa using hstop

/-- The first line decides. -/
theorem crossesBeatLine_eq_decide (start duration : Rat) (meter : String) :
    crossesBeatLine start duration meter
      = decide (nextLine (beatStep meter) start < start + duration) := by
  rw [crossesBeatLine_eq, Bool.or_eq_left_iff_imp]
  intro hmiddle
  simp only [Bool.and_eq_true, beq_iff_eq, decide_eq_true_eq] at hmiddle
  obtain ⟨⟨rfl, hstart⟩, hstop⟩ := hmiddle
  exact decide_eq_true (nextLine_lt_of_middle hstart hstop)

/-- A note sounds across a beat line exactly if a line lies strictly between its start and its end,
wherever it starts and whatever the meter says. The first line behind the start decides it alone,
without the middle of 4/4, and a longer note sounds across a line wherever a shorter one does. -/
theorem crossesBeatLine_iff_line_between (start duration : Rat) (meter : String) :
    (crossesBeatLine start duration meter = true
        ↔ ∃ k : Int, start < k * beatStep meter ∧ k * beatStep meter < start + duration)
      ∧ crossesBeatLine start duration meter
        = decide (nextLine (beatStep meter) start < start + duration)
      ∧ Monotone fun lasting => crossesBeatLine start lasting meter := by
  refine ⟨?_, crossesBeatLine_eq_decide start duration meter, fun shorter longer hle => ?_⟩
  · rw [crossesBeatLine_eq_decide, decide_eq_true_iff]
    exact nextLine_lt_iff (beatStep_pos meter) start _
  · intro hcrosses
    dsimp only at hcrosses ⊢
    rw [crossesBeatLine_eq_decide, decide_eq_true_iff] at hcrosses ⊢
    linarith

end LyricScore
