/-
The time of a split beat. The parts of a beat are written with one length, and a bracket, if there
is one, scales them: `splitTime` is what they come to. The denominator of a split is the largest
power of two that is not above its count, so the parts come to the beat again just if

- the count is a power of two, and the denominator is the count itself, or
- the count is odd, and the bracket gives back what the denominator took.

An even count in between has no bracket, and its parts come to more than the beat. In the compound
unit nothing is bracketed, and the parts are the beat. So the rows of a beat are written with the
span of the beat, unless the beat is split into an even number of parts that is no power of two.
-/
import LyricScore.Table.Notes

namespace LyricScore

-- ====================================================== powers of two

theorem floorPower_pos (n : Nat) : 0 < floorPower n :=
  Nat.pow_pos (by decide)

theorem floorPower_le {n : Nat} (h : 0 < n) : floorPower n ≤ n :=
  Nat.log2_self_le (Nat.ne_of_gt h)

theorem floorPower_pow (k : Nat) : floorPower (Nat.pow 2 k) = Nat.pow 2 k := by
  unfold floorPower
  exact congrArg (Nat.pow 2) Nat.log2_two_pow

/-- The powers of two are the numbers with nothing between them and the largest power below. -/
theorem floorPower_eq_self_iff {n : Nat} : floorPower n = n ↔ ∃ k, n = Nat.pow 2 k := by
  constructor
  · exact fun h => ⟨n.log2, h.symm⟩
  · rintro ⟨k, rfl⟩
    exact floorPower_pow k

-- ====================================================== denominators

theorem splitDenominator_bounds {n : Nat} (hn : 1 ≤ n) (compound : Bool) :
    1 ≤ splitDenominator n compound ∧ splitDenominator n compound ≤ n := by
  have hle := floorPower_le hn
  have hpos := floorPower_pos n
  unfold splitDenominator
  split <;> omega

theorem splitDenominator_pos (count : Nat) (compound : Bool) : 0 < splitDenominator count compound := by
  have hpos := floorPower_pos count
  unfold splitDenominator
  split <;> omega

theorem splitDenominator_of_le_three {n : Nat} (h : n ≤ 3) : splitDenominator n true = 1 := by
  have hcases : n = 0 ∨ n = 1 ∨ n = 2 ∨ n = 3 := by omega
  rcases hcases with rfl | rfl | rfl | rfl <;> decide

theorem two_le_splitDenominator {n : Nat} (h : 4 ≤ n) : 2 ≤ splitDenominator n true := by
  have hlog : 2 ≤ n.log2 := (Nat.le_log2 (by omega)).2 h
  have hpower : 4 ≤ floorPower n := Nat.pow_le_pow_right (n := 2) (by decide) hlog
  unfold splitDenominator
  rw [if_pos rfl]
  omega

/-- A part of a beat that lasts has a length. -/
theorem splitLength_pos (count : Nat) {duration : Rat} (unit : Rat) (h : 0 < duration) :
    0 < splitLength count duration unit := by
  have hdiv : ∀ {q : Rat} (compound : Bool), 0 < q →
      0 < q / (splitDenominator count compound : Rat) := by
    intro q compound hq
    rw [Rat.div_def]
    exact Rat.mul_pos hq (Rat.inv_pos.2 (Rat.natCast_pos.2 (splitDenominator_pos count compound)))
  unfold splitLength
  split
  · exact hdiv true (by decide)
  · exact hdiv false h

/-- A row without a duration lasts one beat, and so does one of the duration zero. -/
theorem Row.effectiveDuration_pos {r : Row} (h : ∀ d ∈ r.duration, 0 < d) :
    0 < r.effectiveDuration := by
  unfold Row.effectiveDuration
  split
  · next d hd =>
    split
    · decide
    · exact h d hd
  · decide

-- ============================================================== times

theorem sumTimes_append (times more : List Rat) :
    sumTimes (times ++ more) = sumTimes times + sumTimes more := by
  induction times with
  | nil => exact (Rat.zero_add _).symm
  | cons time times ih => rw [List.cons_append, sumTimes, sumTimes, ih, Rat.add_assoc]

theorem sumTimes_replicate (n : Nat) (time : Rat) : sumTimes (.replicate n time) = n * time := by
  induction n with
  | zero => exact (Rat.zero_mul time).symm
  | succ n ih =>
      rw [List.replicate_succ, sumTimes, ih]
      grind

theorem needsTuplet_natCast {count : Nat} {compound : Bool} :
    needsTuplet count compound = true ↔ 1 < count ∧ count % 2 = 1 ∧ compound = false := by
  simp only [needsTuplet, Bool.and_eq_true, decide_eq_true_eq, beq_iff_eq, Bool.not_eq_true',
    and_assoc]
  exact and_congr (by omega) (and_congr (by omega) Iff.rfl)

/-- How the bracket of a split scales its parts. -/
def splitScale (count : Nat) (compound : Bool) : Rat :=
  if needsTuplet count compound then (splitDenominator count compound : Rat) / (count : Rat) else 1

/-- What the parts of a split come to, in units. -/
def splitTime (count : Nat) (duration unit : Rat) : Rat :=
  count * splitLength count duration unit * splitScale count (unit == compoundUnit)

section

variable {count : Nat} {duration unit : Rat}

/-- In the compound unit nothing is bracketed. -/
theorem splitTime_compound (h : unit = compoundUnit) :
    splitTime count duration unit = count * splitLength count duration unit := by
  have hplain : needsTuplet count (unit == compoundUnit) ≠ true := fun hneeds => by
    simpa [h] using (needsTuplet_natCast.1 hneeds).2.2
  unfold splitTime splitScale
  rw [if_neg hplain, Rat.mul_one]

/-- The bracket of an odd split gives back what the denominator took. -/
theorem splitTime_of_odd (hunit : unit ≠ compoundUnit) (hodd : count % 2 = 1) :
    splitTime count duration unit = duration := by
  have hsimple : (unit == compoundUnit) = false := beq_eq_false_iff_ne.2 hunit
  have hcount : (count : Rat) ≠ 0 := mt Rat.natCast_eq_zero_iff.1 (by omega)
  have hpower : (floorPower count : Rat) ≠ 0 :=
    mt Rat.natCast_eq_zero_iff.1 (Nat.ne_of_gt (floorPower_pos count))
  unfold splitTime splitScale splitLength
  rw [hsimple, if_neg hunit]
  by_cases hone : count = 1
  · subst hone
    rw [if_neg (by decide)]
    show ((1 : Nat) : Rat) * (duration / ((1 : Nat) : Rat)) * 1 = duration
    grind
  · rw [if_pos (needsTuplet_natCast.2 ⟨by omega, hodd, rfl⟩)]
    show count * (duration / (floorPower count : Rat)) * ((floorPower count : Rat) / count) = duration
    grind

/-- An even split has no bracket. -/
theorem splitTime_of_even (hunit : unit ≠ compoundUnit) (heven : count % 2 = 0) :
    splitTime count duration unit = count * (duration / (floorPower count : Rat)) := by
  have hplain : needsTuplet count (unit == compoundUnit) ≠ true := fun hneeds => by
    have hodd := (needsTuplet_natCast.1 hneeds).2.1
    omega
  unfold splitTime splitScale splitLength
  rw [if_neg hplain, if_neg hunit, Rat.mul_one]
  rfl

/-- An odd split and a power of two keep the duration of the beat. -/
theorem splitTime_eq (hunit : unit ≠ compoundUnit) (h : count % 2 = 1 ∨ ∃ k, count = Nat.pow 2 k) :
    splitTime count duration unit = duration := by
  by_cases hodd : count % 2 = 1
  · exact splitTime_of_odd hunit hodd
  · have hself : floorPower count = count := floorPower_eq_self_iff.2 (h.resolve_left hodd)
    have hpower : (floorPower count : Rat) ≠ 0 :=
      mt Rat.natCast_eq_zero_iff.1 (Nat.ne_of_gt (floorPower_pos count))
    rw [splitTime_of_even hunit (by omega)]
    rw [hself] at hpower ⊢
    grind

/-- Every other split comes to more than the beat. -/
theorem lt_splitTime (hcount : 0 < count) (hduration : 0 < duration) (hunit : unit ≠ compoundUnit)
    (h : ¬ (count % 2 = 1 ∨ ∃ k, count = Nat.pow 2 k)) :
    duration < splitTime count duration unit := by
  obtain ⟨hodd, hpower⟩ := not_or.1 h
  have hlt : floorPower count < count :=
    Nat.lt_of_le_of_ne (floorPower_le hcount) (mt floorPower_eq_self_iff.1 hpower)
  have hpos : (0 : Rat) < floorPower count := Rat.natCast_pos.2 (floorPower_pos count)
  have hpart : 0 < duration / (floorPower count : Rat) := by
    rw [Rat.div_def]
    exact Rat.mul_pos hduration (Rat.inv_pos.2 hpos)
  rw [splitTime_of_even hunit (by omega)]
  calc duration = floorPower count * (duration / (floorPower count : Rat)) := by grind
    _ < count * (duration / (floorPower count : Rat)) :=
        Rat.mul_lt_mul_of_pos_right (Rat.natCast_lt_natCast.2 hlt) hpart

end

-- ============================================================== spans

namespace BeatGroup

theorem span_of_unit_ne {g : BeatGroup} (h : g.unit ≠ compoundUnit) : g.span = g.duration := by
  unfold span compound
  rw [if_neg (by simpa using h)]

theorem span_of_unit_eq {g : BeatGroup} (h : g.unit = compoundUnit) :
    g.span = g.count * g.length := by
  unfold span compound
  rw [if_pos (by simpa using h)]

theorem splitTime_eq_span {g : BeatGroup}
    (h : g.unit = compoundUnit ∨ g.count % 2 = 1 ∨ ∃ k, g.count = Nat.pow 2 k) :
    splitTime g.count g.duration g.unit = g.span := by
  by_cases hunit : g.unit = compoundUnit
  · rw [splitTime_compound hunit, span_of_unit_eq hunit]
    rfl
  · rw [splitTime_eq hunit (h.resolve_left hunit), span_of_unit_ne hunit]

theorem span_lt_splitTime {g : BeatGroup} (hduration : 0 < g.duration)
    (h : ¬ (g.unit = compoundUnit ∨ g.count % 2 = 1 ∨ ∃ k, g.count = Nat.pow 2 k)) :
    g.span < splitTime g.count g.duration g.unit := by
  obtain ⟨hunit, hsplit⟩ := not_or.1 h
  rw [span_of_unit_ne hunit]
  exact lt_splitTime (Nat.succ_pos _) hduration hunit hsplit

end BeatGroup

end LyricScore
