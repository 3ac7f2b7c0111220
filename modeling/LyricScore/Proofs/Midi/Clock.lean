/-
The clock of a MIDI file. It keeps 53 significant binary digits, so a time is off by no more than
its 2^53th part, and a time with few enough digits is kept as it is. Ticks are counted on the clock
and cut off, so the tick of a time is the exact one up to the errors of two roundings.

# Where the digits end

`floorLog` finds the first digit; all that is used of it is that its power of two is not above the
number. Rounding then is rounding of a quotient to an integer, in units of the last digit.
-/
import LyricScore.Midi.Tick
import LyricScore.Proofs.Sequence
import Mathlib.Algebra.Order.Field.Rat
import Mathlib.Data.Rat.Floor
import Mathlib.Tactic.Linarith
import Mathlib.Tactic.Positivity

namespace LyricScore.Midi

-- =========================================================== quotients

theorem roundDiv_bounds (a : Nat) {b : Nat} (hb : 0 < b) :
    2 * a ≤ 2 * (b * roundDiv a b) + b ∧ 2 * (b * roundDiv a b) ≤ 2 * a + b := by
  have hsplit := Nat.div_add_mod a b
  have hlt := Nat.mod_lt a hb
  have hsucc := Nat.mul_add_one b (a / b)
  unfold roundDiv
  dsimp only
  split
  · omega
  · split
    · omega
    · split <;> omega

/-- A rounded quotient is off by a half at most. -/
theorem roundDiv_near (a : Nat) {b : Nat} (hb : 0 < b) :
    |(roundDiv a b : Rat) - a / b| ≤ 1 / 2 := by
  have hpos : (0 : Rat) < b := by exact_mod_cast hb
  obtain ⟨hlow, hhigh⟩ := roundDiv_bounds a hb
  have hlow : (2 * a : Rat) ≤ 2 * (b * roundDiv a b) + b := by exact_mod_cast hlow
  have hhigh : (2 * (b * roundDiv a b) : Rat) ≤ 2 * a + b := by exact_mod_cast hhigh
  have hback : (a : Rat) / b * b = a := div_mul_cancel₀ _ hpos.ne'
  refine abs_le.2 ⟨?_, ?_⟩
  · refine le_of_mul_le_mul_right ?_ hpos
    linarith
  · refine le_of_mul_le_mul_right ?_ hpos
    linarith

theorem roundDiv_mul (n : Nat) {b : Nat} (hb : 0 < b) : roundDiv (n * b) b = n := by
  unfold roundDiv
  rw [Nat.mul_mod_left, Nat.mul_div_cancel n hb]
  exact if_pos hb

-- =========================================================== first digit

theorem cast_two_pow (k : Nat) : ((Nat.pow 2 k : Nat) : Rat) = 2 ^ k :=
  Nat.cast_pow 2 k

theorem two_zpow_of_nonneg {k : Int} (h : 0 ≤ k) : (2 : Rat) ^ k = (Nat.pow 2 k.toNat : Nat) := by
  obtain ⟨n, rfl⟩ := Int.eq_ofNat_of_zero_le h
  rw [zpow_natCast, Int.toNat_natCast, cast_two_pow]

theorem two_zpow_of_neg {k : Int} (h : k < 0) :
    (2 : Rat) ^ k = 1 / (Nat.pow 2 (-k).toNat : Nat) := by
  rw [← two_zpow_of_nonneg (by omega), zpow_neg, one_div, inv_inv]

/-- The power of two that is found is not above the quotient. -/
theorem two_zpow_floorLog_le {a b : Nat} (ha : 0 < a) (hb : 0 < b) :
    (2 : Rat) ^ floorLog a b ≤ a / b := by
  have hpos : (0 : Rat) < b := by exact_mod_cast hb
  -- the lengths of both numbers give the exponent up to one
  have hnear : (2 : Rat) ^ ((a.log2 : Int) - b.log2 - 1) ≤ a / b := by
    have hlow : ((2 : Rat) ^ a.log2) ≤ a := by exact_mod_cast Nat.log2_self_le ha.ne'
    have hhigh : (b : Rat) ≤ 2 ^ (b.log2 + 1) := by exact_mod_cast Nat.lt_log2_self.le
    rw [show (a.log2 : Int) - b.log2 - 1 = (a.log2 : Int) - (b.log2 + 1 : Nat) by omega,
      zpow_sub₀ two_ne_zero, zpow_natCast, zpow_natCast]
    exact div_le_div₀ (by positivity) hlow hpos hhigh
  unfold floorLog
  dsimp only
  generalize (a.log2 : Int) - b.log2 = k at hnear
  by_cases hk : 0 ≤ k
  · rw [if_pos hk]
    split
    · exact hnear
    · next hbelow =>
      have hle : b * Nat.pow 2 k.toNat ≤ a := by simpa using hbelow
      rw [le_div_iff₀ hpos, two_zpow_of_nonneg hk, mul_comm]
      exact_mod_cast hle
  · rw [if_neg hk]
    split
    · exact hnear
    · next hbelow =>
      have hle : b ≤ a * Nat.pow 2 (-k).toNat := by simpa using hbelow
      have hpow : (0 : Rat) < (Nat.pow 2 (-k).toNat : Nat) := by
        exact_mod_cast Nat.pow_pos (by decide)
      rw [le_div_iff₀ hpos, two_zpow_of_neg (by omega), one_div, inv_mul_le_iff₀ hpow, mul_comm]
      exact_mod_cast hle

-- ============================================================= rounding

/-- Rounding to 53 digits is rounding to an integer, in units of the last digit. -/
theorem roundPositive_eq (a : Nat) {b : Nat} (hb : 0 < b) :
    ∃ c d : Nat, 0 < d ∧ (c / d : Rat) = a / b / 2 ^ (floorLog a b - 52)
      ∧ roundPositive a b = roundDiv c d * 2 ^ (floorLog a b - 52) := by
  unfold roundPositive
  dsimp only
  generalize floorLog a b - 52 = e
  by_cases he : 0 ≤ e
  · rw [if_pos he, two_zpow_of_nonneg he]
    refine ⟨a, b * Nat.pow 2 e.toNat, Nat.mul_pos hb (Nat.pow_pos (by decide)), ?_, ?_⟩
    · rw [Nat.cast_mul, div_div]
    · exact Nat.cast_mul _ _
  · rw [if_neg he, two_zpow_of_neg (by omega)]
    refine ⟨a * Nat.pow 2 (-e).toNat, b, hb, ?_, ?_⟩
    · rw [Nat.cast_mul, one_div, div_inv_eq_mul, mul_div_right_comm]
    · rw [Rat.mkRat_eq_div, mul_one_div, Int.cast_natCast]

/-- A rounded number is off by its 2^53th part at most. -/
theorem roundPositive_near {a b : Nat} (ha : 0 < a) (hb : 0 < b) :
    |roundPositive a b - a / b| ≤ a / b / 2 ^ 53 := by
  obtain ⟨c, d, hd, hquotient, hround⟩ := roundPositive_eq a hb
  have hunit : (0 : Rat) < 2 ^ (floorLog a b - 52) := zpow_pos two_pos _
  have hdiff : roundPositive a b - a / b
      = ((roundDiv c d : Rat) - c / d) * 2 ^ (floorLog a b - 52) := by
    rw [hround, sub_mul, hquotient, div_mul_cancel₀ _ hunit.ne']
  have hhalf : (1 / 2 : Rat) * 2 ^ (floorLog a b - 52) = 2 ^ floorLog a b / 2 ^ 53 := by
    rw [zpow_sub₀ two_ne_zero]
    norm_num
    ring
  calc |roundPositive a b - a / b|
      = |(roundDiv c d : Rat) - c / d| * 2 ^ (floorLog a b - 52) := by
        rw [hdiff, abs_mul, abs_of_pos hunit]
    _ ≤ 1 / 2 * 2 ^ (floorLog a b - 52) :=
        mul_le_mul_of_nonneg_right (roundDiv_near c hd) hunit.le
    _ = 2 ^ floorLog a b / 2 ^ 53 := hhalf
    _ ≤ a / b / 2 ^ 53 :=
        div_le_div_of_nonneg_right (two_zpow_floorLog_le ha hb) (by positivity)

/-- A number of 53 digits is kept. -/
theorem roundPositive_of_digits {a b m : Nat} {j : Int} (ha : 0 < a) (hb : 0 < b) (hm : m < 2 ^ 53)
    (h : (a / b : Rat) = m * 2 ^ j) : roundPositive a b = a / b := by
  obtain ⟨c, d, hd, hquotient, hround⟩ := roundPositive_eq a hb
  have hunit : (0 : Rat) < 2 ^ (floorLog a b - 52) := zpow_pos two_pos _
  have hdpos : (0 : Rat) < d := by exact_mod_cast hd
  -- the last digit of the number is not behind the last one that is kept
  have hlast : floorLog a b - 52 ≤ j := by
    have hlt : (2 : Rat) ^ floorLog a b < 2 ^ (53 + j) := by
      calc (2 : Rat) ^ floorLog a b ≤ m * 2 ^ j := h ▸ two_zpow_floorLog_le ha hb
        _ < 2 ^ 53 * 2 ^ j := by
          apply mul_lt_mul_of_pos_right _ (zpow_pos two_pos _)
          exact_mod_cast hm
        _ = 2 ^ (53 + j) := (zpow_add₀ two_ne_zero 53 j).symm
    have := (zpow_lt_zpow_iff_right₀ one_lt_two).1 hlt
    omega
  have hwhole : (c / d : Rat) = (m * Nat.pow 2 (j - (floorLog a b - 52)).toNat : Nat) := by
    rw [hquotient, h, Nat.cast_mul, ← two_zpow_of_nonneg (by omega), zpow_sub₀ two_ne_zero j,
      mul_div_assoc]
  have hc : c = m * Nat.pow 2 (j - (floorLog a b - 52)).toNat * d := by
    rw [div_eq_iff hdpos.ne'] at hwhole
    exact_mod_cast hwhole
  rw [hround, hc, roundDiv_mul _ hd, ← hwhole, hquotient, div_mul_cancel₀ _ hunit.ne']

-- ================================================================ times

/-- A positive number as the quotient that is rounded. -/
theorem round53_of_pos {q : Rat} (h : 0 < q) :
    round53 q = roundPositive q.num.natAbs q.den ∧ 0 < q.num.natAbs
      ∧ (q.num.natAbs / q.den : Rat) = q := by
  have hnum := Rat.num_pos.2 h
  refine ⟨?_, by omega, ?_⟩
  · unfold round53
    rw [if_neg h.ne', if_neg (not_lt.2 h.le)]
  · rw [Nat.cast_natAbs, abs_of_pos hnum]
    exact q.num_div_den

/-- A time on the clock is off by its 2^53th part at most. -/
theorem round53_near {q : Rat} (h : 0 ≤ q) : |round53 q - q| ≤ q / 2 ^ 53 := by
  rcases h.eq_or_lt with rfl | hpos
  · norm_num [round53]
  · obtain ⟨hround, hnum, hq⟩ := round53_of_pos hpos
    have hnear := roundPositive_near hnum q.den_pos
    rwa [← hround, hq] at hnear

theorem round53_bounds {q : Rat} (h : 0 ≤ q) :
    q * (1 - 1 / 2 ^ 53) ≤ round53 q ∧ round53 q ≤ q * (1 + 1 / 2 ^ 53) := by
  obtain ⟨hlow, hhigh⟩ := abs_le.1 (round53_near h)
  constructor <;> linarith

theorem round53_nonneg {q : Rat} (h : 0 ≤ q) : 0 ≤ round53 q :=
  le_trans (mul_nonneg h (by norm_num)) (round53_bounds h).1

/-- A time of 53 digits is on the clock. -/
theorem round53_of_digits {q : Rat} {m : Nat} {j : Int} (hm : m < 2 ^ 53) (h : q = m * 2 ^ j) :
    round53 q = q := by
  have hnonneg : 0 ≤ q := by
    rw [h]
    exact mul_nonneg (Nat.cast_nonneg m) (zpow_pos two_pos j).le
  rcases hnonneg.eq_or_lt with rfl | hpos
  · exact if_pos rfl
  · obtain ⟨hround, hnum, hq⟩ := round53_of_pos hpos
    rw [hround, roundPositive_of_digits hnum q.den_pos hm (hq.trans h), hq]

theorem eq_round53_of_onClock {q r : Rat} (h : onClock q = .ok r) : r = round53 q := by
  unfold onClock at h
  dsimp only at h
  split at h
  · exact (Except.ok.inj h).symm
  · cases h

/-- The clock goes on for long. -/
theorem onClock_eq_ok {q : Rat} (h : 0 ≤ q) (hq : 2 * q < clockLimit) :
    onClock q = .ok (round53 q) := by
  have hlimit : round53 q < clockLimit := by linarith [(round53_bounds h).2]
  have hnum := Rat.num_nonneg.2 (round53_nonneg h)
  unfold onClock
  dsimp only
  generalize round53 q = r at *
  have hden : (0 : Rat) < r.den := by exact_mod_cast r.den_pos
  have hlt : (r.num.natAbs : Rat) < clockLimit * r.den := by
    rw [← r.num_div_den, div_lt_iff₀ hden] at hlimit
    rwa [Nat.cast_natAbs, abs_of_nonneg hnum]
  exact if_pos (by exact_mod_cast hlt)

-- ================================================================ ticks

/-- A time has a tick, unless it is near the end of the clock. -/
theorem exists_ticks {q : Rat} (h : 0 ≤ q) (hq : q * 2 ^ 12 < clockLimit) :
    ∃ n, ticks q = .ok n := by
  have hhigh := (round53_bounds h).2
  have hquarters := onClock_eq_ok h (by linarith)
  have hall := onClock_eq_ok (mul_nonneg (round53_nonneg h) (by norm_num : (0 : Rat) ≤ 960))
    (by linarith)
  exact ⟨_, bind_eq_ok.2 ⟨_, hquarters, bind_eq_ok.2 ⟨_, hall, rfl⟩⟩⟩

/-- The tick of a time, in exact numbers. -/
theorem ticks_eq_floor {q : Rat} {n : Int} (h : 0 ≤ q) (hn : ticks q = .ok n) :
    n = ⌊round53 (round53 q * 960)⌋ := by
  obtain ⟨quarters, hquarters, hn⟩ := bind_eq_ok.1 hn
  obtain ⟨all, hall, hn⟩ := bind_eq_ok.1 hn
  obtain rfl := eq_round53_of_onClock hquarters
  obtain rfl := eq_round53_of_onClock hall
  obtain rfl := Except.ok.inj hn
  have hnonneg := round53_nonneg (mul_nonneg (round53_nonneg h) (by norm_num : (0 : Rat) ≤ 960))
  exact (Int.tdiv_eq_ediv_of_nonneg (Rat.num_nonneg.2 hnonneg)).trans Rat.floor_def'.symm

/-- A tick is the exact one, up to the errors of two roundings. -/
theorem ticks_near {q : Rat} {n : Int} (h : 0 ≤ q) (hn : ticks q = .ok n) :
    (n : Rat) ≤ 960 * (q * (1 + 1 / 2 ^ 53) ^ 2) ∧ 960 * (q * (1 - 1 / 2 ^ 53) ^ 2) < n + 1 := by
  obtain ⟨hlow, hhigh⟩ := round53_bounds h
  obtain ⟨hlow', hhigh'⟩ :=
    round53_bounds (mul_nonneg (round53_nonneg h) (by norm_num : (0 : Rat) ≤ 960))
  rw [ticks_eq_floor h hn]
  constructor
  · have := Int.floor_le (round53 (round53 q * 960))
    linarith
  · have := Int.lt_floor_add_one (round53 (round53 q * 960))
    linarith

/-- A time of few digits has its exact tick. -/
theorem ticks_of_digits {q : Rat} {m : Nat} {j : Int} {n : Int} (hm : m < 2 ^ 49)
    (h : q = m * 2 ^ j) (hn : ticks q = .ok n) : n = ⌊960 * q⌋ := by
  have hnonneg : 0 ≤ q := by
    rw [h]
    exact mul_nonneg (Nat.cast_nonneg m) (zpow_pos two_pos j).le
  have hproduct : q * 960 = (15 * m : Nat) * 2 ^ (6 + j) := by
    rw [h, zpow_add₀ two_ne_zero]
    push_cast
    ring
  rw [ticks_eq_floor hnonneg hn, round53_of_digits (by omega) h,
    round53_of_digits (by omega) hproduct, mul_comm]

end LyricScore.Midi
