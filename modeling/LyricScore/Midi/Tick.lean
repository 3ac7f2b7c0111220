/-
Ticks. A quarter note has 960 ticks. Times go through a clock that keeps 53 significant binary
digits: a time is rounded to the clock, multiplied, rounded again, and the fraction of a tick is
dropped. All of it is exact arithmetic on integers.
-/
import LyricScore.Error

namespace LyricScore.Midi

/-- A quotient rounded to the nearest integer; a half goes to the even one. -/
def roundDiv (a b : Nat) : Nat :=
  let q := a / b
  let twice := 2 * (a % b)
  if twice < b then q
  else if b < twice then q + 1
  else if q % 2 = 0 then q
  else q + 1

/-- The largest power of two that is not above a positive quotient, as its exponent. -/
def floorLog (a b : Nat) : Int :=
  let k : Int := (a.log2 : Int) - b.log2
  let below : Bool := if 0 ≤ k then a < b * Nat.pow 2 k.toNat else a * Nat.pow 2 (-k).toNat < b
  if below then k - 1 else k

/-- A positive quotient rounded to 53 significant binary digits. -/
def roundPositive (a b : Nat) : Rat :=
  let e := floorLog a b - 52
  if 0 ≤ e then (roundDiv a (b * Nat.pow 2 e.toNat) * Nat.pow 2 e.toNat : Nat)
  else mkRat (roundDiv (a * Nat.pow 2 (-e).toNat) b) (Nat.pow 2 (-e).toNat)

/-- A number rounded to 53 significant binary digits. -/
def round53 (q : Rat) : Rat :=
  if q = 0 then 0
  else if q < 0 then -roundPositive q.num.natAbs q.den
  else roundPositive q.num.natAbs q.den

/-- The first number that is too large for the clock. -/
def clockLimit : Nat := Nat.pow 2 1024

/-- A number on the clock. -/
def onClock (q : Rat) : Except Error Rat :=
  let r := round53 q
  if r.num.natAbs < clockLimit * r.den then .ok r else .error .timeTooLarge

/-- The ticks of a quarter note. -/
def ticksPerQuarter : Nat := 960

/-- The ticks of a time in quarter notes. -/
def ticks (time : Rat) : Except Error Int := do
  let quarters ← onClock time
  let all ← onClock (quarters * ticksPerQuarter)
  return all.num.tdiv all.den

end LyricScore.Midi
