/-
Notes on the clock. In exact time no note goes on when the next one starts. In ticks the end of a
note is its start and its length, each cut off on its own, and the start of the next note is cut
off once, behind roundings that depend on how far the piece has come. So the end can come behind
the next start, by one tick in any piece that is not absurdly long.

# Where it cannot happen

A time that is a whole number of halves, quarters, eighths and so on is kept by the clock, and then
the cut-off parts only make the end earlier. What is left are the times of tuplets.
-/
import LyricScore.Midi.File
import LyricScore.Proofs.Midi.Clock
import LyricScore.Proofs.Performance.Extents

namespace LyricScore

-- =============================================================== parts

/-- A time that is a whole number of parts, of which a quarter note has `2 ^ k`. -/
def IsParts (k : Nat) (time : Rat) : Prop :=
  ∃ n : Nat, time = n / 2 ^ k

/-- All rows of a table last for whole numbers of such parts. -/
def Table.Halves (k : Nat) (t : Table) : Prop :=
  ∀ r ∈ t, r.isRhythm = true → IsParts k (t.timeOf r)

namespace IsParts

variable {k : Nat}

theorem zero (k : Nat) : IsParts k 0 :=
  ⟨0, by rw [Nat.cast_zero, zero_div]⟩

theorem add {a b : Rat} (ha : IsParts k a) (hb : IsParts k b) : IsParts k (a + b) := by
  obtain ⟨m, rfl⟩ := ha
  obtain ⟨n, rfl⟩ := hb
  exact ⟨m + n, by rw [Nat.cast_add, add_div]⟩

theorem sumTimes {times : List Rat} (h : ∀ time ∈ times, IsParts k time) :
    IsParts k (sumTimes times) := by
  induction times with
  | nil => exact zero k
  | cons time times ih =>
      obtain ⟨htime, hrest⟩ := List.forall_mem_cons.1 h
      exact htime.add (ih hrest)

/-- A number of parts that is not too large has its exact tick. -/
theorem ticks_eq {time : Rat} {tick : Int} (h : IsParts k time) (hsmall : time * 2 ^ k < 2 ^ 49)
    (htick : Midi.ticks time = .ok tick) : tick = ⌊960 * time⌋ := by
  obtain ⟨n, rfl⟩ := h
  refine Midi.ticks_of_digits (m := n) (j := -k) ?_ ?_ htick
  · rw [div_mul_cancel₀ _ (by positivity)] at hsmall
    exact_mod_cast hsmall
  · rw [zpow_neg, zpow_natCast, div_eq_mul_inv]

end IsParts

theorem extentsFrom_parts {time : Row → Rat} {rows : List Row} {k : Nat}
    (h : ∀ r ∈ rows, IsParts k (time r)) {now : Rat} (hnow : IsParts k now) :
    ∀ e ∈ extentsFrom time now rows, IsParts k e.1 ∧ IsParts k e.2 := by
  induction rows generalizing now with
  | nil => exact fun e he => absurd he List.not_mem_nil
  | cons r rows ih =>
      obtain ⟨hr, hrows⟩ := List.forall_mem_cons.1 h
      have hlater := ih hrows (hnow.add hr)
      cases hstrikes : r.strikes with
      | false => rwa [extentsFrom_of_not_strikes hstrikes]
      | true =>
          rw [extentsFrom_of_strikes hstrikes]
          refine List.forall_mem_cons.2 ⟨⟨hnow, hr.add (IsParts.sumTimes fun x hx => ?_)⟩, hlater⟩
          obtain ⟨q, hq, rfl⟩ := List.mem_map.1 hx
          exact hrows q ((List.takeWhile_sublist _).subset hq)

/-- The notes of a table whose rows last for whole parts start and last for whole parts. -/
theorem Table.Halves.extents {t : Table} {k : Nat} (h : t.Halves k) :
    ∀ e ∈ t.extents, IsParts k e.1 ∧ IsParts k e.2 := by
  rw [t.extents_eq]
  refine extentsFrom_parts (fun r hr => ?_) (IsParts.zero k)
  obtain ⟨hr, hrhythm⟩ := List.mem_filter.1 hr
  exact h r hr hrhythm

-- =============================================================== ticks

namespace Midi

/-- A note starts and ends at two ticks. -/
theorem noteMessages_eq_ok_iff {e : NoteEvent} {on off : Int} :
    noteMessages e = .ok [⟨on, .noteOn e.pitch⟩, ⟨off, .noteOff e.pitch⟩]
      ↔ ∃ length, ticks e.start = .ok on ∧ ticks e.duration = .ok length ∧ off = on + length := by
  constructor
  · intro h
    obtain ⟨start, hstart, h⟩ := bind_eq_ok.1 h
    obtain ⟨length, hlength, h⟩ := bind_eq_ok.1 h
    cases h
    exact ⟨length, hstart, hlength, rfl⟩
  · rintro ⟨length, hon, hlength, rfl⟩
    exact bind_eq_ok.2 ⟨on, hon, bind_eq_ok.2 ⟨length, hlength, rfl⟩⟩

/-- A note has its messages, unless it ends near the end of the clock. -/
theorem exists_noteMessages {e : NoteEvent} (hstart : 0 ≤ e.start) (hlasts : 0 < e.duration)
    (hlimit : (e.start + e.duration) * 2 ^ 12 < clockLimit) :
    ∃ on off, noteMessages e = .ok [⟨on, .noteOn e.pitch⟩, ⟨off, .noteOff e.pitch⟩] := by
  obtain ⟨on, hon⟩ := exists_ticks hstart (by linarith)
  obtain ⟨length, hlength⟩ := exists_ticks hlasts.le (by linarith)
  exact ⟨on, on + length, noteMessages_eq_ok_iff.2 ⟨length, hon, hlength, rfl⟩⟩

section Pair

-- A note from `x` on for `d`, one from `y` on, and their ticks.
variable {x d y : Rat} {on length next : Int}

/-- In ticks a note can end behind the start of the next one. It does so by less than one tick and
what the roundings have summed up to. -/
theorem ticks_lt_of_behind (hx : 0 ≤ x) (hd : 0 < d) (hbehind : x + d ≤ y)
    (hon : ticks x = .ok on) (hlength : ticks d = .ok length) (hnext : ticks y = .ok next) :
    ((on + length : Int) : Rat) < next + 1 + y / 2 ^ 41 := by
  have hhigh := (ticks_near hx hon).1
  have hhigh' := (ticks_near hd.le hlength).1
  have hlow := (ticks_near (by linarith) hnext).2
  rw [Int.cast_add]
  linarith

/-- Times of whole parts come in time. -/
theorem ticks_le_of_parts {k : Nat} (hx : 0 ≤ x) (hd : 0 < d) (hbehind : x + d ≤ y)
    (hsmall : y * 2 ^ k < 2 ^ 49) (hxk : IsParts k x) (hdk : IsParts k d) (hyk : IsParts k y)
    (hon : ticks x = .ok on) (hlength : ticks d = .ok length) (hnext : ticks y = .ok next) :
    on + length ≤ next := by
  have hless : ∀ {z : Rat}, z ≤ y → z * 2 ^ k < 2 ^ 49 := fun hz =>
    lt_of_le_of_lt (mul_le_mul_of_nonneg_right hz (by positivity)) hsmall
  rw [hxk.ticks_eq (hless (by linarith)) hon, hdk.ticks_eq (hless (by linarith)) hlength,
    hyk.ticks_eq hsmall hnext]
  calc ⌊960 * x⌋ + ⌊960 * d⌋ ≤ ⌊960 * x + 960 * d⌋ := Int.le_floor_add _ _
    _ ≤ ⌊960 * y⌋ := Int.floor_le_floor (by linarith)

end Pair

end Midi

-- ================================================================ runs

/-- The notes of a run in ticks. For every text that runs, behind any stage: a note has its ticks,
unless it ends near the end of the clock. A note `e` ends in exact time before a later one `f`
starts. In ticks its end comes behind that start by less than one tick and the 2^41th part of the
time that has passed, so by one tick at most in a piece of 2^41 quarter notes. It does not come
behind it if all rows last for whole numbers of some halved part of a quarter note, of which the
piece has fewer than 2^49. -/
theorem noteOff_near_noteOn_of_run {text : String} {o : Options} {result : Result}
    (h : run (.text text) o = .ok result) :
    ∃ notes, result.table.events = .ok notes
      ∧ (∀ e ∈ notes, (e.start + e.duration) * 2 ^ 12 < Midi.clockLimit → ∃ on off,
        Midi.noteMessages e = .ok [⟨on, .noteOn e.pitch⟩, ⟨off, .noteOff e.pitch⟩])
      ∧ notes.Pairwise fun (e f : NoteEvent) => e.start + e.duration ≤ f.start
        ∧ ∀ on off next last,
          Midi.noteMessages e = .ok [⟨on, .noteOn e.pitch⟩, ⟨off, .noteOff e.pitch⟩] →
          Midi.noteMessages f = .ok [⟨next, .noteOn f.pitch⟩, ⟨last, .noteOff f.pitch⟩] →
          (off : Rat) < next + 1 + f.start / 2 ^ 41
            ∧ (f.start ≤ 2 ^ 41 → off ≤ next + 1)
            ∧ ∀ k, result.table.Halves k → f.start * 2 ^ k < 2 ^ 49 → off ≤ next := by
  obtain ⟨notes, hnotes, hextents, hpos, hordered⟩ := exists_events_of_run h
  refine ⟨notes, hnotes, fun e he => Midi.exists_noteMessages (hpos e he).1 (hpos e he).2,
    hordered.imp_of_mem fun {e f} he hf hbehind => ⟨hbehind, ?_⟩⟩
  intro on off next last hone htwo
  obtain ⟨length, hon, hlength, rfl⟩ := Midi.noteMessages_eq_ok_iff.1 hone
  obtain ⟨-, hnext, -, -⟩ := Midi.noteMessages_eq_ok_iff.1 htwo
  obtain ⟨hx, hd⟩ := hpos e he
  have hnear := Midi.ticks_lt_of_behind hx hd hbehind hon hlength hnext
  refine ⟨hnear, fun hshort => ?_, fun k hhalves hsmall => ?_⟩
  · have hlt : ((on + length : Int) : Rat) < (next + 2 : Int) := by
      push_cast at hnear ⊢
      linarith
    have := Int.cast_lt.1 hlt
    omega
  · have hparts := hhalves.extents
    rw [← hextents] at hparts
    obtain ⟨hxk, hdk⟩ := hparts _ (List.mem_map_of_mem he)
    obtain ⟨hyk, -⟩ := hparts _ (List.mem_map_of_mem hf)
    exact Midi.ticks_le_of_parts hx hd hbehind hsmall hxk hdk hyk hon hlength hnext

/-- Eight quarter notes and a beat of five, all on one pitch. -/
def fiveInOneText : String :=
  "la la la la | la la la la | la.la.la.la.la\nc c c c c c c c c c c c c"

/-- The notes of the text, with the first two of the five. -/
def fiveInOneNotes : {notes // ((run (.text fiveInOneText) {}).bind fun result => result.table.events)
      = .ok notes
    ∧ notes[8]? = some ⟨60, 8, 1 / 5⟩ ∧ notes[9]? = some ⟨60, 41 / 5, 1 / 5⟩} :=
  checked (by decide +kernel)

/-- The first two of the five notes. -/
theorem fiveInOne_notes :
    ∃ result notes, run (.text fiveInOneText) {} = .ok result ∧ result.table.events = .ok notes
      ∧ notes[8]? = some ⟨60, 8, 1 / 5⟩ ∧ notes[9]? = some ⟨60, 41 / 5, 1 / 5⟩ := by
  obtain ⟨notes, hplayed, hfive⟩ := fiveInOneNotes
  obtain ⟨result, hrun, hnotes⟩ := bind_eq_ok.1 hplayed
  exact ⟨result, notes, hrun, hnotes, hfive⟩

/-- The ticks of the two notes. -/
theorem fiveInOne_messages :
    Midi.noteMessages ⟨60, 8, 1 / 5⟩ = .ok [⟨7680, .noteOn 60⟩, ⟨7872, .noteOff 60⟩]
      ∧ Midi.noteMessages ⟨60, 41 / 5, 1 / 5⟩ = .ok [⟨7871, .noteOn 60⟩, ⟨8063, .noteOff 60⟩] := by
  have hstart : Midi.ticks 8 = .ok 7680 := by decide +kernel
  have hfifth : Midi.ticks (1 / 5) = .ok 192 := by decide +kernel
  have hnext : Midi.ticks (41 / 5) = .ok 7871 := by decide +kernel
  exact ⟨Midi.noteMessages_eq_ok_iff.2 ⟨192, hstart, hfifth, by decide⟩,
    Midi.noteMessages_eq_ok_iff.2 ⟨192, hnext, hfifth, by decide⟩⟩

theorem noteOff_near_noteOn_of_run_fiveInOne :
    ∃ result notes e f on off next last, run (.text fiveInOneText) {} = .ok result
      ∧ result.table.events = .ok notes ∧ notes[8]? = some e ∧ notes[9]? = some f
      ∧ Midi.noteMessages e = .ok [⟨on, .noteOn e.pitch⟩, ⟨off, .noteOff e.pitch⟩]
      ∧ Midi.noteMessages f = .ok [⟨next, .noteOn f.pitch⟩, ⟨last, .noteOff f.pitch⟩]
      ∧ e.start + e.duration ≤ f.start ∧ off ≤ next + 1 := by
  obtain ⟨result, notes, hrun, hnotes, he, hf⟩ := fiveInOne_notes
  obtain ⟨notes', hnotes', -, hpair⟩ := noteOff_near_noteOn_of_run hrun
  obtain rfl := Except.ok.inj (hnotes.symm.trans hnotes')
  obtain ⟨h8, he'⟩ := List.getElem?_eq_some_iff.1 he
  obtain ⟨h9, hf'⟩ := List.getElem?_eq_some_iff.1 hf
  have hnine := List.pairwise_iff_getElem.1 hpair 8 9 h8 h9 (by decide)
  rw [he', hf'] at hnine
  obtain ⟨hbehind, hticks⟩ := hnine
  obtain ⟨hone, htwo⟩ := fiveInOne_messages
  obtain ⟨-, hnear, -⟩ := hticks _ _ _ _ hone htwo
  exact ⟨result, notes, _, _, _, _, _, _, hrun, hnotes, he, hf, hone, htwo, hbehind,
    hnear (by norm_num)⟩

/-- The first of the five notes ends behind the start of the second one. -/
theorem noteOff_behind_noteOn :
    ∃ result notes e f on off next last, run (.text fiveInOneText) {} = .ok result
      ∧ result.table.events = .ok notes ∧ notes[8]? = some e ∧ notes[9]? = some f
      ∧ Midi.noteMessages e = .ok [⟨on, .noteOn e.pitch⟩, ⟨off, .noteOff e.pitch⟩]
      ∧ Midi.noteMessages f = .ok [⟨next, .noteOn f.pitch⟩, ⟨last, .noteOff f.pitch⟩]
      ∧ next < off := by
  obtain ⟨result, notes, hrun, hnotes, he, hf⟩ := fiveInOne_notes
  obtain ⟨hone, htwo⟩ := fiveInOne_messages
  exact ⟨result, notes, _, _, _, _, _, _, hrun, hnotes, he, hf, hone, htwo, by decide⟩

end LyricScore
