/-
Dotted notes. Three tied notes of one length that are written as one dotted note sound as before:
the ties make them one note, and the dotted one lasts as long as the three. `Dotted` says which
tokens such a text has; so it is heard like the text without dots.
-/
import Mathlib.Data.List.SplitBy
import LyricScore.Proofs.Sequence
import LyricScore.Proofs.Tune.Script
import LyricScore.Table.Ties

namespace LyricScore

open Text

-- ============================================================== rows

/-- A row that ties to another sings, and the other one sings the same pitch as a tied note. -/
theorem Row.Tuned.sound_of_tiesTo {a b : Row} (h : a.Tuned) (htie : a.tiesTo b = true) :
    ∃ letter octave, a.sound = .note a.isHold a.writtenAccidental letter octave
      ∧ b.sound = .note true .plain letter octave := by
  simp only [Row.tiesTo, Row.samePitch, Bool.and_eq_true, beq_iff_eq] at htie
  obtain ⟨⟨-, ⟨hpitch, hletter⟩, hoctave⟩, hhold⟩ := htie
  rcases h.silent_or_sings with ⟨-, -, hnone⟩ | ⟨letter, octave, -, hsings, -⟩
  · rw [hnone] at hpitch
    cases hpitch
  · have hsame : b.pitch? = some (letter, octave) := by
      unfold Row.pitch? at hsings ⊢
      rwa [← hletter, ← hoctave]
    refine ⟨letter, octave, ?_, ?_⟩
    · unfold Row.sound
      rw [hsings]
    · unfold Row.sound Row.writtenAccidental
      rw [hsame, hhold]
      rfl

/-- Three tied notes are heard as one that lasts as long. -/
theorem alike_run {a b c : Row} (ha : a.Tuned) (hb : b.Tuned) (hab : a.tiesTo b = true)
    (hbc : b.tiesTo c = true) (length : Rat) {p : Pulse} (h : p.Idle) :
    Alike (hear p (a.script (length * 3) []))
        (hear p ([a, b, c].flatMap fun r => r.script length []))
      ∧ p.after (a.script (length * 3) [])
        = p.after ([a, b, c].flatMap fun r => r.script length []) := by
  obtain ⟨hfactors, htied⟩ := h
  obtain ⟨hone, hafter⟩ := hear_script a (length * 3) htied
  obtain ⟨hthree, hend⟩ := BeatGroup.hear_rows length 1 [a, b, c] htied (Or.inl ⟨hfactors, rfl⟩)
  obtain ⟨letter, octave, hsa, hsb⟩ := ha.sound_of_tiesTo hab
  obtain ⟨letter', octave', -, hsc⟩ := hb.sound_of_tiesTo hbc
  rw [hone, hthree, hafter, hend]
  constructor
  · simp only [List.map_cons, List.map_nil, paced, hsa, hsb, hsc]
    have hlasting : p.lasting (length * 3)
        = length * 1 * p.unit * 4 + length * 1 * p.unit * 4 + length * 1 * p.unit * 4 := by
      unfold Pulse.lasting
      rw [hfactors]
      show length * 3 * 1 * p.unit * 4 = _
      grind
    rw [hlasting]
    exact Alike.tied.trans (Alike.tied.append_right [_])
  · obtain ⟨unit, time, factors, tied⟩ := p
    obtain rfl := hfactors
    obtain rfl := htied
    simp only [Pulse.pass, Pulse.lasting, Pulse.mk.injEq, List.headD_nil, List.tail_nil, true_and,
      and_true, List.length_cons, List.length_nil]
    grind

/-- Behind rows that stand in no tuplet none is open. -/
theorem idle_after_rows (rows : List Row) (length : Rat) {p : Pulse} (h : p.Idle) :
    (p.after (rows.flatMap fun r => r.script length [])).Idle := by
  rw [(BeatGroup.hear_rows length 1 rows h.2 (Or.inl ⟨h.1, rfl⟩)).2]
  exact ⟨rfl, h.2⟩

/-- The tokens of rows of one length, with some runs of three tied rows written as a dotted note. -/
inductive Dotted (length : Rat) : List Row → List Token → Prop where
  | nil : Dotted length [] []
  | row (r : Row) {rows : List Row} {ts : List Token} (more : Dotted length rows ts) :
      Dotted length (r :: rows) (r.script length [] ++ ts)
  | dot {x y z : Row} (hxy : x.tiesTo y = true) (hyz : y.tiesTo z = true) {rows : List Row}
      {ts : List Token} (more : Dotted length rows ts) :
      Dotted length (x :: y :: z :: rows) (x.script (length * 3) [] ++ ts)

namespace Dotted

variable {length : Rat} {rows more : List Row} {ts us : List Token}

theorem plain (length : Rat) (rows : List Row) :
    Dotted length rows (rows.flatMap fun r => r.script length []) := by
  induction rows with
  | nil => exact nil
  | cons r rows ih => exact row r ih

theorem append (h : Dotted length rows ts) (h' : Dotted length more us) :
    Dotted length (rows ++ more) (ts ++ us) := by
  induction h with
  | nil => exact h'
  | row r _ ih =>
      rw [List.append_assoc]
      exact row r ih
  | dot hxy hyz _ ih =>
      rw [List.append_assoc]
      exact dot hxy hyz ih

theorem isField_eq_false (h : Dotted length rows ts) : ∀ t ∈ ts, t.isField = false := by
  have hnone : ∀ t ∈ ([] : List Token), t.isField = false := fun _ ht => absurd ht List.not_mem_nil
  induction h with
  | nil => exact hnone
  | row r _ ih => exact List.forall_mem_append.2 ⟨isField_script hnone, ih⟩
  | dot _ _ _ ih => exact List.forall_mem_append.2 ⟨isField_script hnone, ih⟩

/-- Dots are not heard. -/
theorem alike (h : Dotted length rows ts) (htuned : ∀ r ∈ rows, r.Tuned) {p : Pulse} (hp : p.Idle) :
    Alike (hear p ts) (hear p (rows.flatMap fun r => r.script length []))
      ∧ p.after ts = p.after (rows.flatMap fun r => r.script length []) := by
  induction h generalizing p with
  | nil => exact ⟨Alike.refl _, rfl⟩
  | row r _ ih =>
      obtain ⟨-, hmore⟩ := List.forall_mem_cons.1 htuned
      have hone : (p.after (r.script length [])).Idle := by
        have hidle := idle_after_rows [r] length hp
        rwa [List.flatMap_singleton] at hidle
      obtain ⟨hsame, hafter⟩ := ih hmore hone
      rw [List.flatMap_cons, hear_append, hear_append, Pulse.after_append, Pulse.after_append]
      exact ⟨Alike.append_left _ hsame, hafter⟩
  | @dot x y z hxy hyz rows ts _ ih =>
      obtain ⟨hx, hmore⟩ := List.forall_mem_cons.1 htuned
      obtain ⟨hy, hmore⟩ := List.forall_mem_cons.1 hmore
      obtain ⟨-, hmore⟩ := List.forall_mem_cons.1 hmore
      obtain ⟨hrun, hrunAfter⟩ := alike_run hx hy hxy hyz length hp
      obtain ⟨hsame, hafter⟩ := ih hmore (idle_after_rows [x, y, z] length hp)
      have hsplit : (x :: y :: z :: rows).flatMap (fun r => r.script length [])
          = [x, y, z].flatMap (fun r => r.script length [])
            ++ rows.flatMap fun r => r.script length [] := by
        rw [← List.flatMap_append]
        rfl
      rw [hsplit, hear_append, hear_append, Pulse.after_append, Pulse.after_append, hrunAfter]
      exact ⟨hrun.append hsame, hafter⟩

end Dotted

-- ============================================================= beats

namespace PlacedBeat

/-- The rows of a run, with what is known of them and their texts. -/
structure Run (b : PlacedBeat) (run : List Row) : Prop where
  tuned : ∀ r ∈ run, r.Tuned
  note : b.bracketed = false → ∀ r ∈ run, r.noteText = some (r.encode b.length "")
  tied : run.IsChain fun a b => a.tiesTo b = true

/-- Whether a run is dotted can be told where the meter can be read; a dotted run has three rows,
and its beat has no bracket. -/
theorem dots_spec (b : PlacedBeat) {value : Int} (hvalue : meterValue b.meter = .ok value)
    (position size : Nat) :
    ∃ dotted, b.dots position size = .ok dotted
      ∧ (dotted = true → size = 3 ∧ b.bracketed = false) := by
  unfold dots
  split
  · next hmay =>
    simp only [mayDot, Bool.and_eq_true, beq_iff_eq, Bool.not_eq_true'] at hmay
    unfold staysInBeat
    rw [hvalue]
    exact ⟨_, rfl, fun _ => hmay.1⟩
  · exact ⟨false, rfl, nofun⟩

/-- The text of one run, and how many dotted notes it has. -/
def runText (b : PlacedBeat) (dotted : Bool) (run : List Row) : String × Nat :=
  match run, dotted with
  | head :: _, true => (head.encode (b.length * run.length) "", 1)
  | _, _ => (String.join (run.map fun r => r.noteText.getD ""), 0)

theorem dotRuns_cons (b : PlacedBeat) {position : Nat} {run : List Row} {rest : List (List Row)}
    {dotted : Bool} {text : String} {count : Nat} (hdots : b.dots position run.length = .ok dotted)
    (hrest : b.dotRuns (position + run.length) rest = .ok (text, count)) :
    b.dotRuns position (run :: rest)
      = .ok ((b.runText dotted run).1 ++ text, count + (b.runText dotted run).2) := by
  simp only [dotRuns, hdots, hrest]
  cases run with
  | nil => rfl
  | cons head run => cases dotted <;> rfl

/-- The text of one run. -/
theorem runText_spec {b : PlacedBeat} (hlength : 0 < b.length) (hbracket : b.bracketed = false)
    {run : List Row} (hrun : b.Run run) {dotted : Bool} (hthree : dotted = true → run.length = 3) :
    ∃ ts, Reads (b.runText dotted run).1 ts ∧ Dotted b.length run ts := by
  have hnone : ∀ t ∈ ([] : List Token), t.isField = false := fun _ ht => absurd ht List.not_mem_nil
  have hplain : Reads (String.join (run.map fun r => r.noteText.getD ""))
      (run.flatMap fun r => r.script b.length []) := by
    refine Reads.join (fun r hr => ?_) fun r _ => isField_script hnone
    rw [hrun.note hbracket r hr]
    exact (hrun.tuned r hr).reads_encode hlength Reads.empty hnone
  cases dotted with
  | false =>
      refine ⟨_, ?_, Dotted.plain b.length run⟩
      cases run with
      | nil => exact hplain
      | cons head run => exact hplain
  | true =>
      obtain ⟨x, y, z, rfl⟩ := List.length_eq_three.1 (hthree rfl)
      obtain ⟨hxy, hyz⟩ := List.isChain_cons_cons.1 hrun.tied
      have hx := hrun.tuned x (by simp)
      have htext : (b.runText true [x, y, z]).1 = x.encode (b.length * 3) "" := rfl
      have hdot := Dotted.dot hxy (List.isChain_cons_cons.1 hyz).1 (@Dotted.nil b.length)
      rw [List.append_nil] at hdot
      rw [htext]
      exact ⟨_, hx.reads_encode (Rat.mul_pos hlength (by decide)) Reads.empty hnone, hdot⟩

/-- The text of some runs with their dots. -/
theorem dotRuns_spec (b : PlacedBeat) {value : Int} (hvalue : meterValue b.meter = .ok value)
    (hlength : 0 < b.length) (position : Nat) {runs : List (List Row)}
    (hruns : ∀ run ∈ runs, b.Run run) :
    ∃ text count, b.dotRuns position runs = .ok (text, count)
      ∧ (count ≠ 0 → b.bracketed = false)
      ∧ (b.bracketed = false → ∃ ts, Reads text ts ∧ Dotted b.length runs.flatten ts) := by
  induction runs generalizing position with
  | nil => exact ⟨"", 0, rfl, fun h => absurd rfl h, fun _ => ⟨[], Reads.empty, Dotted.nil⟩⟩
  | cons run rest ih =>
      obtain ⟨hrun, hrest⟩ := List.forall_mem_cons.1 hruns
      obtain ⟨dotted, hdots, hthree⟩ := b.dots_spec hvalue position run.length
      obtain ⟨text, count, hmore, hcount, hreads⟩ := ih (position + run.length) hrest
      refine ⟨_, _, b.dotRuns_cons hdots hmore, fun hsome => ?_, fun hbracket => ?_⟩
      · -- some run is dotted, this one or a later one
        cases dotted with
        | true => exact (hthree rfl).2
        | false =>
            refine hcount fun hzero => hsome ?_
            rw [hzero]
            cases run <;> rfl
      · obtain ⟨ts, hts, hdotted⟩ := runText_spec hlength hbracket hrun fun h => (hthree h).1
        obtain ⟨us, hus, hdotted'⟩ := hreads hbracket
        exact ⟨ts ++ us, hts.append hdotted.isField_eq_false hus, hdotted.append hdotted'⟩

/-- The dots of a beat whose meter can be read and whose rows have their texts: if there are any,
its text is heard like its rows. -/
theorem dotted_spec (b : PlacedBeat) {value : Int} (hvalue : meterValue b.meter = .ok value)
    (hlength : 0 < b.length) (htuned : ∀ p ∈ b.members, p.1.Tuned)
    (hnote : ∀ p ∈ b.members, p.1.noteText = some (b.token p)) :
    ∃ text count, b.dotted = .ok (text, count)
      ∧ (count ≠ 0 → ∃ ts, Reads text ts ∧ Dotted b.length (b.members.map (·.1)) ts
        ∧ ∀ p : Pulse, p.Idle →
          Alike (hear p ts) (hear p b.script) ∧ p.after ts = p.after b.script) := by
  have hflat : b.runs.flatten = b.members.map (·.1) := List.flatten_splitBy _ _
  have hmem : ∀ run ∈ b.runs, ∀ r ∈ run, ∃ p ∈ b.members, p.1 = r := by
    intro run hrun r hr
    have hr : r ∈ b.runs.flatten := List.mem_flatten.2 ⟨run, hrun, hr⟩
    rw [hflat] at hr
    exact List.mem_map.1 hr
  have hruns : ∀ run ∈ b.runs, b.Run run := by
    intro run hrun
    refine ⟨fun r hr => ?_, fun hbracket r hr => ?_, List.isChain_of_mem_splitBy hrun⟩
    · obtain ⟨p, hp, rfl⟩ := hmem run hrun r hr
      exact htuned p hp
    · obtain ⟨p, hp, rfl⟩ := hmem run hrun r hr
      rw [hnote p hp, BeatGroup.token, BeatGroup.opening, hbracket, if_neg Bool.false_ne_true,
        ite_self]
  obtain ⟨text, count, hdotted, hbracket, hreads⟩ := b.dotRuns_spec hvalue hlength 0 hruns
  refine ⟨text, count, hdotted, fun hcount => ?_⟩
  obtain ⟨ts, hts, hdots⟩ := hreads (hbracket hcount)
  rw [hflat] at hdots
  have hscript : (b.members.map (·.1)).flatMap (fun r => r.script b.length []) = b.script := by
    rw [List.flatMap_map, BeatGroup.script, BeatGroup.bracket, hbracket hcount]
    rfl
  refine ⟨ts, hts, hdots, fun p hp => ?_⟩
  rw [← hscript]
  refine hdots.alike (fun r hr => ?_) hp
  obtain ⟨q, hq, rfl⟩ := List.mem_map.1 hr
  exact htuned q hq

end PlacedBeat

end LyricScore
