/-
Folding ties. Inside a beat three tied notes may become a dotted one; across beats a whole-beat
note and the whole-beat holds behind it may become one longer note, and the holds are then not
written. A listener who takes a tied note as part of the note before it hears the same tune.

# Pending time

The proof goes through the phrases of the table from the front. Behind a longer note the two texts
differ in time: the folded one has already passed the time of the holds that the other one is
still to play. As long as holds are owed, no directive and no barline comes, since they are in the
measure of the note.
-/
import Mathlib.Data.List.Nodup
import LyricScore.Proofs.Pipeline.Stages
import LyricScore.Proofs.Tune.Dots
import LyricScore.Proofs.Tune.Reading

namespace LyricScore

open Text

-- ============================================================= texts

theorem textAt?_append (texts more : List (Nat × String)) (place : Nat) :
    Table.textAt? (texts ++ more) place
      = (Table.textAt? more place).or (Table.textAt? texts place) := by
  unfold Table.textAt?
  rw [List.filter_append, List.getLast?_append]
  cases (more.filter fun e => e.1 == place).getLast? <;> rfl

theorem mem_of_textAt? {texts : List (Nat × String)} {place : Nat} {text : String}
    (h : Table.textAt? texts place = some text) : (place, text) ∈ texts := by
  obtain ⟨e, he, rfl⟩ := Option.map_eq_some_iff.1 h
  obtain ⟨hmem, hplace⟩ := List.mem_filter.1 (List.mem_of_getLast? he)
  obtain rfl := beq_iff_eq.1 hplace
  exact hmem

theorem textAt?_eq_none {texts : List (Nat × String)} {place : Nat}
    (h : ∀ e ∈ texts, e.1 ≠ place) : Table.textAt? texts place = none := by
  cases hget : Table.textAt? texts place with
  | none => rfl
  | some text => exact absurd rfl (h _ (mem_of_textAt? hget))

/-- A place for which only one text is set has that text. -/
theorem textAt?_eq_some {texts : List (Nat × String)} {place : Nat} {text : String}
    (hmem : (place, text) ∈ texts) (h : ∀ e ∈ texts, e.1 = place → e.2 = text) :
    Table.textAt? texts place = some text := by
  have hne : texts.filter (fun e => e.1 == place) ≠ [] :=
    List.ne_nil_of_mem (List.mem_filter.2 ⟨hmem, beq_self_eq_true place⟩)
  have hin := List.mem_filter.1 (List.getLast_mem hne)
  unfold Table.textAt?
  rw [List.getLast?_eq_some_getLast hne]
  exact congrArg some (h _ hin.1 (beq_iff_eq.1 hin.2))

-- ============================================================ merges

namespace Merge

/-- What a merge at a beat takes: the note of the beat and the first of the holds behind it. -/
structure Takes (b : PlacedBeat) (rest : List PlacedBeat) (m : Merge) : Prop where
  head : m.head = b
  isHead : isHead b = true
  followers : m.followers = rest.take m.followers.length
  follows : ∀ f ∈ m.followers, follows b f = true
  total : m.total = b.length + sumTimes (m.followers.map (·.length))
  allowed : m.total ∈ lengths

theorem Takes.total_pos {b : PlacedBeat} {rest : List PlacedBeat} {m : Merge} (h : Takes b rest m) :
    0 < m.total := by
  have hall : ∀ q ∈ lengths, 0 < q := by decide
  exact hall m.total h.allowed

theorem longest?_spec {b : PlacedBeat} {holds : List PlacedBeat} {size : Nat} {m : Merge}
    (h : longest? b holds size = some m) :
    ∃ size, m = ofSize b holds size ∧ m.total ∈ lengths := by
  induction size with
  | zero => cases h
  | succ size ih =>
      simp only [longest?] at h
      split at h
      · next hallowed =>
        obtain rfl := Option.some.inj h
        simp only [Merge.allowed, Bool.and_eq_true, List.contains_iff_mem] at hallowed
        exact ⟨size + 1, rfl, hallowed.1⟩
      · exact ih h

theorem at?_eq_some {b : PlacedBeat} {rest : List PlacedBeat} {m : Merge} (h : at? b rest = some m) :
    Takes b rest m := by
  simp only [at?] at h
  split at h
  · next hhead =>
    obtain ⟨size, rfl, hallowed⟩ := longest?_spec h
    have hmem : ∀ f ∈ (rest.takeWhile (Merge.follows b)).take size, Merge.follows b f = true :=
      fun f hf => List.all_eq_true.1 List.all_takeWhile f (List.mem_of_mem_take hf)
    have hprefix : (rest.takeWhile (Merge.follows b)).take size <+: rest :=
      (List.take_prefix _ _).trans (List.takeWhile_prefix _)
    exact ⟨rfl, hhead, List.prefix_iff_eq_take.1 hprefix, hmem, rfl, hallowed⟩
  · cases h

/-- Every merge comes from a beat and what follows it. -/
theorem exists_of_mem_scan {skip : Nat} {bs : List PlacedBeat} {m : Merge} (h : m ∈ scan skip bs) :
    ∃ b rest, (b :: rest).Sublist bs ∧ Takes b rest m := by
  induction bs generalizing skip with
  | nil => cases h
  | cons b rest ih =>
      have hlater : ∀ {skip}, m ∈ scan skip rest →
          ∃ b' rest', (b' :: rest').Sublist (b :: rest) ∧ Takes b' rest' m := by
        intro skip hm
        obtain ⟨b', rest', hsub, htakes⟩ := ih hm
        exact ⟨b', rest', hsub.cons b, htakes⟩
      simp only [scan] at h
      split at h
      · exact hlater h
      · split at h
        · next m' hat =>
          rcases List.mem_cons.1 h with rfl | h
          · exact ⟨b, rest, List.Sublist.refl _, at?_eq_some hat⟩
          · exact hlater h
        · exact hlater h

theorem Takes.length_le {b : PlacedBeat} {rest : List PlacedBeat} {m : Merge} (h : Takes b rest m) :
    m.followers.length ≤ rest.length := by
  have hlength := congrArg List.length h.followers
  rw [List.length_take] at hlength
  omega

/-- The places for which a merge sets texts are those of its beats. -/
theorem Takes.mem_texts {b : PlacedBeat} {rest : List PlacedBeat} {m : Merge} (h : Takes b rest m)
    {e : Nat × String} (he : e ∈ m.texts) :
    (e = (b.first.2, b.first.1.encode m.total "")) ∨
      ∃ f ∈ rest.take m.followers.length, e = (f.first.2, "") := by
  rcases List.mem_cons.1 he with rfl | he
  · rw [h.head]
    exact Or.inl rfl
  · obtain ⟨f, hf, rfl⟩ := List.mem_map.1 he
    rw [h.followers] at hf
    exact Or.inr ⟨f, hf, rfl⟩

/-- The texts of a merge: the longer note for its first beat, nothing for the holds that it takes,
and none for what comes later. -/
theorem Takes.textAt? {b : PlacedBeat} {rest : List PlacedBeat} {m : Merge} (h : Takes b rest m)
    (hplaces : ((b :: rest).map fun b => b.first.2).Nodup) :
    Table.textAt? m.texts b.first.2 = some (b.first.1.encode m.total "")
      ∧ (∀ f ∈ rest.take m.followers.length, Table.textAt? m.texts f.first.2 = some "")
      ∧ ∀ f ∈ rest.drop m.followers.length, Table.textAt? m.texts f.first.2 = none := by
  obtain ⟨hb, hrest⟩ := List.nodup_cons.1 hplaces
  have hother : ∀ f ∈ rest, f.first.2 ≠ b.first.2 := fun f hf heq =>
    hb (List.mem_map.2 ⟨f, hf, heq⟩)
  refine ⟨textAt?_eq_some ?_ fun e he heq => ?_, fun f hf => textAt?_eq_some ?_ fun e he heq => ?_,
    fun f hf => textAt?_eq_none fun e he heq => ?_⟩
  · rw [← h.head]
    exact List.mem_cons_self
  · rcases h.mem_texts he with rfl | ⟨f, hf, rfl⟩
    · rfl
    · exact absurd heq (hother f (List.mem_of_mem_take hf))
  · rw [← h.followers] at hf
    exact List.mem_cons_of_mem _ (List.mem_map_of_mem hf)
  · rcases h.mem_texts he with rfl | ⟨f', hf', rfl⟩
    · exact absurd heq.symm (hother f (List.mem_of_mem_take hf))
    · rfl
  · rcases h.mem_texts he with rfl | ⟨f', hf', rfl⟩
    · exact hother f (List.mem_of_mem_drop hf) heq.symm
    · rw [← List.take_append_drop m.followers.length rest, List.map_append, List.nodup_append]
        at hrest
      exact hrest.2.2 _ (List.mem_map_of_mem hf') _ (List.mem_map_of_mem hf) heq

theorem mem_texts_scan {skip : Nat} {bs : List PlacedBeat} {e : Nat × String}
    (h : e ∈ (scan skip bs).flatMap texts) : ∃ b ∈ bs, b.first.2 = e.1 := by
  obtain ⟨m, hm, he⟩ := List.mem_flatMap.1 h
  obtain ⟨b, rest, hsub, htakes⟩ := exists_of_mem_scan hm
  rcases htakes.mem_texts he with rfl | ⟨f, hf, rfl⟩
  · exact ⟨b, hsub.subset List.mem_cons_self, rfl⟩
  · exact ⟨f, hsub.subset (List.mem_cons_of_mem _ (List.mem_of_mem_take hf)), rfl⟩

end Merge

/-- A text that is set for a beat which no merge takes: none, or its dotted text. -/
def PlacedBeat.Plain (b : PlacedBeat) (text : Option String) : Prop :=
  text = none ∨ ∃ dotted count, b.dotted = .ok (dotted, count) ∧ count ≠ 0 ∧ text = some dotted

/-- The texts that folding sets for beats. The first `skip` of them are part of an earlier note. -/
def Folded (final : Nat → Option String) : Nat → List PlacedBeat → Prop
  | _, [] => True
  | skip + 1, b :: rest => final b.first.2 = some "" ∧ Folded final skip rest
  | 0, b :: rest =>
    match Merge.at? b rest with
    | some m => final b.first.2 = some (b.first.1.encode m.total "")
      ∧ Folded final m.followers.length rest
    | none => b.Plain (final b.first.2) ∧ Folded final 0 rest

/-- What folding makes of a beat: it is left alone or dotted, or becomes a longer note, or part of
one. -/
inductive FoldedInto (final : Nat → Option String) (bs : List PlacedBeat) (b : PlacedBeat) : Prop where
  | plain (hplain : b.Plain (final b.first.2))
  | longer {rest : List PlacedBeat} {m : Merge} (htakes : Merge.Takes b rest m)
      (hfinal : final b.first.2 = some (b.first.1.encode m.total ""))
  | part {head : PlacedBeat} {rest : List PlacedBeat} {m : Merge} (hhead : head ∈ bs)
      (htakes : Merge.Takes head rest m)
      (hlonger : final head.first.2 = some (head.first.1.encode m.total "")) (hmem : b ∈ m.followers)
      (hfinal : final b.first.2 = some "")

theorem Folded.into {final : Nat → Option String} {bs all : List PlacedBeat} {skip : Nat}
    (h : Folded final skip bs) (hsub : bs ⊆ all)
    (hpart : ∀ b ∈ bs.take skip, final b.first.2 = some "" → FoldedInto final all b) :
    ∀ b ∈ bs, FoldedInto final all b := by
  induction bs generalizing skip with
  | nil => exact fun b hb => absurd hb List.not_mem_nil
  | cons b bs ih =>
      obtain ⟨hb, hbs⟩ := List.cons_subset.1 hsub
      cases skip with
      | succ skip =>
          obtain ⟨hfirst, hpart⟩ := List.forall_mem_cons.1 hpart
          exact List.forall_mem_cons.2 ⟨hfirst h.1, ih h.2 hbs hpart⟩
      | zero =>
          unfold Folded at h
          split at h
          · next m hat =>
            have htakes := Merge.at?_eq_some hat
            refine List.forall_mem_cons.2 ⟨.longer htakes h.1, ih h.2 hbs fun f hf hfinal => ?_⟩
            rw [← htakes.followers] at hf
            exact .part hb htakes h.1 hf hfinal
          · refine List.forall_mem_cons.2 ⟨.plain h.1, ih h.2 hbs fun f hf => ?_⟩
            exact absurd hf List.not_mem_nil

/-- The merges are set over earlier texts. -/
theorem folded_scan {bs : List PlacedBeat} {skip : Nat} {earlier : List (Nat × String)}
    (hplaces : (bs.map fun b => b.first.2).Nodup)
    (hskipped : ∀ b ∈ bs.take skip, Table.textAt? earlier b.first.2 = some "")
    (hplain : ∀ b ∈ bs.drop skip, b.Plain (Table.textAt? earlier b.first.2)) :
    Folded (Table.textAt? (earlier ++ (Merge.scan skip bs).flatMap Merge.texts)) skip bs := by
  induction bs generalizing skip earlier with
  | nil => trivial
  | cons b rest ih =>
      obtain ⟨hb, hrest⟩ := List.nodup_cons.1 hplaces
      -- what is set for later beats leaves this one as it is
      have hkept : ∀ earlier skip,
          Table.textAt? (earlier ++ (Merge.scan skip rest).flatMap Merge.texts) b.first.2
            = Table.textAt? earlier b.first.2 := by
        intro earlier skip
        rw [textAt?_append, textAt?_eq_none, Option.none_or]
        intro e he heq
        obtain ⟨f, hf, hplace⟩ := Merge.mem_texts_scan he
        exact hb (List.mem_map.2 ⟨f, hf, hplace.trans heq⟩)
      cases skip with
      | succ skip =>
          refine ⟨?_, ih hrest (fun f hf => hskipped f (List.mem_cons_of_mem _ hf)) hplain⟩
          exact (hkept earlier skip).trans (hskipped b List.mem_cons_self)
      | zero =>
          obtain ⟨hplainb, hplainrest⟩ := List.forall_mem_cons.1 hplain
          unfold Folded
          simp only [Merge.scan]
          cases hat : Merge.at? b rest with
          | none =>
              refine ⟨?_, ih hrest (fun f hf => absurd hf List.not_mem_nil) hplainrest⟩
              rw [hkept]
              exact hplainb
          | some m =>
              obtain ⟨hhead, hfollowers, hlater⟩ := (Merge.at?_eq_some hat).textAt? hplaces
              simp only [List.flatMap_cons, ← List.append_assoc]
              refine ⟨?_, ih hrest (fun f hf => ?_) fun f hf => ?_⟩
              · rw [hkept, textAt?_append, hhead, Option.some_or]
              · rw [textAt?_append, hfollowers f hf, Option.some_or]
              · rw [textAt?_append, hlater f hf, Option.none_or]
                exact hplainrest f (List.mem_of_mem_drop hf)

-- ============================================================ pulses

/-- Outside a tuplet a written length counts in full. -/
theorem Pulse.Idle.lasting_eq {p : Pulse} (h : p.Idle) (length : Rat) :
    p.lasting length = length * p.unit * 4 := by
  unfold Pulse.lasting
  rw [h.1, List.headD_nil, Rat.mul_one]

/-- Fields and barlines leave no tuplet open and no tie written. -/
theorem idle_after_of_quiet {ts : List Token} (h : ∀ t ∈ ts, t = .bar ∨ ∃ name value, t = .field name value)
    {p : Pulse} (hp : p.Idle) : (p.after ts).Idle := by
  induction ts generalizing p with
  | nil => exact hp
  | cons t ts ih =>
      obtain ⟨ht, hts⟩ := List.forall_mem_cons.1 h
      refine ih hts ?_
      rcases ht with rfl | ⟨name, value, rfl⟩
      · exact hp
      · show (if name = 'L' then _ else p : Pulse).Idle
        split <;> exact hp

theorem quiet_keyFields (r : Row) : ∀ t ∈ r.keyFields, t = .bar ∨ ∃ name value, t = .field name value := by
  unfold Row.keyFields
  split
  · intro t ht
    obtain rfl := List.mem_singleton.1 ht
    exact Or.inr ⟨_, _, rfl⟩
  · exact fun t ht => absurd ht List.not_mem_nil

theorem quiet_changes (previous : Option Row) (r : Row) :
    ∀ t ∈ r.changes previous, t = .bar ∨ ∃ name value, t = .field name value := by
  unfold Row.changes
  split
  · exact fun t ht => absurd ht List.not_mem_nil
  · intro t ht
    right
    rcases List.mem_append.1 ht with ht | ht
    all_goals
      split at ht
      · cases ht
      · exact ⟨_, _, List.mem_singleton.1 ht⟩

-- =========================================================== phrases

/-- The folded text of some phrases is heard like the one that is not folded. -/
def Agrees (final : Nat → Option String) (ss : List (Stretch BeatKey PlacedRow)) (p : Pulse) : Prop :=
  Alike (hear p (ss.flatMap (Stretch.script final)))
    (hear p (ss.flatMap (Stretch.script fun _ => none)))

/-- The same behind a note that has taken the time of holds which are still to come in the text that
is not folded. -/
def AgreesOwing (final : Nat → Option String) (ss : List (Stretch BeatKey PlacedRow)) (p : Pulse)
    (owed : Rat) : Prop :=
  ∀ start length tied accidental letter octave,
    Alike
      (⟨start, length + owed * p.unit * 4, .note tied accidental letter octave⟩
        :: hear { p with time := p.time + owed * p.unit * 4 } (ss.flatMap (Stretch.script final)))
      (⟨start, length, .note tied accidental letter octave⟩
        :: hear p (ss.flatMap (Stretch.script fun _ => none)))

namespace Agrees

variable {final : Nat → Option String} {ss : List (Stretch BeatKey PlacedRow)}
  {s : Stretch BeatKey PlacedRow} {p : Pulse} {lead ts us : List Token}

theorem owing_zero (h : Agrees final ss p) : AgreesOwing final ss p 0 := by
  intro start length tied accidental letter octave
  rw [Rat.zero_mul, Rat.zero_mul, Rat.add_zero, Rat.add_zero]
  exact h.cons _

/-- A phrase with the same text both times. -/
theorem same (hfolded : s.script final = ts) (hplain : s.script (fun _ => none) = ts)
    (h : Agrees final ss (p.after ts)) : Agrees final (s :: ss) p := by
  unfold Agrees
  rw [List.flatMap_cons, List.flatMap_cons, hfolded, hplain, hear_append, hear_append]
  exact Alike.append_left _ h

/-- A phrase whose two texts are heard alike. -/
theorem phrase (hfolded : s.script final = lead ++ ts)
    (hplain : s.script (fun _ => none) = lead ++ us)
    (halike : Alike (hear (p.after lead) ts) (hear (p.after lead) us))
    (hafter : (p.after lead).after ts = (p.after lead).after us)
    (h : Agrees final ss ((p.after lead).after us)) : Agrees final (s :: ss) p := by
  unfold Agrees
  rw [List.flatMap_cons, List.flatMap_cons, hfolded, hplain]
  simp only [List.append_assoc, hear_append]
  rw [hafter]
  exact Alike.append_left _ (halike.append h)

/-- A phrase whose note has become longer by what is then owed. -/
theorem longer {r : Row} {length owed : Rat} (hfolded : s.script final = lead ++ r.script (length + owed) [])
    (hplain : s.script (fun _ => none) = lead ++ r.script length []) (hsings : r.pitch?.isSome = true)
    (hidle : (p.after lead).Idle)
    (h : AgreesOwing final ss ((p.after lead).pass length) owed) : Agrees final (s :: ss) p := by
  obtain ⟨hhear, hafter⟩ := hear_script r length hidle.2
  obtain ⟨hhear', hafter'⟩ := hear_script r (length + owed) hidle.2
  obtain ⟨⟨letter, octave⟩, hpitch⟩ := Option.isSome_iff_exists.1 hsings
  have hsound : r.sound = .note r.isHold r.writtenAccidental letter octave := by
    unfold Row.sound
    rw [hpitch]
  have hlonger : (p.after lead).lasting (length + owed)
      = (p.after lead).lasting length + owed * (p.after lead).unit * 4 := by
    rw [hidle.lasting_eq, hidle.lasting_eq]
    grind
  have hpass : (p.after lead).pass (length + owed) = { (p.after lead).pass length with
      time := ((p.after lead).pass length).time + owed * ((p.after lead).pass length).unit * 4 } := by
    simp only [Pulse.pass, hlonger, Rat.add_assoc]
  unfold Agrees
  rw [List.flatMap_cons, List.flatMap_cons, hfolded, hplain]
  simp only [List.append_assoc, hear_append]
  rw [hhear, hhear', hafter, hafter', hsound, hlonger, hpass]
  exact Alike.append_left _ (h _ _ _ _ _ _)

end Agrees

/-- A hold that is owed. -/
theorem AgreesOwing.hold {final : Nat → Option String} {ss : List (Stretch BeatKey PlacedRow)}
    {s : Stretch BeatKey PlacedRow} {p : Pulse} {r : Row} {length owed : Rat} {accidental : Accidental}
    {letter : Letter} {octave : Int} (hfolded : s.script final = [])
    (hplain : s.script (fun _ => none) = r.script length []) (hidle : p.Idle)
    (hsound : r.sound = .note true accidental letter octave)
    (h : AgreesOwing final ss (p.pass length) owed) : AgreesOwing final (s :: ss) p (length + owed) := by
  intro start length' tied accidental' letter' octave'
  obtain ⟨hhear, hafter⟩ := hear_script r length hidle.2
  have hlasting := hidle.lasting_eq length
  have hrest := h start (length' + p.lasting length) tied accidental' letter' octave'
  have hlonger : length' + (length + owed) * p.unit * 4
      = length' + p.lasting length + owed * (p.pass length).unit * 4 := by
    show _ = _ + _ + owed * p.unit * 4
    grind
  have hlater : ({ p with time := p.time + (length + owed) * p.unit * 4 } : Pulse)
      = { p.pass length with
        time := (p.pass length).time + owed * (p.pass length).unit * 4 } := by
    obtain ⟨unit, time, factors, tied⟩ := p
    obtain ⟨rfl, rfl⟩ := hidle
    simp only [Pulse.pass, hlasting, Pulse.mk.injEq, List.tail_nil, true_and, and_true]
    grind
  rw [List.flatMap_cons, List.flatMap_cons, hfolded, hplain, List.nil_append, hear_append, hhear,
    hafter, hsound, hlonger, hlater]
  exact hrest.trans (Alike.tied.append_right _)

-- ============================================================ tables

theorem Table.nodup_places (t : Table) :
    (t.placedBeats.map fun b => b.first.2).Nodup := by
  have hmap : (t.placedBeats.map fun b => b.first.2) = t.beats.map fun g => g.first.2 := by
    rw [← map_toBeatGroup_placedBeats t, List.map_map]
    rfl
  rw [hmap]
  refine List.pairwise_map.2 ((List.pairwise_map.1 t.nodup_keys).imp_of_mem ?_)
  intro g g' hg hg' hne heq
  obtain ⟨hfirst, hkey⟩ := Table.mem_beat hg List.mem_cons_self
  obtain ⟨hfirst', hkey'⟩ := Table.mem_beat hg' List.mem_cons_self
  rw [show g.first = (g.first.1, g'.first.2) from Prod.ext rfl heq] at hfirst
  rw [eq_of_mem_zipIdx hfirst hfirst', hkey'] at hkey
  exact hne (Option.some.inj hkey).symm

namespace Table.Scored

variable {heading : Rat} {key : String} {t : Table}

/-- The dots of a beat can be told, and they are heard like its rows. -/
theorem dotted_spec (h : t.Scored heading key) {b : PlacedBeat} (hb : b.toBeatGroup ∈ t.beats) :
    ∃ text count, b.dotted = .ok (text, count)
      ∧ (count ≠ 0 → ∃ ts, Reads text ts ∧ Dotted b.length (b.members.map (·.1)) ts
        ∧ ∀ p : Pulse, p.Idle →
          Alike (hear p ts) (hear p b.script) ∧ p.after ts = p.after b.script) := by
  obtain ⟨hmem, hrhythm⟩ := Table.isRhythm_of_mem_beat hb List.mem_cons_self
  obtain ⟨beats, denominator, hmeter⟩ :=
    h.led.forall_mem (P := fun r => ∃ beats denominator, r.meter = some (meterText beats denominator))
      (fun _ _ hled => hled.meter) _ hmem hrhythm
  obtain ⟨value, hvalue⟩ := meterValue_meterText beats denominator
  rw [← effectiveMeter_of_meterText hmeter] at hvalue
  exact b.dotted_spec hvalue (h.length_pos hb) (fun p hp => h.tuned_of_mem hb hp)
    (h.noted _ hb).note

/-- What folding sets. -/
theorem folding_spec (h : t.Scored heading key) :
    ∃ f, t.folding = .ok f ∧ t.Settable (Table.textAt? f.texts)
      ∧ Folded (Table.textAt? f.texts) 0 t.placedBeats := by
  have hbeat : ∀ b ∈ t.placedBeats, b.toBeatGroup ∈ t.beats := fun b hb => by
    rw [← map_toBeatGroup_placedBeats t]
    exact List.mem_map_of_mem hb
  obtain ⟨beats, hbeats⟩ : ∃ beats, t.dottedBeats = .ok beats := by
    refine exists_mapM_eq_ok.2 fun b hb => ?_
    obtain ⟨text, count, hdotted, -⟩ := h.dotted_spec (hbeat b hb)
    exact ⟨(b, text, count), by rw [hdotted]; rfl⟩
  have hentry : ∀ e ∈ beats, e.1 ∈ t.placedBeats ∧ e.1.dotted = .ok e.2 := by
    intro e he
    obtain ⟨b, hb, hmap⟩ := exists_of_mapM_eq_ok hbeats he
    obtain ⟨d, hd, rfl⟩ := map_eq_ok.1 hmap
    exact ⟨hb, hd⟩
  refine ⟨_, by unfold Table.folding; rw [hbeats]; rfl, ?_, ?_⟩
  · intro place text hfinal
    rcases List.mem_append.1 (mem_of_textAt? hfinal) with hdot | hmerge
    · obtain ⟨e, he, heq⟩ := List.mem_map.1 hdot
      obtain ⟨he, hcount⟩ := List.mem_filter.1 he
      obtain ⟨hmem, hdotted⟩ := hentry e he
      obtain ⟨rfl, rfl⟩ := Prod.mk.inj heq
      obtain ⟨text, count, hspec, hreads⟩ := h.dotted_spec (hbeat _ hmem)
      rw [hdotted] at hspec
      obtain hsame := Except.ok.inj hspec
      rw [hsame] at hcount ⊢
      obtain ⟨ts, hts, -⟩ := hreads (by simpa using hcount)
      exact ⟨⟨_, hbeat _ hmem, rfl⟩, ts, hts⟩
    · obtain ⟨m, hm, he⟩ := List.mem_flatMap.1 hmerge
      obtain ⟨b, rest, hsub, htakes⟩ := Merge.exists_of_mem_scan hm
      rcases htakes.mem_texts he with heq | ⟨f, hf, heq⟩
      · obtain ⟨rfl, rfl⟩ := Prod.mk.inj heq
        have hmem := hbeat b (hsub.subset List.mem_cons_self)
        exact ⟨⟨_, hmem, rfl⟩, _,
          (h.tuned_of_mem hmem List.mem_cons_self).reads_encode htakes.total_pos Reads.empty nofun⟩
      · obtain ⟨rfl, rfl⟩ := Prod.mk.inj heq
        have hmem := hbeat f (hsub.subset (List.mem_cons_of_mem _ (List.mem_of_mem_take hf)))
        exact ⟨⟨_, hmem, rfl⟩, [], Reads.empty⟩
  · refine folded_scan t.nodup_places (fun b hb => absurd hb List.not_mem_nil) fun b hb => ?_
    generalize hE : Table.textAt? (List.map _ _) b.first.2 = set
    cases set with
    | none => exact Or.inl rfl
    | some text =>
        obtain ⟨e, he, heq⟩ := List.mem_map.1 (mem_of_textAt? hE)
        obtain ⟨he, hcount⟩ := List.mem_filter.1 he
        obtain ⟨hmem, hdotted⟩ := hentry e he
        obtain ⟨hplace, rfl⟩ := Prod.mk.inj heq
        rw [List.inj_on_of_nodup_map t.nodup_places hmem hb hplace] at hdotted
        exact Or.inr ⟨e.2.1, e.2.2, hdotted, by simpa using hcount, rfl⟩

/-- Nothing is announced before a beat in the measure of the row before it. -/
theorem lexed_directive_within {previous r : Row} (h : r.Led previous)
    (hmeasure : previous.measureKey? = r.measureKey?) : lexed r.directive = [] := by
  rw [h.directive.lexed_eq, h.within previous rfl hmeasure]

theorem script_group (h : t.Scored heading key) {k : BeatKey} {first : PlacedRow}
    {others : List PlacedRow} (hs : .group k first others ∈ t.phrases) :
    (Stretch.group k first others).script (fun _ => none)
      = lexed first.1.directive ++ (⟨k, first, others⟩ : BeatGroup).script := by
  have hbeat := h.beat_of_phrase hs
  show lexed _ ++ lexed (first.1.draftText.getD "") = _
  rw [show first.1.draftText = _ from (h.noted _ hbeat).first]
  exact congrArg (lexed _ ++ ·) (h.reads_fragment hbeat).lexed_eq

/-- A barline is written the same way whatever is set. -/
theorem script_single (h : t.Scored heading key) {final : Nat → Option String}
    (hset : t.Settable final) {p : PlacedRow} (hp : p ∈ t.zipIdx)
    (hbar : Keys.isLyricBarline p.1 = true) :
    (Stretch.single p : Stretch BeatKey PlacedRow).script final = .bar :: p.1.keyFields := by
  have hbarred := h.barred p.1 (List.fst_mem_of_mem_zipIdx hp) hbar
  have hnone : final p.2 = none := by
    refine hset.final_eq_none hp ?_
    rintro g hg rfl
    have hrhythm := (Table.isRhythm_of_mem_beat hg List.mem_cons_self).2
    rw [isLyricBarline_of_isRhythm hrhythm] at hbar
    cases hbar
  show lexed p.1.directive ++ lexed ((final p.2).getD (p.1.draftText.getD "")) = _
  rw [hbarred.directive, hnone, Reads.empty.lexed_eq]
  exact hbarred.draft.lexed_eq

end Table.Scored

/-- A beat of one row writes that row. -/
theorem BeatGroup.script_of_alone {g : BeatGroup} (h : g.others = []) :
    g.script = g.first.1.script g.length [] := by
  have hbracket : g.bracketed = false := by
    unfold BeatGroup.bracketed BeatGroup.count
    rw [h]
    rfl
  unfold BeatGroup.script BeatGroup.bracket
  rw [h, hbracket]
  exact List.append_nil _

/-- A whole hold in a measure, as a tied note. -/
structure PlacedBeat.Holds (k : MeasureKey) (b : PlacedBeat) : Prop where
  alone : b.others = []
  inMeasure : b.key.inMeasure = k
  sound : ∃ letter octave, b.first.1.sound = .note true .plain letter octave

theorem Merge.holds_of_follows {head b : PlacedBeat} (htuned : head.first.1.Tuned)
    (hhead : isHead head = true) (h : follows head b = true) : b.Holds head.key.inMeasure := by
  simp only [isHead, follows, Bool.and_eq_true, List.isEmpty_iff, decide_eq_true_eq] at hhead h
  obtain ⟨⟨⟨⟨halone, hmeasure⟩, -⟩, hhold⟩, hsame⟩ := h
  have htie : head.first.1.tiesTo b.first.1 = true := by
    rw [Row.tiesTo, hhead.1.2, hsame, hhold]
    rfl
  obtain ⟨letter, octave, -, hsound⟩ := htuned.sound_of_tiesTo htie
  exact ⟨halone, hmeasure, letter, octave, hsound⟩

/-- What a table writes before ties are folded. -/
def Table.draft (t : Table) : List Token :=
  t.phrases.flatMap (Stretch.script fun _ => none)

namespace Table.Scored

variable {heading : Rat} {key : String} {t : Table} {final : Nat → Option String}

theorem settable_none (t : Table) : t.Settable fun _ => none :=
  fun _ _ h => absurd h (Option.some_ne_none _).symm

/-- A barline in front of phrases that agree. -/
theorem agrees_single (h : t.Scored heading key) (hset : t.Settable final) {q : PlacedRow}
    {ss : List (Stretch BeatKey PlacedRow)} {p : Pulse} (hq : q ∈ t.zipIdx)
    (hbar : Keys.isLyricBarline q.1 = true)
    (hrest : Agrees final ss (p.after (.bar :: q.1.keyFields))) :
    Agrees final (.single q :: ss) p :=
  Agrees.same (h.script_single hset hq hbar) (h.script_single (settable_none t) hq hbar) hrest

/-- No barline stands between a row and a beat in its measure. -/
theorem not_single (h : t.Scored heading key) {R : Option Row → Row → Prop} {previous : Option Row}
    {c q : PlacedRow} {ss : List (Stretch BeatKey PlacedRow)} {g : BeatGroup}
    (hrest : t.Rest R previous (.single q :: ss))
    (hsub : (c :: (Stretch.single q :: ss).flatMap Stretch.members).Sublist t.spoken)
    (hg : g ∈ ss.filterMap Stretch.beat?) (hc : c.1.measureKey? = some g.key.inMeasure) : False := by
  obtain ⟨s, hs, hbeat⟩ := List.mem_filterMap.1 hg
  cases s with
  | single p => cases hbeat
  | group k first others =>
      obtain rfl := Option.some.inj hbeat
      have hfirst : first ∈ ss.flatMap Stretch.members :=
        List.mem_flatMap.2 ⟨_, hs, List.mem_cons_self⟩
      have hkey : first.1.beatKey? = some k :=
        hasKey_of_mem_stretches _ (hrest.phrases _ (List.mem_cons_of_mem _ hs)) first
          List.mem_cons_self
      obtain ⟨hrc, hbc, hmc⟩ := measureKey?_eq_some.1 hc
      obtain ⟨hrg, hbg, hmg⟩ := measureKey?_eq_some.1 (measureKey?_of_beatKey? hkey)
      have hthree : [c, q, first].Sublist t.spoken :=
        (((List.singleton_sublist.2 hfirst).cons_cons q).cons_cons c).trans hsub
      obtain ⟨hrhythm, -⟩ :=
        h.laid.measured.between hthree hrc hrg (hbc.trans hbg.symm) (hmc.trans hmg.symm)
      rw [(hrest.single h.laid).2.1] at hrhythm
      cases hrhythm

/-- A beat in front of phrases that agree, also where some of them are owed to it. -/
theorem agrees_group (h : t.Scored heading key) {k : BeatKey} {first : PlacedRow}
    {others : List PlacedRow} {start : Rat} {ss : List (Stretch BeatKey PlacedRow)}
    {previous : Option Row} {bs : List PlacedBeat} {p : Pulse}
    (hrest : t.Rest Row.Led previous (.group k first others :: ss)) (hp : p.Idle)
    (hfolded : Folded final 0 (⟨⟨k, first, others⟩, start⟩ :: bs))
    (hnext : ∀ p' : Pulse, p'.Idle → Folded final 0 bs → Agrees final ss p')
    (howing : ∀ (p' : Pulse) (m : Merge), p'.Idle → Merge.Takes ⟨⟨k, first, others⟩, start⟩ bs m →
      Folded final m.followers.length bs →
      AgreesOwing final ss p' (sumTimes (m.followers.map (·.length)))) :
    Agrees final (.group k first others :: ss) p := by
  have hs := hrest.phrases _ List.mem_cons_self
  have hbeat := h.beat_of_phrase hs
  have hplain := h.script_group hs
  have hread := hrest.group.2.1.directive.lexed_eq
  have hlead : (p.after (lexed first.1.directive)).Idle := by
    rw [hread]
    exact idle_after_of_quiet (List.forall_mem_append.2 ⟨quiet_keyFields _, quiet_changes _ _⟩) hp
  have hlater : ((p.after (lexed first.1.directive)).after
      (⟨k, first, others⟩ : BeatGroup).script).Idle := by
    rw [(BeatGroup.hear_script _ hlead).2]
    exact hlead
  have htext : ∀ {text ts}, final first.2 = some text → Reads text ts →
      (Stretch.group k first others).script final = lexed first.1.directive ++ ts := by
    intro text ts hfinal hts
    show lexed first.1.directive ++ lexed ((final first.2).getD _) = _
    rw [hfinal, Option.getD_some, hts.lexed_eq]
  unfold Folded at hfolded
  split at hfolded
  · next m hat =>
    -- a longer note
    obtain ⟨hfinal, hfolded⟩ := hfolded
    have htakes := Merge.at?_eq_some hat
    have htuned : first.1.Tuned := h.tuned_of_mem hbeat List.mem_cons_self
    have hhead := htakes.isHead
    simp only [Merge.isHead, Bool.and_eq_true, List.isEmpty_iff] at hhead
    have hsings : first.1.pitch?.isSome = true := by
      rcases htuned.silent_or_sings with ⟨-, -, hnone⟩ | ⟨letter, octave, -, hpitch, -⟩
      · rw [hhead.2] at hnone
        cases hnone
      · rw [hpitch]
        rfl
    rw [BeatGroup.script_of_alone hhead.1.1.1] at hplain
    have hscript := htext hfinal (htuned.reads_encode htakes.total_pos Reads.empty nofun)
    rw [htakes.total] at hscript
    exact Agrees.longer hscript hplain hsings hlead
      (howing _ m ⟨by rw [Pulse.pass, hlead.1]; rfl, rfl⟩ htakes hfolded)
  · next hat =>
    obtain ⟨hfinal | ⟨text, count, hdotted, hcount, hfinal⟩, hfolded⟩ := hfolded
    · -- the text as it was
      refine Agrees.same ?_ hplain (by rw [Pulse.after_append]; exact hnext _ hlater hfolded)
      rw [← hplain]
      show lexed _ ++ lexed ((final first.2).getD _) = _
      rw [hfinal]
      rfl
    · -- dots
      obtain ⟨text', count', hspec, hreads⟩ :=
        h.dotted_spec (b := ⟨⟨k, first, others⟩, start⟩) hbeat
      obtain ⟨rfl, rfl⟩ := Prod.mk.inj (Except.ok.inj (hdotted.symm.trans hspec))
      obtain ⟨ts, hts, -, halike⟩ := hreads hcount
      exact Agrees.phrase (htext hfinal hts) hplain (halike _ hlead).1 (halike _ hlead).2
        (hnext _ hlater hfolded)

/-- A hold that is owed, in front of phrases that agree. -/
theorem owing_group (h : t.Scored heading key) {k : BeatKey} {first : PlacedRow}
    {others : List PlacedRow} {start : Rat} {ss : List (Stretch BeatKey PlacedRow)} {c : PlacedRow}
    {p : Pulse} {owed : Rat} (hrest : t.Rest Row.Led (some c.1) (.group k first others :: ss))
    (hp : p.Idle) (hc : c.1.measureKey? = some k.inMeasure) {measure : MeasureKey}
    (hholds : PlacedBeat.Holds measure ⟨⟨k, first, others⟩, start⟩) (hfinal : final first.2 = some "")
    (hnext : ∀ p' : Pulse, p'.Idle → AgreesOwing final ss p' owed) :
    AgreesOwing final (.group k first others :: ss) p
      ((⟨k, first, others⟩ : BeatGroup).length + owed) := by
  obtain ⟨hkeys, hled, -⟩ := hrest.group
  have hmeasure := measureKey?_of_beatKey? (hkeys first List.mem_cons_self)
  have hquiet := lexed_directive_within hled (hc.trans hmeasure.symm)
  obtain ⟨letter, octave, hsound⟩ := hholds.sound
  have hplain := h.script_group (hrest.phrases _ List.mem_cons_self)
  rw [hquiet, BeatGroup.script_of_alone hholds.alone] at hplain
  refine AgreesOwing.hold ?_ hplain hp hsound (hnext _ ⟨by rw [Pulse.pass, hp.1]; rfl, rfl⟩)
  show lexed first.1.directive ++ lexed ((final first.2).getD _) = []
  rw [hquiet, hfinal, Option.getD_some, Reads.empty.lexed_eq]
  rfl

/-- The folded text is heard like the one that is not folded, from any phrase on; behind a longer
note with the holds that it took still owed. -/
theorem agrees_rest (h : t.Scored heading key) (hset : t.Settable final)
    {ss : List (Stretch BeatKey PlacedRow)} {previous : Option Row} {bs : List PlacedBeat} {p : Pulse}
    (hrest : t.Rest Row.Led previous ss)
    (hbs : bs.map PlacedBeat.toBeatGroup = ss.filterMap Stretch.beat?) (hp : p.Idle) :
    (Folded final 0 bs → Agrees final ss p)
      ∧ ∀ (skip : Nat) (c : PlacedRow) (k : MeasureKey), previous = some c.1 →
        c.1.measureKey? = some k → (c :: ss.flatMap Stretch.members).Sublist t.spoken →
        skip ≤ bs.length → (∀ b ∈ bs.take skip, b.Holds k) → Folded final skip bs →
        AgreesOwing final ss p (sumTimes ((bs.take skip).map (·.length))) := by
  induction ss generalizing previous bs p with
  | nil =>
      obtain rfl := List.map_eq_nil_iff.1 hbs
      refine ⟨fun _ => Alike.refl _, fun skip c k _ _ _ _ _ _ => ?_⟩
      rw [List.take_nil]
      exact Agrees.owing_zero (Alike.refl _)
  | cons s ss ih =>
      have hagrees : Folded final 0 bs → Agrees final (s :: ss) p := by
        intro hfolded
        cases s with
        | single q =>
            obtain ⟨hq, -, hbar, hrest⟩ := hrest.single h.laid
            refine h.agrees_single hset hq hbar ((ih hrest hbs ?_).1 hfolded)
            exact idle_after_of_quiet (List.forall_mem_cons.2 ⟨Or.inl rfl, quiet_keyFields q.1⟩) hp
        | group k first others =>
            cases bs with
            | nil => cases hbs
            | cons b bs =>
                obtain ⟨hb, hmap⟩ := List.cons.inj hbs
                obtain ⟨g, start⟩ := b
                obtain rfl : g = ⟨k, first, others⟩ := hb
                obtain ⟨hkeys, -, -, c, hc, hmore, hsub⟩ := hrest.group
                refine h.agrees_group hrest hp hfolded (fun p' hp' => (ih hmore hmap hp').1)
                  fun p' m hp' htakes hfolded => ?_
                have htuned := h.tuned_of_mem
                  (h.beat_of_phrase (hrest.phrases _ List.mem_cons_self)) List.mem_cons_self
                have howing := (ih hmore hmap hp').2 m.followers.length c k.inMeasure rfl
                  (measureKey?_of_beatKey? (hkeys c hc)) hsub htakes.length_le (fun b hb => ?_) hfolded
                · rwa [← htakes.followers] at howing
                · rw [← htakes.followers] at hb
                  exact Merge.holds_of_follows htuned htakes.isHead (htakes.follows b hb)
      refine ⟨hagrees, fun skip c k hprevious hc hsub hskip hholds hfolded => ?_⟩
      cases skip with
      | zero => exact (hagrees hfolded).owing_zero
      | succ skip =>
          cases bs with
          | nil => cases hskip
          | cons b bs =>
              obtain ⟨hhold, hlater⟩ := List.forall_mem_cons.1 hholds
              obtain ⟨hfinal, hmorefolded⟩ := hfolded
              obtain rfl := hhold.inMeasure
              cases s with
              | single q =>
                  have hmap : (b :: bs).map PlacedBeat.toBeatGroup = ss.filterMap Stretch.beat? := hbs
                  have hb : b.toBeatGroup ∈ ss.filterMap Stretch.beat? := by
                    rw [← hmap]
                    exact List.mem_cons_self
                  exact (h.not_single hrest hsub hb hc).elim
              | group key first others =>
                  obtain ⟨hb, hmap⟩ := List.cons.inj hbs
                  obtain ⟨g, start⟩ := b
                  obtain rfl : g = ⟨key, first, others⟩ := hb
                  obtain rfl := hprevious
                  obtain ⟨hkeys, -, -, c', hc', hmore, hsub'⟩ := hrest.group
                  refine h.owing_group hrest hp hc hhold hfinal fun p' hp' => ?_
                  exact (ih hmore hmap hp').2 skip c' _ rfl (measureKey?_of_beatKey? (hkeys c' hc'))
                    hsub' (Nat.le_of_succ_le_succ hskip) hlater hmorefolded

/-- Whether ties are folded or not, some texts are set, and what is heard of the table is what is
heard of its drafts. -/
theorem withTies_spec (h : t.Scored heading key) (fold : Bool) :
    ∃ texts folding, t.withTies fold = .ok (t.withTexts texts, folding)
      ∧ t.Settable (Table.textAt? texts)
      ∧ (t.withTexts texts).heard? = some (fuse false (hear
        { unit := (Lexer.length (unitText heading).toList).1 } t.draft)) := by
  have hheard : ∀ {texts : List (Nat × String)}, t.Settable (Table.textAt? texts) →
      (t.withTexts texts).heard? = some (fuse false (hear
        { unit := (Lexer.length (unitText heading).toList).1 }
        (t.phrases.flatMap (Stretch.script (Table.textAt? texts))))) := by
    intro texts hset
    unfold Table.heard? Table.pulse
    rw [h.tokens?_withTexts hset, hset.field?_withTexts, h.unitField]
    rfl
  cases fold with
  | false => exact ⟨[], _, rfl, settable_none t, hheard (settable_none t)⟩
  | true =>
      obtain ⟨f, hf, hset, hfolded⟩ := h.folding_spec
      have hagrees := (h.agrees_rest hset (Rest.start h.led)
        (by rw [map_toBeatGroup_placedBeats, h.laid.beats_eq])
        (p := { unit := (Lexer.length (unitText heading).toList).1 }) ⟨rfl, rfl⟩).1 hfolded
      have hsame := hagrees.1 false []
      rw [List.append_nil, List.append_nil] at hsame
      exact ⟨f.texts, f, map_eq_ok.2 ⟨f, hf, rfl⟩, hset, (hheard hset).trans (congrArg some hsame)⟩

end Table.Scored

/-- Folding ties preserves what is heard. For every score with no beat shorter than one whose table
came through the notes, the table can be folded and left as it is, both can be read, and what is
heard of them with every tied note made part of the note before it is the same: the same notes and
rests at the same times, with barlines and fields in the same places. -/
theorem Score.heard_withTies {s : Score}
    (hs : ∀ b ∈ s.blocks, ∀ beat, LyricItem.beat beat ∈ b.lyrics → 1 ≤ beat.duration)
    {o : Options} {rows : Table} (h : s.noted o = .ok rows) :
    ∃ folded unfolded heard, rows.withTies true = .ok folded ∧ rows.withTies false = .ok unfolded
      ∧ folded.1.heard? = some heard ∧ unfolded.1.heard? = some heard := by
  obtain ⟨heading, key, hscored⟩ := Score.scored_of_noted hs h
  obtain ⟨texts, folding, hfold, -, hheard⟩ := hscored.withTies_spec true
  obtain ⟨texts', folding', hplain, -, hheard'⟩ := hscored.withTies_spec false
  exact ⟨_, _, _, hfold, hplain, hheard, hheard'⟩

/-- A whole-beat note with a hold behind it, and a beat with a note that is tied twice. -/
def heldSong : Score where
  title := ""
  blocks := [{
    lyrics := [.beat ⟨[.syllable "la"], 1⟩, .beat ⟨[.marker .hold], 1⟩, .barline,
      .beat ⟨[.syllable "do", .marker .tie, .marker .tie, .marker .attack], 1⟩]
    pitches := ⟨some (.key ⟨"#", 1⟩),
      [.pitch ⟨"f", .plain, ""⟩, .barline, .pitch ⟨"g", .sharp, ""⟩, .pitch ⟨"a", .plain, ""⟩]⟩
    counter := none }]

/-- The rows of the song, up to the notes. -/
def heldSongRows : {rows // heldSong.noted {} = .ok rows} :=
  finished (by decide +kernel)

theorem Score.heard_withTies_heldSong :
    (∀ b ∈ heldSong.blocks, ∀ beat, LyricItem.beat beat ∈ b.lyrics → 1 ≤ beat.duration)
      ∧ ∃ rows, heldSong.noted {} = .ok rows
        ∧ ∃ folded unfolded heard, rows.withTies true = .ok folded
          ∧ rows.withTies false = .ok unfolded
          ∧ folded.1.heard? = some heard ∧ unfolded.1.heard? = some heard := by
  have hs : ∀ b ∈ heldSong.blocks, ∀ beat, LyricItem.beat beat ∈ b.lyrics → 1 ≤ beat.duration := by
    simp [heldSong]
  obtain ⟨rows, hrows⟩ := heldSongRows
  exact ⟨hs, rows, hrows, Score.heard_withTies hs hrows⟩

end LyricScore
