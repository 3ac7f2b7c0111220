/-
Units and meters told by their changes. The heading names the unit and the meter of the first row
that takes time, and from then on a directive names what is new. So a reader who starts with the
heading, keeps a unit and a meter in mind and goes by the directives alone knows the unit and the
meter of every row, and is never told what is in force already (`Follows`). A key may be put in
front of a directive; it changes neither.

The walk goes from row to row: in mind is always the unit and the meter of the last row that took
time, and its successor announces exactly its differences from it (`Row.changes`).
-/
import LyricScore.Proofs.Pipeline.Stages

namespace LyricScore

-- ============================================================ readers

/-- The unit and the meter that a reader has in mind. -/
structure InForce where
  unit : String
  meter : String

namespace InForce

/-- What a field changes. A unit or a meter that is in force may not be named again. -/
def take? (s : InForce) : Token → Option InForce
  | .field name value =>
    if name = 'L' then
      if value = s.unit.toList then none else some { s with unit := String.ofList value }
    else if name = 'M' then
      if value = s.meter.toList then none else some { s with meter := String.ofList value }
    else some s
  | _ => none

/-- What a directive changes. -/
def read? (s : InForce) (directive : String) : Option InForce :=
  (tokens directive.toList).bind fun ts => ts.foldlM take? s

/-- Every row that takes time is in the unit and the meter that a reader has in mind behind its
directive. -/
def Follows (s : InForce) : List Row → Prop
  | [] => True
  | r :: rest =>
    if r.isRhythm then
      ∃ s', s.read? r.directive = some s' ∧ r.unit.map unitText = some s'.unit
        ∧ r.meter = some s'.meter ∧ s'.Follows rest
    else s.Follows rest

theorem foldlM_append (s : InForce) (ts ts' : List Token) :
    (ts ++ ts').foldlM take? s = (ts.foldlM take? s).bind fun s' => ts'.foldlM take? s' :=
  List.foldlM_append

/-- Keys change nothing. -/
theorem foldlM_keys {ks : List Token} (h : ∀ k ∈ ks, ∃ value, k = .field 'K' value) (s : InForce) :
    ks.foldlM take? s = some s := by
  induction ks with
  | nil => rfl
  | cons k ks ih =>
      obtain ⟨⟨value, rfl⟩, hks⟩ := List.forall_mem_cons.1 h
      exact ih hks

/-- A unit is named where it is new. -/
theorem foldlM_unit (s : InForce) (text : String) {P : Prop} [Decidable P] (h : P ↔ text = s.unit) :
    (if P then [] else [Token.field 'L' text.toList]).foldlM take? s
      = some { s with unit := text } := by
  by_cases hP : P
  · rw [if_pos hP, h.1 hP]
    rfl
  · have hne : ¬ text.toList = s.unit.toList := fun heq => hP (h.2 (String.ext heq))
    simp [if_neg hP, take?, hne]

/-- A meter is named where it is new. -/
theorem foldlM_meter (s : InForce) (text : String) {P : Prop} [Decidable P]
    (h : P ↔ text = s.meter) :
    (if P then [] else [Token.field 'M' text.toList]).foldlM take? s
      = some { s with meter := text } := by
  by_cases hP : P
  · rw [if_pos hP, h.1 hP]
    rfl
  · have hne : ¬ text.toList = s.meter.toList := fun heq => hP (h.2 (String.ext heq))
    simp [if_neg hP, take?, hne]

end InForce

-- ============================================================== rows

/-- What a reader has in mind behind a row. -/
def Row.inForce (r : Row) : InForce :=
  ⟨unitText r.effectiveUnit, r.effectiveMeter⟩

/-- Two units are written in the same way only if they are equal. -/
theorem unitText_inj {a b : Rat} (ha : 0 < a) (hb : 0 < b) (h : unitText a = unitText b) : a = b := by
  have hread : ∀ {q : Rat}, 0 < q → Lexer.length ((unitText q).toList ++ []) = (q, []) :=
    fun hq => Lexer.length_unitText hq nofun
  have heq := (hread ha).symm.trans (h ▸ hread hb)
  exact congrArg Prod.fst heq

/-- A row that takes time and announces its unit and its meter, behind keys if there are any. The
first row of all is in those of the heading. -/
structure Row.Announced (unit : Rat) (meter : String) (previous : Option Row) (r : Row) : Prop where
  inUnit : r.InUnit unit previous
  first : previous = none → r.meter = some meter
  meter : ∃ beats denominator, r.meter = some (meterText beats denominator)
  directive : ∃ ks, (∀ k ∈ ks, ∃ value, k = .field 'K' value)
    ∧ Reads r.directive (ks ++ r.changes previous)

namespace Row.Announced

variable {unit : Rat} {meter : String} {previous : Option Row} {r : Row}

theorem unit_eq (h : r.Announced unit meter previous) :
    r.unit = some r.effectiveUnit ∧ 0 < r.effectiveUnit ∧ (previous = none → r.effectiveUnit = unit) := by
  obtain ⟨own, hown, hpos, hfirst, -⟩ := h.inUnit
  rw [effectiveUnit_of_unit hown hpos]
  exact ⟨hown, hpos, hfirst⟩

theorem meter_eq (h : r.Announced unit meter previous) : r.meter = some r.effectiveMeter := by
  obtain ⟨beats, denominator, hmeter⟩ := h.meter
  rw [effectiveMeter_of_meterText hmeter]
  exact hmeter

/-- One step of the reader, from the row before to this one. -/
theorem read? (h : r.Announced unit meter previous)
    (hprevious : ∀ q ∈ previous, 0 < q.effectiveUnit) :
    (previous.elim ⟨unitText unit, meter⟩ Row.inForce : InForce).read? r.directive
      = some r.inForce := by
  obtain ⟨ks, hks, hreads⟩ := h.directive
  obtain ⟨-, hpos, hheading⟩ := h.unit_eq
  unfold InForce.read?
  rw [hreads.tokens_eq, Option.bind_some, InForce.foldlM_append, InForce.foldlM_keys hks,
    Option.bind_some]
  cases previous with
  | none =>
      have hmeter : r.effectiveMeter = meter := Option.some.inj (h.meter_eq.symm.trans (h.first rfl))
      unfold Row.inForce
      rw [hheading rfl, hmeter]
      rfl
  | some q =>
      have hunit : r.effectiveUnit = q.effectiveUnit
          ↔ unitText r.effectiveUnit = unitText q.effectiveUnit :=
        ⟨congrArg unitText, unitText_inj hpos (hprevious q rfl)⟩
      have hmeter : r.effectiveMeter = q.effectiveMeter ↔ r.effectiveMeter = q.inForce.meter :=
        Iff.rfl
      simp only [Row.changes, Option.elim_some]
      rw [InForce.foldlM_append, InForce.foldlM_unit _ _ hunit, Option.bind_some,
        InForce.foldlM_meter ⟨unitText r.effectiveUnit, q.inForce.meter⟩ _ hmeter]
      rfl

end Row.Announced

/-- The walk of the reader through rows that announce their units and meters. -/
theorem follows_of_linked {unit : Rat} {meter : String} {previous : Option Row} {rows : List Row}
    (h : Linked Row.isRhythm (Row.Announced unit meter) previous rows)
    (hprevious : ∀ q ∈ previous, 0 < q.effectiveUnit) :
    (previous.elim ⟨unitText unit, meter⟩ Row.inForce : InForce).Follows rows := by
  induction rows generalizing previous with
  | nil => trivial
  | cons r rest ih =>
      rw [Linked.cons_iff] at h
      unfold InForce.Follows
      split at h
      · next hrhythm =>
        obtain ⟨hr, hrest⟩ := h
        rw [if_pos hrhythm]
        refine ⟨r.inForce, hr.read? hprevious, ?_, hr.meter_eq, ?_⟩
        · rw [hr.unit_eq.1]
          rfl
        · refine @ih (some r) hrest fun q hq => ?_
          rw [← Option.some.inj hq]
          exact hr.unit_eq.2.1
      · next hrhythm =>
        rw [if_neg hrhythm]
        exact ih h hprevious

-- ============================================================ tables

/-- A table that tells the unit and the meter of its rows by their changes. -/
def Table.TellsChanges (t : Table) : Prop :=
  ∃ unit meter, t.field? "L" = some unit ∧ t.field? "M" = some meter
    ∧ (⟨unit, meter⟩ : InForce).Follows t

/-- A row that the keys have changed at most by putting one in front of its directive. -/
structure Row.KeyedFrom (r r' : Row) : Prop where
  unit : r'.unit = r.unit
  meter : r'.meter = r.meter
  directive : r'.directive = r.directive
    ∨ ∃ key, KnownKey key
      ∧ r'.directive = Keys.inlineKey key ++ if r.directive = "" then "" else " " ++ r.directive

theorem directive_foldl_write {ms : List KeyMark} {index : Nat} (r : Row)
    (h : ∀ m ∈ ms, m.effect ≠ .atNote index) :
    (ms.foldl (Keys.write index) r).directive = r.directive := by
  induction ms generalizing r with
  | nil => rfl
  | cons m ms ih =>
      obtain ⟨hm, hms⟩ := List.forall_mem_cons.1 h
      rw [List.foldl_cons, ih _ hms]
      have hown : (if m.index = index then { r with key := some m.key } else r).directive
          = r.directive := by
        split <;> rfl
      simp only [Keys.write]
      split
      · next target heffect =>
        rw [if_neg fun htarget : target = index => hm (htarget ▸ heffect)]
        exact hown
      · split
        · exact hown
        · exact hown
      · exact hown

theorem intercalate_keyed {key directive : String} :
    " ".intercalate ([Keys.inlineKey key, directive].filter (· != ""))
      = Keys.inlineKey key ++ if directive = "" then "" else " " ++ directive := by
  have hinline : (Keys.inlineKey key != "") = true := by simp [Keys.inlineKey]
  rw [List.filter_cons_of_pos (p := (· != "")) hinline]
  by_cases hempty : directive = ""
  · simp [hempty]
  · rw [List.filter_cons_of_pos (by simpa using hempty), if_neg hempty]
    simp [String.append_assoc]

/-- What the keys do to a row. -/
theorem Table.Measured.keyedFrom {t : Table} (h : t.Measured) {p : PlacedRow} (hp : p ∈ t.zipIdx) :
    p.1.KeyedFrom (Keys.annotate t.keyMarks p.1 p.2) := by
  have hunit := congrArg Row.unit (keyless_annotate t.keyMarks p.1 p.2)
  have hmeter := congrArg Row.meter (keyless_annotate t.keyMarks p.1 p.2)
  refine ⟨hunit, hmeter, ?_⟩
  obtain ⟨hknown, -, hnote, -⟩ := keyMarks_spec hp
  cases hrhythm : p.1.isRhythm with
  | true =>
      rcases h.annotate_note hp hrhythm with hsame | ⟨m, hm, -, hread⟩
      · exact Or.inl (congrArg Row.directive hsame)
      · exact Or.inr ⟨m.key, hknown m hm, (congrArg Row.directive hread).trans intercalate_keyed⟩
  | false =>
      left
      unfold Keys.annotate
      rw [directive_foldl_write _ (hnote hrhythm)]
      split <;> rfl

theorem Table.Measured.keyedFrom_withKeys {t : Table} (h : t.Measured) {i : Nat} {r : Row}
    (hr : t[i]? = some r) : ∃ r', t.withKeys[i]? = some r' ∧ r.KeyedFrom r' := by
  have hkeyed := h.keyedFrom (List.mem_zipIdx_iff_getElem?.2 hr : (r, i) ∈ t.zipIdx)
  have hget : t.withKeys[i]? = some (if (Keys.annotate t.keyMarks r i).source = .header
      ∧ (Keys.annotate t.keyMarks r i).raw = "K" then
        { Keys.annotate t.keyMarks r i with draftText := some (Keys.headingKey t.keyMarks) }
      else Keys.annotate t.keyMarks r i) := by
    simp [Table.withKeys, Table.setField, hr]
  refine ⟨_, hget, ?_⟩
  split
  · exact ⟨hkeyed.unit, hkeyed.meter, hkeyed.directive⟩
  · exact hkeyed

theorem Table.Measured.first_withKeys {t : Table} (h : t.Measured) {meter : String}
    (hfirst : Linked Row.isRhythm (fun previous r => previous = none → r.meter = some meter) none t) :
    Linked Row.isRhythm (fun previous r => previous = none → r.meter = some meter) none
      t.withKeys := by
  simp only [Table.withKeys]
  rw [linked_setField_iff, linked_zipIdx_map_iff fun p _ => (keys_of_sung (sung_annotate _ _ _)).1]
  refine (linked_zipIdx_iff.1 hfirst).imp fun previous p hp _ hmeter hnone => ?_
  rw [(h.keyedFrom hp).meter]
  apply hmeter
  rw [Option.map_eq_none_iff] at hnone ⊢
  exact hnone

/-- Rows that announce their units and meters tell them by their changes, if the heading names
those of the first one. -/
theorem tellsChanges_of_linked {t : Table} (hdrafted : t.Drafted) {unit : Rat} {meter : String}
    (hunit : t.fields.lookup "L" = some (unitText unit)) (hmeter : t.fields.lookup "M" = some meter)
    (h : Linked Row.isRhythm (Row.Announced unit meter) none t) : t.TellsChanges := by
  refine ⟨unitText unit, meter, ?_, ?_, follows_of_linked h fun q hq => ?_⟩
  · rw [hdrafted.field?, hunit]
  · rw [hdrafted.field?, hmeter]
  · cases hq

-- ============================================================= scores

/-- Units and meters are told by their changes behind the meters, and behind the keys. -/
theorem Table.Prepared.tellsChanges {heading : Rat} {meter : String} {t : Table}
    (h : t.Prepared heading meter) : t.TellsChanges ∧ t.withKeys.TellsChanges := by
  constructor
  · refine tellsChanges_of_linked h.drafted h.unitField h.meterField
      (((h.units.and h.first).and h.metered).imp fun previous r _ _ ⟨⟨hin, hmeter⟩, hr⟩ => ?_)
    exact ⟨hin, hmeter, hr.meter, [], nofun, hr.directive⟩
  · have hled := withKeys_linked h.measured h.metered h.keyless
    have hinKeys := withKeys_inUnit h.units
    have hfirstKeys := h.measured.first_withKeys h.first
    obtain ⟨hunit, hmeter, -⟩ := h.lookup_withKeys
    refine tellsChanges_of_linked (h.drafted.of_unmarked (map_unmarked_withKeys t)) hunit hmeter
      (((hinKeys.and hfirstKeys).and hled).imp fun previous r _ _ ⟨⟨hin, hmeter⟩, hr⟩ => ?_)
    refine ⟨hin, hmeter, hr.meter, r.keyFields, fun k hk => ?_, hr.directive⟩
    unfold Row.keyFields at hk
    split at hk
    · exact ⟨_, List.mem_singleton.1 hk⟩
    · cases hk

/-- Units and meters are told by their changes, exactly and without a word too many. For every score
that comes through the meters, a reader who starts with the heading and goes by the directives knows
the unit and the meter of every row that takes time and is never told one that is in force. The keys
keep this: they do no more than put a key in front of a directive. -/
theorem Score.tellsChanges_behind {s : Score} {o : Options} {t : Table}
    (h : s.behind .meters o = .ok t) :
    t.TellsChanges ∧ ∃ keyed, s.behind .keys o = .ok keyed ∧ keyed.TellsChanges
      ∧ keyed.length = t.length
      ∧ ∀ (i : Nat) (r : Row), t[i]? = some r → ∃ r', keyed[i]? = some r' ∧ r.KeyedFrom r' := by
  obtain ⟨⟨heading, meter, hprepared⟩, -⟩ := Score.prepared_behind h
  obtain ⟨htells, hkeyed⟩ := hprepared.tellsChanges
  refine ⟨htells, t.withKeys, Score.behind_keys h, hkeyed, ?_, fun i r hr => ?_⟩
  · simp [Table.withKeys, Table.setField]
  · exact hprepared.measured.keyedFrom_withKeys hr

/-- A pickup in eighths and measures in quarters, then a block with a key in front of its unit and
another one at its barline. -/
def changingText : String :=
  "[8] la | [4] la la la | la\nc d e f g\ncounter: 2\n\n[8] la.la la | la\nK#2 c d e | K#1 f"

/-- The table of the text behind the meters. -/
def changingTable : {t // ((Score.parse changingText).bind fun s => s.behind .meters {}) = .ok t} :=
  finished (by decide +kernel)

theorem Score.tellsChanges_behind_changingText :
    ∃ s t, Score.parse changingText = .ok s ∧ s.behind .meters {} = .ok t
      ∧ t.TellsChanges ∧ ∃ keyed, s.behind .keys {} = .ok keyed ∧ keyed.TellsChanges
        ∧ keyed.length = t.length
        ∧ ∀ (i : Nat) (r : Row), t[i]? = some r → ∃ r', keyed[i]? = some r' ∧ r.KeyedFrom r' := by
  obtain ⟨t, hread⟩ := changingTable
  obtain ⟨s, hparse, ht⟩ := bind_eq_ok.1 hread
  exact ⟨s, t, hparse, ht, Score.tellsChanges_behind ht⟩

end LyricScore
