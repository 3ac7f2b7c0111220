/-
Keys announced. A key signature is written in front of the first note of its block, or behind a
barline. Of the signatures of a block only the one that opens it can go to the first note, and
every block is entered once, so no row is given two of them. Seen from the rows: the directive of
a row reads as its key, if it brings one, and then its changes of unit and meter; a barline reads
as a stroke and its key.
-/
import LyricScore.Proofs.Table.Meters

namespace LyricScore

open Text

/-- The names of the keys that have a signature. -/
def KnownKey (name : String) : Prop :=
  ∃ key ∈ MajorKey.all, key.name = name

theorem KnownKey.not_mem {name : String} (h : KnownKey name) : ']' ∉ name.toList := by
  obtain ⟨key, hkey, rfl⟩ := h
  have hall : ∀ key ∈ MajorKey.all, ']' ∉ key.name.toList := by decide
  exact hall key hkey

theorem KnownKey.ne_empty {name : String} (h : KnownKey name) : name ≠ "" := by
  obtain ⟨key, hkey, rfl⟩ := h
  have hall : ∀ key ∈ MajorKey.all, key.name ≠ "" := by decide
  exact hall key hkey

theorem knownKey_default : KnownKey defaultKey :=
  ⟨⟨"K0", "C", 0⟩, List.mem_cons_self, rfl⟩

theorem knownKey_keyName? (signature : String) : KnownKey ((keyName? signature).getD defaultKey) := by
  cases h : keyName? signature with
  | none => exact knownKey_default
  | some name =>
      obtain ⟨key, hkey, rfl⟩ := Option.map_eq_some_iff.1 h
      exact ⟨key, List.mem_of_find?_eq_some hkey, rfl⟩

theorem reads_inlineKey {name : String} (h : KnownKey name) :
    Reads (Keys.inlineKey name) [.field 'K' name.toList] := by
  refine Reads.field 'K' h.not_mem ?_
  unfold Keys.inlineKey
  rw [String.toList_append, String.toList_append]
  rfl

-- ============================================================= marks

/-- What a signature says: a key that exists, on a pitch row; and if it is announced, the first
note of its block or a barline. -/
structure KeyMark.Sound (t : Table) (m : KeyMark) : Prop where
  index : ∃ r, (r, m.index) ∈ t.zipIdx ∧ r.source = .pitch
  key : KnownKey m.key
  atNote : ∀ place, m.effect = .atNote place → Keys.firstNote? t m.block = some place
  atBarline : ∀ place, m.effect = .atBarline place → place ∈ Keys.barlines t m.block

/-- What a signature does, and when it does so. -/
structure KeyEffect.Sound (t : Table) (s : Keys.State) (r : Row) (key : String) (e : KeyEffect) :
    Prop where
  heading : e = .heading ↔ s.active = none
  repeated : e = .repeated → s.active = some key
  atNote : ∀ place, e = .atNote place → Keys.firstNote? t r.block = some place ∧ s.opening = true
  atBarline : ∀ place, e = .atBarline place →
    ∃ k, k < s.bars ∧ s.bars ≤ k + 1 ∧ (Keys.barlines t r.block)[k]? = some place

theorem effect_sound (t : Table) (s : Keys.State) (r : Row) (key : String) :
    (Keys.effect t s r key).Sound t s r key := by
  unfold Keys.effect
  split
  · next hactive => exact ⟨iff_of_true rfl hactive, nofun, nofun, nofun⟩
  next active hactive =>
  have hnone : s.active ≠ none := by simp [hactive]
  split
  · next hkey => exact ⟨iff_of_false nofun hnone, fun _ => hkey ▸ hactive, nofun, nofun⟩
  split
  · next hopening =>
    split
    · next target htarget =>
      refine ⟨iff_of_false nofun hnone, nofun, fun place h => ?_, nofun⟩
      obtain rfl := KeyEffect.atNote.inj h
      exact ⟨htarget, hopening⟩
    · exact ⟨iff_of_false nofun hnone, nofun, nofun, nofun⟩
  split
  · exact ⟨iff_of_false nofun hnone, nofun, nofun, nofun⟩
  next hbars =>
  split
  · next target htarget =>
    refine ⟨iff_of_false nofun hnone, nofun, nofun, fun place h => ?_⟩
    obtain rfl := KeyEffect.atBarline.inj h
    exact ⟨s.bars - 1, by omega, by omega, htarget⟩
  · exact ⟨iff_of_false nofun hnone, nofun, nofun, nofun⟩

namespace Keys

/-- The signature that a row makes. -/
def mark? (t : Table) (s : State) (p : PlacedRow) : Option KeyMark :=
  if p.1.source = .pitch ∧ p.1.kind = .key then
    let key := (keyName? p.1.raw).getD defaultKey
    some ⟨p.2, p.1.block, p.1.raw, key, (keyName? p.1.raw).isSome, effect t (s.enter p.1) p.1 key⟩
  else none

/-- The state behind a row. -/
def State.behind (t : Table) (s : State) (p : PlacedRow) : State :=
  if p.1.source ≠ .pitch then s
  else
    let s := s.enter p.1
    if p.1.kind = .barline then { s with bars := s.bars + 1, opening := false }
    else if p.1.kind = .key then
      let key := (keyName? p.1.raw).getD defaultKey
      { s with
        active := if (effect t s p.1 key).changesKey then some key else s.active
        opening := false }
    else { s with opening := false }

/-- The signatures, row by row. -/
theorem marks_cons (t : Table) (s : State) (p : PlacedRow) (rest : List PlacedRow) :
    marks t s (p :: rest) = (mark? t s p).toList ++ marks t (s.behind t p) rest := by
  obtain ⟨r, index⟩ := p
  by_cases hsource : r.source = .pitch
  · by_cases hbar : r.kind = .barline
    · have hkey : ¬ r.kind = .key := by rw [hbar]; decide
      simp [marks, mark?, State.behind, hsource, hbar]
    · by_cases hkey : r.kind = .key
      · simp [marks, mark?, State.behind, hsource, hkey]
      · simp [marks, mark?, State.behind, hsource, hbar, hkey]
  · simp [marks, mark?, State.behind, hsource]

theorem marks_append (t : Table) (s : State) (rows more : List PlacedRow) :
    marks t s (rows ++ more) = marks t s rows ++ marks t (rows.foldl (State.behind t) s) more := by
  induction rows generalizing s with
  | nil => rfl
  | cons p rows ih =>
      rw [List.cons_append, marks_cons, marks_cons, ih, List.append_assoc]
      rfl

end Keys

theorem mark?_sound {t : Table} {s : Keys.State} {p : PlacedRow} (hp : p ∈ t.zipIdx) {m : KeyMark}
    (h : Keys.mark? t s p = some m) : m.Sound t ∧ p.1.source = .pitch ∧ m.block = p.1.block := by
  unfold Keys.mark? at h
  split at h
  · next hrow =>
    have hknown := knownKey_keyName? p.1.raw
    generalize (keyName? p.1.raw).getD defaultKey = key at h hknown
    obtain rfl := Option.some.inj h
    have heffect := effect_sound t (s.enter p.1) p.1 key
    refine ⟨⟨⟨p.1, hp, hrow.1⟩, hknown, fun place hplace => ?_, fun place hplace => ?_⟩, hrow.1, rfl⟩
    · exact (heffect.atNote place hplace).1
    · obtain ⟨k, -, -, hk⟩ := heffect.atBarline place hplace
      exact List.mem_of_getElem? hk
  · cases h

theorem marks_sound {t : Table} {s : Keys.State} {rows : List PlacedRow}
    (hrows : ∀ p ∈ rows, p ∈ t.zipIdx) {m : KeyMark} (hm : m ∈ Keys.marks t s rows) :
    m.Sound t ∧ ∃ p ∈ rows, p.1.source = .pitch ∧ m.block = p.1.block := by
  induction rows generalizing s with
  | nil => cases hm
  | cons p rows ih =>
      obtain ⟨hp, hrows⟩ := List.forall_mem_cons.1 hrows
      rw [Keys.marks_cons] at hm
      rcases List.mem_append.1 hm with hm | hm
      · obtain ⟨hsound, hpitch⟩ := mark?_sound hp (Option.mem_toList.1 hm)
        exact ⟨hsound, p, List.mem_cons_self, hpitch⟩
      · obtain ⟨hsound, q, hq, hpitch⟩ := ih hrows hm
        exact ⟨hsound, q, List.mem_cons_of_mem _ hq, hpitch⟩

theorem sound_of_mem_keyMarks {t : Table} {m : KeyMark} (h : m ∈ t.keyMarks) : m.Sound t :=
  (marks_sound (fun _ hp => hp) h).1

theorem firstNote?_spec {t : Table} {block : Int} {place : Nat}
    (h : Keys.firstNote? t block = some place) :
    ∃ before r after, t.zipIdx = before ++ (r, place) :: after ∧ r.isRhythm = true ∧ r.block = block
      ∧ ∀ q ∈ before, q.1.isRhythm = true → q.1.block ≠ block := by
  obtain ⟨⟨r, place'⟩, hfind, rfl⟩ := Option.map_eq_some_iff.1 h
  obtain ⟨hr, before, after, hsplit, hbefore⟩ := List.find?_eq_some_iff_append.1 hfind
  simp only [Bool.and_eq_true, beq_iff_eq] at hr
  refine ⟨before, r, after, hsplit, hr.1, hr.2, fun q hq hqr hqb => ?_⟩
  have hnot := hbefore q hq
  simp [hqr, hqb] at hnot

/-- A place holds one row. -/
theorem eq_of_mem_zipIdx {t : Table} {r r' : Row} {place : Nat} (h : (r, place) ∈ t.zipIdx)
    (h' : (r', place) ∈ t.zipIdx) : r = r' :=
  Option.some.inj ((List.mem_zipIdx_iff_getElem?.1 h).symm.trans (List.mem_zipIdx_iff_getElem?.1 h'))

/-- The first notes of different blocks are different rows. -/
theorem firstNote?_inj {t : Table} {block block' : Int} {place : Nat}
    (h : Keys.firstNote? t block = some place) (h' : Keys.firstNote? t block' = some place) :
    block = block' := by
  obtain ⟨before, r, after, hsplit, -, rfl, -⟩ := firstNote?_spec h
  obtain ⟨before', r', after', hsplit', -, rfl, -⟩ := firstNote?_spec h'
  have hr : (r, place) ∈ t.zipIdx := hsplit ▸ List.mem_append_right _ List.mem_cons_self
  have hr' : (r', place) ∈ t.zipIdx := hsplit' ▸ List.mem_append_right _ List.mem_cons_self
  rw [eq_of_mem_zipIdx hr hr']

/-- The barlines of a block in the order of their places. -/
theorem barlines_sorted {t : Table} {block : Int} {i k place place' : Nat}
    (hi : (Keys.barlines t block)[i]? = some place) (hk : (Keys.barlines t block)[k]? = some place')
    (hle : i ≤ k) : place ≤ place' := by
  have hpair : (Keys.barlines t block).Pairwise (· < ·) := by
    unfold Keys.barlines
    exact List.pairwise_map.2 ((pairwise_place t).filter _)
  obtain ⟨hi', rfl⟩ := List.getElem?_eq_some_iff.1 hi
  obtain ⟨hk', rfl⟩ := List.getElem?_eq_some_iff.1 hk
  rcases Nat.lt_or_eq_of_le hle with hlt | rfl
  · exact Nat.le_of_lt (List.pairwise_iff_getElem.1 hpair i k hi' hk' hlt)
  · exact Nat.le_refl _

-- ============================================================== runs

/-- Of two signatures in their order, what the second one cannot be: it is no heading, and in the
block of the first it opens nothing and goes to no earlier barline. -/
structure KeyMark.Before (m m' : KeyMark) : Prop where
  block : m.block ≤ m'.block
  heading : m'.effect ≠ .heading
  opening : m.block = m'.block → ∀ place, m'.effect ≠ .atNote place
  barline : m.block = m'.block → ∀ i i', m.effect = .atBarline i → m'.effect = .atBarline i' → i ≤ i'

/-- Whether a signature was dropped, with a warning. -/
def KeyMark.dropped (m : KeyMark) : Bool :=
  m.effect == .noNotes || m.effect == .noBarline

/-- The key of the last signature that was not dropped. -/
def KeyMark.lastKey (ms : List KeyMark) : String :=
  ((ms.reverse.find? fun m => !m.dropped).map (·.key)).getD defaultKey

/-- The last signature that changed the key. -/
def KeyMark.lastChange? (ms : List KeyMark) : Option KeyMark :=
  ms.reverse.find? fun m => m.effect.changesKey

/-- What is known behind some rows and their signatures. -/
structure Keys.Seen (t : Table) (s : State) (rows : List PlacedRow) (ms : List KeyMark) : Prop where
  reached : ∀ p ∈ rows, p.1.source = .pitch → ∃ block, s.block = some block ∧ p.1.block ≤ block
  marked : ∀ m ∈ ms, ∃ block, s.block = some block ∧ m.block ≤ block
  untouched : s.active = none → ms = [] ∧ ∀ p ∈ rows, p.1.source ≠ .pitch
  opening : s.opening = true → ∀ m ∈ ms, s.block ≠ some m.block
  bars : ∀ m ∈ ms, s.block = some m.block → ∀ i, m.effect = .atBarline i →
    ∃ k, k < s.bars ∧ (barlines t m.block)[k]? = some i
  kept : s.active.getD defaultKey = KeyMark.lastKey ms
  changed : s.active.getD defaultKey = ((KeyMark.lastChange? ms).map (·.key)).getD defaultKey
  heading : ∀ m ∈ ms, m.effect = .heading → ∀ p ∈ rows, p.1.source = .pitch → m.block ≤ p.1.block
  before : ms.Pairwise KeyMark.Before

namespace Keys

theorem enter_spec (s : State) (r : Row) :
    (s.enter r).block = some r.block
      ∧ (s.enter r).active.getD defaultKey = s.active.getD defaultKey
      ∧ ((s.enter r).active = none → s.active = none ∧ r.kind = .key)
      ∧ (s.block = some r.block → (s.enter r).opening = s.opening ∧ (s.enter r).bars = s.bars) := by
  unfold State.enter
  dsimp only
  generalize hsame : (if s.block = some r.block then s
    else { s with block := some r.block, bars := 0, opening := true }) = own
  have hown : own.block = some r.block ∧ own.active = s.active
      ∧ (s.block = some r.block → own = s) := by
    rw [← hsame]
    split
    · next hblock => exact ⟨hblock, rfl, fun _ => rfl⟩
    · next hblock => exact ⟨rfl, rfl, fun h => absurd h hblock⟩
  obtain ⟨hblock, hactive, hkept⟩ := hown
  split
  · next hnone =>
    simp only [Bool.and_eq_true, Option.isNone_iff_eq_none, hactive] at hnone
    refine ⟨hblock, by rw [hnone.1]; rfl, fun h => ?_, fun h => ?_⟩
    · cases h
    · rw [hkept h]
      exact ⟨rfl, rfl⟩
  · next hsome =>
    refine ⟨hblock, by rw [hactive], fun h => ⟨hactive ▸ h, ?_⟩, fun h => ?_⟩
    · apply Decidable.byContradiction
      intro hkind
      apply hsome
      simp [h, hkind]
    · rw [hkept h]
      exact ⟨rfl, rfl⟩

namespace Seen

variable {t : Table} {s : State} {rows : List PlacedRow} {ms : List KeyMark}

theorem start (t : Table) : Seen t {} [] [] where
  reached _ hp := absurd hp List.not_mem_nil
  marked _ hm := absurd hm List.not_mem_nil
  untouched _ := ⟨rfl, fun _ hp => absurd hp List.not_mem_nil⟩
  opening _ _ hm := absurd hm List.not_mem_nil
  bars _ hm := absurd hm List.not_mem_nil
  kept := rfl
  changed := rfl
  heading _ hm := absurd hm List.not_mem_nil
  before := List.Pairwise.nil

/-- The state in which a row is read, which may be the first one of its block. -/
theorem enter (h : Seen t s rows ms) {r : Row} (hle : ∀ block, s.block = some block → block ≤ r.block) :
    Seen t (s.enter r) rows ms := by
  obtain ⟨hblock, hactive, huntouched, hsame⟩ := enter_spec s r
  -- the signatures seen are of this block only if the block was entered before
  have hold : ∀ m ∈ ms, m.block = r.block → s.block = some r.block := by
    intro m hm heq
    obtain ⟨block, hs, hmle⟩ := h.marked m hm
    have hrle := hle block hs
    rw [hs]
    congr 1
    omega
  refine ⟨fun p hp hpitch => ?_, fun m hm => ?_, fun hnone => h.untouched (huntouched hnone).1,
    fun hopening m hm heq => ?_, fun m hm heq => ?_, hactive.trans h.kept, hactive.trans h.changed,
    h.heading, h.before⟩
  · obtain ⟨block, hs, hple⟩ := h.reached p hp hpitch
    exact ⟨r.block, hblock, Int.le_trans hple (hle block hs)⟩
  · obtain ⟨block, hs, hmle⟩ := h.marked m hm
    exact ⟨r.block, hblock, Int.le_trans hmle (hle block hs)⟩
  · have hm' : m.block = r.block := Option.some.inj (heq.symm.trans hblock)
    have hs := hold m hm hm'
    rw [(hsame hs).1] at hopening
    exact h.opening hopening m hm (hm' ▸ hs)
  · have hm' : m.block = r.block := Option.some.inj (heq.symm.trans hblock)
    have hs := hold m hm hm'
    rw [(hsame hs).2]
    exact h.bars m hm (hm' ▸ hs)

/-- A row that is no signature adds none; behind it nothing opens its block. -/
theorem quiet (h : Seen t s rows ms) {p : PlacedRow} (hblock : s.block = some p.1.block)
    (hactive : s.active ≠ none) {bars : Nat} (hbars : s.bars ≤ bars) :
    Seen t { s with bars := bars, opening := false } (rows ++ [p]) ms := by
  refine ⟨List.forall_mem_append.2 ⟨h.reached, fun q hq _ => ?_⟩, h.marked, fun hnone => absurd hnone hactive,
    fun hopening => ?_, fun m hm heq i hi => ?_, h.kept, h.changed, fun m hm hheading => ?_, h.before⟩
  · obtain rfl := List.mem_singleton.1 hq
    exact ⟨q.1.block, hblock, Int.le_refl _⟩
  · cases hopening
  · obtain ⟨k, hk, hget⟩ := h.bars m hm heq i hi
    exact ⟨k, Nat.lt_of_lt_of_le hk hbars, hget⟩
  · refine List.forall_mem_append.2 ⟨h.heading m hm hheading, fun q hq _ => ?_⟩
    obtain rfl := List.mem_singleton.1 hq
    obtain ⟨block, hs, hle⟩ := h.marked m hm
    rwa [Option.some.inj (hs.symm.trans hblock)] at hle

theorem lastKey_concat (ms : List KeyMark) (m : KeyMark) :
    KeyMark.lastKey (ms ++ [m]) = if m.dropped then KeyMark.lastKey ms else m.key := by
  unfold KeyMark.lastKey
  rw [List.reverse_append, List.reverse_singleton, List.singleton_append, List.find?_cons]
  cases m.dropped <;> rfl

theorem lastChange?_concat (ms : List KeyMark) (m : KeyMark) :
    KeyMark.lastChange? (ms ++ [m])
      = if m.effect.changesKey then some m else KeyMark.lastChange? ms := by
  unfold KeyMark.lastChange?
  rw [List.reverse_append, List.reverse_singleton, List.singleton_append, List.find?_cons]
  cases m.effect.changesKey <;> rfl

/-- A signature in the state of its row. -/
theorem concat (h : Seen t s rows ms) {p : PlacedRow} {m : KeyMark}
    (hblock : s.block = some p.1.block) (hm : m.block = p.1.block)
    (heffect : m.effect.Sound t s p.1 m.key) :
    Seen t { s with active := if m.effect.changesKey then some m.key else s.active, opening := false }
      (rows ++ [p]) (ms ++ [m]) := by
  have hearlier : ∀ m' ∈ ms, m'.block ≤ m.block := by
    intro m' hm'
    obtain ⟨block, hs, hle⟩ := h.marked m' hm'
    rw [hm, ← Option.some.inj (hs.symm.trans hblock)]
    exact hle
  have hactive : s.active = none → m.effect.changesKey = true := fun hnone => by
    rw [heffect.heading.2 hnone]
    rfl
  refine ⟨List.forall_mem_append.2 ⟨h.reached, fun q hq _ => ?_⟩,
    List.forall_mem_append.2 ⟨h.marked, fun m' hm' => ?_⟩, fun hnone => ?_, fun hopening => ?_,
    List.forall_mem_append.2 ⟨h.bars, fun m' hm' _ i hi => ?_⟩, ?_, ?_,
    List.forall_mem_append.2 ⟨fun m' hm' hheading => ?_, fun m' hm' hheading => ?_⟩,
    List.pairwise_append.2 ⟨h.before, List.pairwise_singleton _ _, fun m' hm' m'' hm'' => ?_⟩⟩
  · obtain rfl := List.mem_singleton.1 hq
    exact ⟨q.1.block, hblock, Int.le_refl _⟩
  · obtain rfl := List.mem_singleton.1 hm'
    exact ⟨p.1.block, hblock, Int.le_of_eq hm⟩
  · -- behind a signature a key is in force
    dsimp only at hnone
    split at hnone
    · cases hnone
    · next hkept => exact absurd (hactive hnone) hkept
  · cases hopening
  · obtain rfl := List.mem_singleton.1 hm'
    obtain ⟨k, hk, -, hget⟩ := heffect.atBarline i hi
    exact ⟨k, hk, hm ▸ hget⟩
  · rw [lastKey_concat]
    cases heff : m.effect with
    | repeated => simp [KeyMark.dropped, KeyEffect.changesKey, heff, heffect.repeated heff]
    | heading => simp [KeyMark.dropped, KeyEffect.changesKey, heff]
    | atNote place => simp [KeyMark.dropped, KeyEffect.changesKey, heff]
    | atBarline place => simp [KeyMark.dropped, KeyEffect.changesKey, heff]
    | noNotes => simp [KeyMark.dropped, KeyEffect.changesKey, heff, h.kept]
    | noBarline => simp [KeyMark.dropped, KeyEffect.changesKey, heff, h.kept]
  · rw [lastChange?_concat]
    cases hchanges : m.effect.changesKey with
    | true => rfl
    | false => exact h.changed
  · refine List.forall_mem_append.2 ⟨h.heading m' hm' hheading, fun q hq _ => ?_⟩
    obtain rfl := List.mem_singleton.1 hq
    exact hm ▸ hearlier m' hm'
  · obtain rfl := List.mem_singleton.1 hm'
    have hnone := (h.untouched (heffect.heading.1 hheading)).2
    refine List.forall_mem_append.2 ⟨fun q hq hpitch => absurd hpitch (hnone q hq), fun q hq _ => ?_⟩
    obtain rfl := List.mem_singleton.1 hq
    exact Int.le_of_eq hm
  · obtain rfl := List.mem_singleton.1 hm''
    refine ⟨hearlier m' hm', fun hheading => ?_, fun heq place hplace => ?_, fun heq i i' hi hi' => ?_⟩
    · rw [(h.untouched (heffect.heading.1 hheading)).1] at hm'
      cases hm'
    · exact h.opening (heffect.atNote place hplace).2 m' hm' (hblock.trans (hm ▸ congrArg some heq.symm))
    · obtain ⟨k, hk, hget⟩ := h.bars m' hm' (hblock.trans (hm ▸ congrArg some heq.symm)) i hi
      obtain ⟨k', -, hk', hget'⟩ := heffect.atBarline i' hi'
      rw [heq, hm] at hget
      exact barlines_sorted hget hget' (by omega)

/-- What one row does. -/
theorem step (h : Seen t s rows ms) {p : PlacedRow}
    (hle : p.1.source = .pitch → ∀ block, s.block = some block → block ≤ p.1.block) :
    Seen t (s.behind t p) (rows ++ [p]) (ms ++ (mark? t s p).toList)
      ∧ (p.1.source = .pitch → (s.behind t p).block = some p.1.block)
      ∧ (p.1.source ≠ .pitch → s.behind t p = s) := by
  by_cases hsource : p.1.source = .pitch
  · obtain ⟨hblock, -, huntouched, -⟩ := enter_spec s p.1
    have henter := h.enter (hle hsource)
    unfold State.behind mark?
    rw [if_neg (not_not_intro hsource)]
    dsimp only
    by_cases hbar : p.1.kind = .barline
    · have hkey : ¬ p.1.kind = .key := by rw [hbar]; decide
      rw [if_pos hbar, if_neg (fun hboth => hkey hboth.2), Option.toList_none, List.append_nil]
      refine ⟨henter.quiet hblock (fun hnone => hkey (huntouched hnone).2) (Nat.le_succ _),
        fun _ => hblock, fun hne => absurd hsource hne⟩
    · rw [if_neg hbar]
      by_cases hkey : p.1.kind = .key
      · have hboth : p.1.source = .pitch ∧ p.1.kind = .key := ⟨hsource, hkey⟩
        rw [if_pos hkey, if_pos hboth, Option.toList_some]
        refine ⟨?_, fun _ => hblock, fun hne => absurd hsource hne⟩
        generalize (keyName? p.1.raw).getD defaultKey = key
        exact henter.concat (m := ⟨p.2, p.1.block, p.1.raw, key, (keyName? p.1.raw).isSome,
          effect t (s.enter p.1) p.1 key⟩) hblock rfl (effect_sound t (s.enter p.1) p.1 key)
      · rw [if_neg hkey, if_neg (fun hboth => hkey hboth.2), Option.toList_none, List.append_nil]
        exact ⟨henter.quiet hblock (fun hnone => hkey (huntouched hnone).2) (Nat.le_refl _),
          fun _ => hblock, fun hne => absurd hsource hne⟩
  · have hbehind : s.behind t p = s := if_pos hsource
    have hmark : mark? t s p = none := if_neg fun hboth => hsource hboth.1
    rw [hbehind, hmark, Option.toList_none, List.append_nil]
    refine ⟨⟨List.forall_mem_append.2 ⟨h.reached, fun q hq hpitch => ?_⟩, h.marked, fun hnone => ?_,
      h.opening, h.bars, h.kept, h.changed, fun m hm hheading => ?_, h.before⟩,
      fun hpitch => absurd hpitch hsource, fun _ => rfl⟩
    · obtain rfl := List.mem_singleton.1 hq
      exact absurd hpitch hsource
    · obtain ⟨hms, hrows⟩ := h.untouched hnone
      refine ⟨hms, List.forall_mem_append.2 ⟨hrows, fun q hq => ?_⟩⟩
      obtain rfl := List.mem_singleton.1 hq
      exact hsource
    · refine List.forall_mem_append.2 ⟨h.heading m hm hheading, fun q hq hpitch => ?_⟩
      obtain rfl := List.mem_singleton.1 hq
      exact absurd hpitch hsource

/-- What a run over rows in the order of their blocks does. -/
theorem run (h : Seen t s rows ms) {more : List PlacedRow}
    (hsorted : more.Pairwise fun p q =>
      p.1.source = .pitch → q.1.source = .pitch → p.1.block ≤ q.1.block)
    (hle : ∀ block, s.block = some block → ∀ p ∈ more, p.1.source = .pitch → block ≤ p.1.block) :
    Seen t (more.foldl (State.behind t) s) (rows ++ more) (ms ++ marks t s more) := by
  induction more generalizing s rows ms with
  | nil =>
      rw [marks, List.append_nil, List.append_nil]
      exact h
  | cons p more ih =>
      obtain ⟨hfirst, hsorted⟩ := List.pairwise_cons.1 hsorted
      obtain ⟨hstep, hpitch, hother⟩ := h.step fun hsource block hs =>
        hle block hs p List.mem_cons_self hsource
      rw [List.foldl_cons, marks_cons, ← List.append_assoc, ← List.singleton_append, ← List.append_assoc]
      refine ih hstep hsorted fun block hs q hq hq' => ?_
      by_cases hsource : p.1.source = .pitch
      · rw [← Option.some.inj ((hpitch hsource).symm.trans hs)]
        exact hfirst q hq hsource hq'
      · rw [hother hsource] at hs
        exact hle block hs q (List.mem_cons_of_mem _ hq) hq'

end Seen

end Keys

-- ============================================================== rows

/-- The field that a row writes for the key it brings. -/
def Row.keyFields (r : Row) : List Token :=
  match r.key with
  | some name => [.field 'K' name.toList]
  | none => []

/-- A row that takes time and whose directive announces its key, unit and meter. Inside a measure
it announces nothing. -/
structure Row.Led (previous : Option Row) (r : Row) : Prop where
  directive : Reads r.directive (r.keyFields ++ r.changes previous)
  key : ∀ name ∈ r.key, KnownKey name
  meter : ∃ beats denominator, r.meter = some (meterText beats denominator)
  within : ∀ q ∈ previous, q.measureKey? = r.measureKey? → r.keyFields ++ r.changes previous = []

/-- A barline with its stroke and its key. -/
structure Row.Barred (r : Row) : Prop where
  directive : r.directive = ""
  key : ∀ name ∈ r.key, KnownKey name
  draft : Reads (r.draftText.getD "") (.bar :: r.keyFields)

theorem write_of_miss {m : KeyMark} {index : Nat} (r : Row) (hindex : m.index ≠ index)
    (hnote : m.effect ≠ .atNote index) (hbar : m.effect ≠ .atBarline index) :
    Keys.write index r m = r := by
  simp only [Keys.write, if_neg hindex]
  split
  · next target heffect =>
    exact if_neg fun htarget : target = index => hnote (htarget ▸ heffect)
  · next target heffect =>
    exact if_neg fun htarget : target = index => hbar (htarget ▸ heffect)
  · rfl

theorem foldl_write_of_miss {ms : List KeyMark} {index : Nat} (r : Row)
    (h : ∀ m ∈ ms, m.index ≠ index ∧ m.effect ≠ .atNote index ∧ m.effect ≠ .atBarline index) :
    ms.foldl (Keys.write index) r = r := by
  induction ms with
  | nil => rfl
  | cons m ms ih =>
      obtain ⟨⟨hindex, hnote, hbar⟩, hms⟩ := List.forall_mem_cons.1 h
      rw [List.foldl_cons, write_of_miss r hindex hnote hbar]
      exact ih hms

/-- A row that takes time gets one key at most. -/
theorem foldl_write_note {ms : List KeyMark} {index : Nat} (r : Row)
    (h : ∀ m ∈ ms, m.index ≠ index ∧ m.effect ≠ .atBarline index)
    (hpair : ms.Pairwise fun m m' => ∀ place, m.effect = .atNote place → m'.effect ≠ .atNote place) :
    ms.foldl (Keys.write index) r = r
      ∨ ∃ m ∈ ms, m.effect = .atNote index
        ∧ ms.foldl (Keys.write index) r = { r with
            directive := " ".intercalate ([Keys.inlineKey m.key, r.directive].filter (· != ""))
            key := some m.key } := by
  induction ms with
  | nil => exact Or.inl rfl
  | cons m ms ih =>
      obtain ⟨⟨hindex, hbar⟩, hms⟩ := List.forall_mem_cons.1 h
      obtain ⟨hfirst, hpair⟩ := List.pairwise_cons.1 hpair
      rw [List.foldl_cons]
      by_cases hnote : m.effect = .atNote index
      · right
        refine ⟨m, List.mem_cons_self, hnote, ?_⟩
        rw [foldl_write_of_miss _ fun m' hm' =>
          ⟨(hms m' hm').1, hfirst m' hm' index hnote, (hms m' hm').2⟩]
        simp only [Keys.write, hnote, if_neg hindex, if_true]
      · rw [write_of_miss r hindex hnote hbar]
        rcases ih hms hpair with hsame | ⟨m', hm', hnote', hread⟩
        · exact Or.inl hsame
        · exact Or.inr ⟨m', List.mem_cons_of_mem _ hm', hnote', hread⟩

/-- A barline keeps its stroke, and the last key that goes with it. -/
theorem foldl_write_barred {ms : List KeyMark} {index : Nat} {r : Row} (hr : r.Barred)
    (h : ∀ m ∈ ms, KnownKey m.key ∧ m.index ≠ index ∧ m.effect ≠ .atNote index) :
    (ms.foldl (Keys.write index) r).Barred := by
  induction ms generalizing r with
  | nil => exact hr
  | cons m ms ih =>
      obtain ⟨⟨hkey, hindex, hnote⟩, hms⟩ := List.forall_mem_cons.1 h
      rw [List.foldl_cons]
      refine ih ?_ hms
      by_cases hbar : m.effect = .atBarline index
      · simp only [Keys.write, hbar, if_neg hindex, if_true]
        refine ⟨hr.directive, ?_, Reads.bar.beside (reads_inlineKey hkey)⟩
        rintro name ⟨⟩
        exact hkey
      · rw [write_of_miss r hindex hnote hbar]
        exact hr

-- ============================================================ tables

/-- What is known of a table before its keys are written: nothing but the changes of unit and
meter stands on its lyric rows. -/
structure Table.Keyless (t : Table) : Prop where
  key : ∀ r ∈ t, r.source = .lyric → r.key = none
  directive : ∀ r ∈ t, r.source = .lyric → r.isRhythm = false → r.directive = ""
  draft : ∀ r ∈ t, r.source = .lyric → r.draftText = none

theorem Table.Measured.pairwise_pitch {t : Table} (h : t.Measured) :
    t.zipIdx.Pairwise fun p q =>
      p.1.source = .pitch → q.1.source = .pitch → p.1.block ≤ q.1.block :=
  (pairwise_zipIdx h.ordered).imp fun hpq hp hq => hpq.1 (by rw [hp]; decide) (by rw [hq]; decide)

theorem Table.Measured.seen_keyMarks {t : Table} (h : t.Measured) :
    Keys.Seen t (t.zipIdx.foldl (Keys.State.behind t) {}) t.zipIdx t.keyMarks := by
  refine (Keys.Seen.start t).run h.pairwise_pitch fun block hs => ?_
  cases hs

/-- Of the signatures of a table, no two go to the first note of one block. -/
theorem Table.Measured.pairwise_atNote {t : Table} (h : t.Measured) :
    t.keyMarks.Pairwise fun m m' => ∀ place, m.effect = .atNote place → m'.effect ≠ .atNote place := by
  have hsound : ∀ m ∈ t.keyMarks, m.Sound t := fun m hm => sound_of_mem_keyMarks hm
  refine (List.Pairwise.and_mem.1 h.seen_keyMarks.before).imp fun hboth place hm hm' => ?_
  obtain ⟨hmem, hmem', hbefore⟩ := hboth
  have hblock := firstNote?_inj ((hsound _ hmem).atNote place hm) ((hsound _ hmem').atNote place hm')
  exact hbefore.opening hblock place hm'

/-- What the signatures of a table do to the row of a place. -/
theorem keyMarks_spec {t : Table} {p : PlacedRow} (hp : p ∈ t.zipIdx) :
    (∀ m ∈ t.keyMarks, KnownKey m.key)
      ∧ (p.1.source ≠ .pitch → ∀ m ∈ t.keyMarks, m.index ≠ p.2)
      ∧ (p.1.isRhythm = false → ∀ m ∈ t.keyMarks, m.effect ≠ .atNote p.2)
      ∧ (Keys.isLyricBarline p.1 = false → ∀ m ∈ t.keyMarks, m.effect ≠ .atBarline p.2) := by
  obtain ⟨r, place⟩ := p
  have hsound : ∀ m ∈ t.keyMarks, m.Sound t := fun m hm => sound_of_mem_keyMarks hm
  refine ⟨fun m hm => (hsound m hm).key, fun hsource m hm hindex => ?_,
    fun hrhythm m hm hnote => ?_, fun hbar m hm hbarline => ?_⟩
  · obtain ⟨r', hr', hpitch⟩ := (hsound m hm).index
    rw [hindex] at hr'
    exact hsource (eq_of_mem_zipIdx hp hr' ▸ hpitch)
  · obtain ⟨before, r', after, hsplit, hr', -⟩ := firstNote?_spec ((hsound m hm).atNote _ hnote)
    have hmem : (r', place) ∈ t.zipIdx := hsplit ▸ List.mem_append_right _ List.mem_cons_self
    obtain rfl := eq_of_mem_zipIdx hp hmem
    exact absurd hr' (by simpa using hrhythm)
  · obtain ⟨⟨r', place'⟩, hmem, rfl⟩ := List.mem_map.1 ((hsound m hm).atBarline _ hbarline)
    obtain ⟨hmem, hr'⟩ := List.mem_filter.1 hmem
    obtain rfl := eq_of_mem_zipIdx hp hmem
    simp only at hbar hr'
    simp [hbar] at hr'

/-- The row of a first note gets its key in front of its other fields. -/
theorem reads_keyed {text key : String} {ts : List Token} (htext : Reads text ts)
    (hkey : KnownKey key) :
    Reads (" ".intercalate ([Keys.inlineKey key, text].filter (· != "")))
      (.field 'K' key.toList :: ts) := by
  have hinline : (Keys.inlineKey key != "") = true := by simp [Keys.inlineKey]
  rw [List.filter_cons_of_pos (p := (· != "")) hinline]
  by_cases hempty : text = ""
  · subst hempty
    have hts : ts = [] := by
      have hread := htext.tokens_eq
      exact (Option.some.inj (tokens_nil.symm.trans hread)).symm
    rw [hts]
    exact reads_inlineKey hkey
  · have hread := (reads_inlineKey hkey).beside htext
    rw [List.filter_cons_of_pos (by simpa using hempty)]
    simpa using hread

/-- In the order of places, an earlier place stands before a later one. -/
theorem mem_before_of_lt {before after : List PlacedRow} {p q : PlacedRow}
    (h : (before ++ p :: after).Pairwise fun p q => p.2 < q.2) (hq : q ∈ before ++ p :: after)
    (hlt : q.2 < p.2) : q ∈ before := by
  rcases List.mem_append.1 hq with hq | hq
  · exact hq
  · rcases List.mem_cons.1 hq with rfl | hq
    · exact absurd hlt (Nat.lt_irrefl _)
    · have hgt := (List.pairwise_cons.1 (List.pairwise_append.1 h).2.1).1 q hq
      omega

/-- Signatures leave units and meters alone. -/
theorem changes_annotate (ms : List KeyMark) (previous : Option PlacedRow) (p : PlacedRow) :
    (Keys.annotate ms p.1 p.2).changes (previous.map fun q => Keys.annotate ms q.1 q.2)
      = p.1.changes (previous.map (·.1)) := by
  have hkept : ∀ q : PlacedRow, (Keys.annotate ms q.1 q.2).effectiveUnit = q.1.effectiveUnit
      ∧ (Keys.annotate ms q.1 q.2).effectiveMeter = q.1.effectiveMeter := by
    intro q
    have hunit := congrArg Row.effectiveUnit (keyless_annotate ms q.1 q.2)
    have hmeter := congrArg Row.effectiveMeter (keyless_annotate ms q.1 q.2)
    exact ⟨hunit, hmeter⟩
  cases previous with
  | none => rfl
  | some q => simp only [Option.map_some, Row.changes, hkept]

/-- What the signatures write on a row that takes time: one key at most, in front of its other
fields. -/
theorem Table.Measured.annotate_note {t : Table} (h : t.Measured) {p : PlacedRow} (hp : p ∈ t.zipIdx)
    (hrhythm : p.1.isRhythm = true) :
    Keys.annotate t.keyMarks p.1 p.2 = p.1
      ∨ ∃ m ∈ t.keyMarks, m.effect = .atNote p.2
        ∧ Keys.annotate t.keyMarks p.1 p.2 = { p.1 with
            directive := " ".intercalate ([Keys.inlineKey m.key, p.1.directive].filter (· != ""))
            key := some m.key } := by
  have hsource : p.1.source ≠ .pitch := by
    rw [source_of_isSpoken (isSpoken_of_isRhythm hrhythm)]
    decide
  have hnobar := isLyricBarline_of_isRhythm hrhythm
  obtain ⟨-, hindex, -, hbar⟩ := keyMarks_spec hp
  unfold Keys.annotate
  rw [hnobar]
  exact foldl_write_note p.1 (fun m hm => ⟨hindex hsource m hm, hbar hnobar m hm⟩)
    h.pairwise_atNote

/-- Every row that takes time announces its key, unit and meter. -/
theorem withKeys_linked {t : Table} (h : t.Measured)
    (hmeters : Linked Row.isRhythm Row.Metered none t) (hplain : t.Keyless) :
    Linked Row.isRhythm Row.Led none t.withKeys := by
  simp only [Table.withKeys]
  rw [linked_setField_iff, linked_zipIdx_map_iff fun p _ => (keys_of_sung (sung_annotate _ _ _)).1]
  have hearlier := Linked.earlier (fun p : PlacedRow => p.1.isRhythm) (pairwise_place t)
  refine ((linked_zipIdx_iff.1 hmeters).and hearlier).imp fun previous p hp hrhythm hrow => ?_
  obtain ⟨hmetered, hbefore⟩ := hrow
  have hsource := source_of_isSpoken (isSpoken_of_isRhythm hrhythm)
  have hkey := hplain.key p.1 (List.fst_mem_of_mem_zipIdx hp) hsource
  have hknown := (keyMarks_spec hp).1
  have hchanges := changes_annotate t.keyMarks previous p
  rcases h.annotate_note hp hrhythm with hsame | ⟨m, hm, hnote, hread⟩
  · rw [hsame] at hchanges ⊢
    have hfields : p.1.keyFields = [] := by rw [Row.keyFields, hkey]
    refine ⟨?_, ?_, hmetered.meter, fun q hq heq => ?_⟩
    · rw [hfields, hchanges]
      exact hmetered.directive
    · intro name hname
      rw [hkey] at hname
      cases hname
    · obtain ⟨q, hprevious, rfl⟩ := Option.map_eq_some_iff.1 hq
      rw [(keys_of_sung (sung_annotate t.keyMarks q.1 q.2)).2.2] at heq
      rw [hfields, hchanges, List.nil_append]
      exact hmetered.within q.1 (Option.map_eq_some_iff.2 ⟨q, hprevious, rfl⟩) heq
  · rw [hread] at hchanges ⊢
    refine ⟨?_, ?_, hmetered.meter, fun q hq heq => ?_⟩
    · rw [hchanges]
      exact reads_keyed hmetered.directive (hknown m hm)
    · rintro name ⟨⟩
      exact hknown m hm
    · -- the first note of a block has none before it in its measure
      exfalso
      obtain ⟨q, hprevious, rfl⟩ := Option.map_eq_some_iff.1 hq
      obtain ⟨hqmem, hqr, hlt⟩ := hbefore q hprevious
      obtain ⟨before, r, after, hsplit, -, hblock, hfirst⟩ :=
        firstNote?_spec ((sound_of_mem_keyMarks hm).atNote _ hnote)
      have hr : (r, p.2) ∈ t.zipIdx := hsplit ▸ List.mem_append_right _ List.mem_cons_self
      obtain rfl := eq_of_mem_zipIdx hp hr
      refine hfirst q ?_ hqr ?_
      · exact mem_before_of_lt (hsplit ▸ pairwise_place t) (hsplit ▸ hqmem) hlt
      · obtain ⟨measure, hmeasure⟩ := h.measure p.1 (List.fst_mem_of_mem_zipIdx hp) hrhythm
        have hkeys : q.1.measureKey? = some ⟨p.1.block, measure⟩ :=
          ((keys_of_sung (sung_annotate t.keyMarks q.1 q.2)).2.2.symm.trans heq).trans
            (measureKey?_eq_some.2 ⟨hrhythm, rfl, hmeasure⟩)
        exact (measureKey?_eq_some.1 hkeys).2.1.trans hblock

/-- Every barline of a lyric line has its stroke. -/
theorem withKeys_barred {t : Table} (hplain : t.Keyless) {r : Row} (hr : r ∈ t.withKeys)
    (hbar : Keys.isLyricBarline r = true) : r.Barred := by
  have hsource : r.source = .lyric := by
    simp only [Keys.isLyricBarline, Bool.and_eq_true, beq_iff_eq] at hbar
    exact hbar.1
  obtain ⟨p, hp, rfl⟩ := List.mem_map.1 (mem_of_mem_setField hr (by rw [hsource]; decide))
  have hkept := sung_annotate t.keyMarks p.1 p.2
  have hkeeps : ∀ {β : Type} (g : Row → β), g (Keys.annotate t.keyMarks p.1 p.2).sung = g p.1.sung :=
    fun g => congrArg g hkept
  have hlyric : p.1.source = .lyric := (hkeeps Row.source).symm.trans hsource
  have hstroke : Keys.isLyricBarline p.1 = true := (hkeeps Keys.isLyricBarline).symm.trans hbar
  have hrhythm : p.1.isRhythm = false := Bool.eq_false_iff.2 fun hrhythm => by
    rw [isLyricBarline_of_isRhythm hrhythm] at hstroke
    cases hstroke
  have hmem := List.fst_mem_of_mem_zipIdx hp
  obtain ⟨hknown, hindex, hnote, -⟩ := keyMarks_spec hp
  unfold Keys.annotate
  rw [if_pos hstroke]
  refine foldl_write_barred ⟨hplain.directive p.1 hmem hlyric hrhythm, ?_, ?_⟩ fun m hm =>
    ⟨hknown m hm, hindex (by rw [hlyric]; decide) m hm, hnote hrhythm m hm⟩
  · intro name hname
    have hnone : some name = none := hname.symm.trans (hplain.key p.1 hmem hlyric)
    cases hnone
  · have hfields : Row.keyFields { p.1 with draftText := some Keys.bar } = [] := by
      simp only [Row.keyFields, hplain.key p.1 hmem hlyric]
    rw [hfields]
    exact Reads.bar

/-- Rows that are neither heard nor pitches stay as they are. -/
theorem annotate_of_unheard {t : Table} {p : PlacedRow} (hp : p ∈ t.zipIdx)
    (hsource : p.1.source ≠ .pitch) (hspoken : p.1.isSpoken = false) :
    Keys.annotate t.keyMarks p.1 p.2 = p.1 := by
  obtain ⟨hrhythm, hbar⟩ := Bool.or_eq_false_iff.1 hspoken
  obtain ⟨-, hindex, hnote, hbarline⟩ := keyMarks_spec hp
  unfold Keys.annotate
  rw [if_neg (by simp [hbar])]
  exact foldl_write_of_miss p.1 fun m hm =>
    ⟨hindex hsource m hm, hnote hrhythm m hm, hbarline hbar m hm⟩

/-- A lyric row that is not heard writes nothing and brings no key. -/
theorem withKeys_unheard {t : Table} (hplain : t.Keyless) {r : Row} (hr : r ∈ t.withKeys)
    (hsource : r.source = .lyric) (hspoken : r.isSpoken = false) :
    r.directive = "" ∧ r.key = none ∧ r.draftText = none := by
  obtain ⟨p, hp, rfl⟩ := List.mem_map.1 (mem_of_mem_setField hr (by rw [hsource]; decide))
  have hkept := sung_annotate t.keyMarks p.1 p.2
  have hkeeps : ∀ {β : Type} (g : Row → β), g (Keys.annotate t.keyMarks p.1 p.2).sung = g p.1.sung :=
    fun g => congrArg g hkept
  have hlyric : p.1.source = .lyric := (hkeeps Row.source).symm.trans hsource
  have hsilent : p.1.isSpoken = false := (hkeeps Row.isSpoken).symm.trans hspoken
  have hmem := List.fst_mem_of_mem_zipIdx hp
  rw [annotate_of_unheard hp (by rw [hlyric]; decide) hsilent]
  exact ⟨hplain.directive p.1 hmem hlyric (Bool.or_eq_false_iff.1 hsilent).1,
    hplain.key p.1 hmem hlyric, hplain.draft p.1 hmem hlyric⟩

theorem knownKey_headingKey (t : Table) : KnownKey (Keys.headingKey t.keyMarks) := by
  unfold Keys.headingKey
  cases hfind : t.keyMarks.find? fun m => m.effect == .heading with
  | none => exact knownKey_default
  | some m => exact (sound_of_mem_keyMarks (List.mem_of_find?_eq_some hfind)).key

theorem fields_withKeys (t : Table) :
    t.withKeys.fields
      = t.fields.map fun f => if f.1 = "K" then (f.1, Keys.headingKey t.keyMarks) else f := by
  simp only [Table.withKeys]
  rw [fields_setField, fields_zipIdx_map]
  · intro p _
    have hsource := congrArg Row.source (sung_annotate t.keyMarks p.1 p.2)
    have hraw := congrArg Row.raw (sung_annotate t.keyMarks p.1 p.2)
    exact ⟨hsource, hraw⟩
  · intro p hp hheader
    rw [annotate_of_unheard hp (by rw [hheader]; decide)]
    simp [Row.isSpoken, Row.isRhythm, Keys.isLyricBarline, hheader]

theorem withKeys_inUnit {t : Table} {heading : Rat}
    (h : Linked Row.isRhythm (Row.InUnit heading) none t) :
    Linked Row.isRhythm (Row.InUnit heading) none t.withKeys := by
  simp only [Table.withKeys]
  rw [linked_setField_iff]
  refine linked_inUnit_zipIdx_map (fun p _ => ?_) h
  have hunit := congrArg Row.unit (keyless_annotate t.keyMarks p.1 p.2)
  exact ⟨sung_annotate t.keyMarks p.1 p.2, hunit⟩

end LyricScore
