/-
Scores one behind the other. When the first sound of a score is an attack, nothing that came before
it can be heard in it: put behind other blocks, its rows get the octaves and pitches that they get
alone, and the blocks before it get theirs, only that its blocks have later numbers.

# What is cut

Three things are carried across blocks: where the voice is, the tone that sounds, and the tone of the
last attack. A block that does not go on with a held note starts the voice over, and its first attack
sets both tones. So the two walks agree from that attack on, later blocks that open with a hold
included (`Underlay.Follows`). Before it there are only rows that take no time.
-/
import LyricScore.Proofs.Table.Underlay
import LyricScore.Proofs.Table.Voicing

namespace LyricScore

-- ====================================================== later blocks

/-- A row whose block has moved behind some others. -/
def Row.later (n : Int) (r : Row) : Row :=
  { r with block := r.block + n }

theorem lyricRows_later (n block : Int) (counter : Option Int) (measure beat : Int)
    (items : List LyricItem) :
    lyricRows (block + n) counter measure beat items
      = (lyricRows block counter measure beat items).map (Row.later n) := by
  induction items generalizing measure beat with
  | nil => rfl
  | cons item rest ih =>
      cases item with
      | barline => rw [lyricRows, lyricRows, List.map_cons, ih]; rfl
      | unit m => rw [lyricRows, lyricRows, List.map_cons, ih]; rfl
      | beat b =>
          rw [lyricRows, lyricRows, List.map_append, ih, LyricBeat.rows, LyricBeat.rows, List.map_map]
          rfl

theorem pitchRows_later (n block measure : Int) (items : List PitchItem) :
    pitchRows (block + n) measure items = (pitchRows block measure items).map (Row.later n) := by
  induction items generalizing measure with
  | nil => rfl
  | cons item rest ih => cases item <;> rw [pitchRows, pitchRows, List.map_cons, ih] <;> rfl

theorem Block.rows_later (n number : Int) (b : Block) :
    b.rows (number + n) = (b.rows number).map (Row.later n) := by
  unfold Block.rows
  rw [List.map_append, List.map_append, lyricRows_later, pitchRows_later]
  cases b.pitches.opening <;> rfl

/-- Blocks behind others have the rows that they have alone, with later numbers. -/
theorem Score.layout_append {a b ab : Score} (h : ab.blocks = a.blocks ++ b.blocks) :
    ab.layout = a.layout ++ b.layout.map (Row.later a.blocks.length) := by
  have hshift : ∀ (n start : Nat) (blocks : List Block),
      (blocks.zipIdx (start + n)).flatMap (fun b => b.1.rows b.2)
        = ((blocks.zipIdx start).flatMap fun b => b.1.rows b.2).map (Row.later n) := by
    intro n start blocks
    induction blocks generalizing start with
    | nil => rfl
    | cons b blocks ih =>
        have hnext : start + n + 1 = start + 1 + n := Nat.add_right_comm start n 1
        rw [List.zipIdx_cons, List.zipIdx_cons, List.flatMap_cons, List.flatMap_cons, List.map_append,
          hnext, ih, ← Block.rows_later, Int.natCast_add]
  unfold Score.layout
  rw [h, List.zipIdx_append, List.flatMap_append, hshift]

/-- The rows of a score belong to its blocks, which are numbered from one on. -/
theorem Score.block_of_mem_layout {s : Score} {r : Row} (h : r ∈ s.layout) :
    1 ≤ r.block ∧ r.block ≤ s.blocks.length := by
  obtain ⟨b, hb, hr⟩ := List.mem_flatMap.1 h
  have hblock := Block.block_of_mem_rows hr
  have hlow := List.le_snd_of_mem_zipIdx hb
  have hhigh := List.snd_lt_add_of_mem_zipIdx hb
  omega

namespace Table

variable {a b t : Table} {n block : Int}

theorem firstRhythm?_of_absent (h : ∀ r ∈ t, r.block ≠ block) : t.firstRhythm? block = none := by
  refine List.find?_eq_none.2 fun r hr => ?_
  simp [h r hr]

theorem tones_of_absent (h : ∀ r ∈ t, r.block ≠ block) : t.tones block = [] :=
  List.filterMap_eq_nil_iff.2 fun r hr => if_neg (h r hr)

theorem firstRhythm?_later (t : Table) (n block : Int) :
    Table.firstRhythm? (t.map (Row.later n)) (block + n)
      = (t.firstRhythm? block).map (Row.later n) := by
  unfold Table.firstRhythm?
  rw [List.find?_map]
  congr 2
  funext r
  have hblock : (r.block + n == block + n) = (r.block == block) := by
    rw [Bool.eq_iff_iff, beq_iff_eq, beq_iff_eq]
    omega
  exact congrArg (r.isRhythm && ·) hblock

theorem tones_later (t : Table) (n block : Int) :
    Table.tones (t.map (Row.later n)) (block + n) = t.tones block := by
  unfold Table.tones
  rw [List.filterMap_map]
  congr 1
  funext r
  have hblock : r.block + n = block + n ↔ r.block = block := by omega
  exact if_congr hblock rfl rfl

/-- A block of the first table has nothing in the second. -/
theorem of_append_left (hblock : block ≤ n) (hb : ∀ r ∈ b, 1 ≤ r.block) :
    Table.opensWithHold (a ++ b.map (Row.later n)) block = a.opensWithHold block
      ∧ Table.tones (a ++ b.map (Row.later n)) block = a.tones block := by
  have habsent : ∀ r ∈ b.map (Row.later n), r.block ≠ block := by
    intro r hr
    obtain ⟨q, hq, rfl⟩ := List.mem_map.1 hr
    have hq' := hb q hq
    simp only [Row.later]
    omega
  have hfirst := firstRhythm?_of_absent habsent
  have htones := tones_of_absent habsent
  unfold Table.firstRhythm? at hfirst
  unfold Table.tones at htones
  refine ⟨?_, ?_⟩
  · rw [Table.opensWithHold, Table.firstRhythm?, List.find?_append, hfirst, Option.or_none]
    rfl
  · rw [Table.tones, List.filterMap_append, htones, List.append_nil]
    rfl

/-- A block of the second table has nothing in the first. -/
theorem of_append_right (ha : ∀ r ∈ a, r.block ≤ n) (hblock : 1 ≤ block) :
    Table.opensWithHold (a ++ b.map (Row.later n)) (block + n) = b.opensWithHold block
      ∧ Table.tones (a ++ b.map (Row.later n)) (block + n) = b.tones block := by
  have habsent : ∀ r ∈ a, r.block ≠ block + n := by
    intro r hr
    have hr' := ha r hr
    omega
  have hfirst := firstRhythm?_of_absent habsent
  have htones := tones_of_absent habsent
  have hlater := b.firstRhythm?_later n block
  have htones' := b.tones_later n block
  unfold Table.firstRhythm? at hfirst hlater
  unfold Table.tones at htones htones'
  refine ⟨?_, ?_⟩
  · rw [Table.opensWithHold, Table.firstRhythm?, List.find?_append, hfirst, Option.none_or, hlater,
      Table.opensWithHold, Table.firstRhythm?]
    cases b.find? fun r => r.isRhythm && r.block == block <;> rfl
  · rw [Table.tones, List.filterMap_append, htones, List.nil_append, htones']
    rfl

end Table

-- ====================================================== a fresh start

/-- A table that needs nothing before it: its blocks come in order, numbered from one on, and what is
heard first in the first of them is an attack. -/
structure Table.StartsAfresh (t : Table) : Prop where
  line : ∀ r ∈ t, r.source ≠ .header ∧ 1 ≤ r.block
  ordered : t.Pairwise fun q r => q.block ≤ r.block
  attack : ∃ r, t.firstRhythm? 1 = some r ∧ r.isAttack = true

namespace Table.StartsAfresh

variable {t : Table}

theorem map_untoned : Table.StartsAfresh (t.map Row.untoned) ↔ t.StartsAfresh := by
  have hfirst : Table.firstRhythm? (t.map Row.untoned) 1 = (t.firstRhythm? 1).map Row.untoned :=
    List.find?_map
  constructor
  · intro h
    have hordered := h.ordered
    rw [List.pairwise_map] at hordered
    obtain ⟨r, hr, hattack⟩ := h.attack
    obtain ⟨q, hq, rfl⟩ := Option.map_eq_some_iff.1 (hfirst.symm.trans hr)
    exact ⟨fun r hr => h.line r.untoned (List.mem_map_of_mem hr), hordered, q, hq, hattack⟩
  · intro h
    obtain ⟨r, hr, hattack⟩ := h.attack
    refine ⟨fun r hr => ?_, List.pairwise_map.2 h.ordered, r.untoned, ?_, hattack⟩
    · obtain ⟨r, hmem, rfl⟩ := List.mem_map.1 hr
      exact h.line r hmem
    · rw [hfirst, hr, Option.map_some]

/-- Before the first attack there are only rows that take no time. -/
theorem split (h : t.StartsAfresh) :
    ∃ quiet r rest, t = quiet ++ r :: rest ∧ r.isAttack = true ∧ ∀ q ∈ quiet, q.isRhythm = false := by
  obtain ⟨r, hr, hattack⟩ := h.attack
  obtain ⟨hsort, quiet, rest, rfl, hquiet⟩ := List.find?_eq_some_iff_append.1 hr
  refine ⟨quiet, r, rest, rfl, hattack, fun q hq => ?_⟩
  -- a row before the attack belongs to the first block as well
  have hblock : q.block = 1 := by
    have hlow := (h.line q (by simp [hq])).2
    have hle := (List.pairwise_append.1 h.ordered).2.2 q hq r List.mem_cons_self
    simp only [Bool.and_eq_true, beq_iff_eq] at hsort
    omega
  simpa [hblock] using hquiet q hq

theorem opensWithHold (h : t.StartsAfresh) : t.opensWithHold 1 = false := by
  obtain ⟨r, hr, hattack⟩ := h.attack
  unfold Table.opensWithHold
  rw [hr]
  dsimp only
  simp only [Row.isAttack, Bool.and_eq_true] at hattack
  cases hk : r.kind <;> simp [hk, Kind.isAttack, Kind.isHold] at hattack ⊢

/-- The table starts with its first block. -/
theorem cons (h : t.StartsAfresh) :
    ∃ r rest, t = r :: rest ∧ r.source ≠ .header ∧ r.block = 1 := by
  obtain ⟨q, hq, -⟩ := h.attack
  have hmem := List.mem_of_find?_eq_some hq
  have hsort := List.find?_some hq
  simp only [Bool.and_eq_true, beq_iff_eq] at hsort
  cases t with
  | nil => cases hmem
  | cons r rest =>
      obtain ⟨hsource, hlow⟩ := h.line r List.mem_cons_self
      refine ⟨r, rest, rfl, hsource, ?_⟩
      rcases List.mem_cons.1 hmem with rfl | hmem
      · exact hsort.2
      · have hle := (List.pairwise_cons.1 h.ordered).1 q hmem
        omega

end Table.StartsAfresh

/-- A score whose first block is first heard with an attack starts afresh. -/
theorem Score.startsAfresh {s : Score}
    (h : ∃ r, s.layout.firstRhythm? 1 = some r ∧ r.isAttack = true) : s.layout.StartsAfresh := by
  have hline : ∀ r ∈ s.layout, r.source ≠ .header ∧ 1 ≤ r.block := fun r hr =>
    ⟨(bare_of_mem_layout hr).source, (Score.block_of_mem_layout hr).1⟩
  refine ⟨hline, ?_, h⟩
  refine List.Pairwise.imp_of_mem (fun {q r} hq hr hforward => ?_) s.layout_measured.ordered
  exact hforward.1 (hline q hq).1 (hline r hr).1

-- =========================================================== voicing

/-- Voicing looks up the blocks of the rows only. -/
theorem resolve_congr {continues continues' : Int → Bool} {rows : List Row}
    (h : ∀ r ∈ rows, continues r.block = continues' r.block) (block : Option Int) (v : Voice) :
    Voicing.resolve continues block v rows = Voicing.resolve continues' block v rows := by
  induction rows generalizing block v with
  | nil => rfl
  | cons r rows ih =>
      obtain ⟨hr, hrows⟩ := List.forall_mem_cons.1 h
      have hstart : Voicing.start continues block v r = Voicing.start continues' block v r := by
        rw [Voicing.start, Voicing.start, hr]
      simp only [Voicing.resolve, hstart, ih hrows]

/-- Later blocks get the same octaves. -/
theorem resolve_later (continues : Int → Bool) (n : Int) (block : Option Int) (v : Voice)
    (rows : List Row) :
    Voicing.resolve continues (block.map (· + n)) v (rows.map (Row.later n))
      = (Voicing.resolve (fun block => continues (block + n)) block v rows).map
          (List.map (Row.later n)) := by
  induction rows generalizing block v with
  | nil => rfl
  | cons r rows ih =>
      have henters : Voicing.enters (block.map (· + n)) (r.later n) = Voicing.enters block r := by
        have hsame : (block.map (· + n) != some (r.block + n)) = (block != some r.block) := by
          rw [Bool.eq_iff_iff, bne_iff_ne, bne_iff_ne]
          cases block with
          | none => simp
          | some block => simp
        exact congrArg (r.source != .header && ·) hsame
      have hletter : Voicing.sungLetter? (r.later n) = Voicing.sungLetter? r := rfl
      have hstart : Voicing.start continues (block.map (· + n)) v (r.later n)
          = Voicing.start (fun block => continues (block + n)) block v r := by
        rw [Voicing.start, henters, Voicing.start]
        rfl
      have hblock : (if Voicing.enters block r then some (r.later n).block else block.map (· + n))
          = (if Voicing.enters block r then some r.block else block).map (· + n) := by
        split <;> rfl
      have hshift : (r.later n).shift = r.shift := rfl
      simp only [List.map_cons, Voicing.resolve, henters, hletter, hstart, hblock, hshift, ih]
      generalize Voicing.start (fun block => continues (block + n)) block v r = here
      generalize (if Voicing.enters block r then some r.block else block) = next
      cases Voicing.sungLetter? r with
      | none => cases Voicing.resolve (fun block => continues (block + n)) next here rows <;> rfl
      | some name =>
          dsimp only
          cases Letter.ofName name with
          | error e => rfl
          | ok letter =>
              dsimp only
              cases Voicing.resolve (fun block => continues (block + n)) next
                (here.move letter r.shift) rows <;> rfl

/-- Behind rows of other blocks, a block that does not go on with a held note starts from middle C,
as if nothing were before it. -/
theorem resolve_append {continues : Int → Bool} {r : Row} (hsource : r.source ≠ .header)
    (hr : continues r.block = false) {block : Option Int} (hblock : block ≠ some r.block) (v : Voice)
    {before : List Row} (hbefore : ∀ q ∈ before, q.block ≠ r.block) (rest : List Row) :
    Voicing.resolve continues block v (before ++ r :: rest)
      = Voicing.resolve continues block v before >>= fun out =>
          (Voicing.resolve continues none .middleC (r :: rest)).map (out ++ ·) := by
  induction before generalizing block v with
  | nil =>
      have hline : (r.source != .header) = true := bne_iff_ne.2 hsource
      have henters : Voicing.enters block r = Voicing.enters none r := by
        rw [Voicing.enters, Voicing.enters, bne_iff_ne.2 hblock]
        rfl
      have hstart : Voicing.start continues block v r = Voicing.start continues none .middleC r := by
        rw [Voicing.start, Voicing.start, henters, hr, Voicing.enters, hline]
        rfl
      have hnext : (if Voicing.enters none r then some r.block else block)
          = if Voicing.enters none r then some r.block else none := by
        rw [Voicing.enters, hline]
        rfl
      have hsame : Voicing.resolve continues block v (r :: rest)
          = Voicing.resolve continues none .middleC (r :: rest) := by
        simp only [Voicing.resolve, hstart, henters, hnext]
      rw [List.nil_append, hsame]
      cases Voicing.resolve continues none .middleC (r :: rest) <;> rfl
  | cons q before ih =>
      obtain ⟨hq, hmore⟩ := List.forall_mem_cons.1 hbefore
      have hnext : (if Voicing.enters block q then some q.block else block) ≠ some r.block := by
        split
        · exact fun h => hq (Option.some.inj h)
        · exact hblock
      have hrest := fun v => ih hnext v hmore
      generalize Voicing.resolve continues none .middleC (r :: rest) = tail at hrest ⊢
      generalize hnext' : (if Voicing.enters block q then some q.block else block) = next at hrest
      simp only [List.cons_append, Voicing.resolve, hnext', hrest]
      cases Voicing.sungLetter? q with
      | none => cases Voicing.resolve continues next _ before <;> cases tail <;> rfl
      | some name =>
          dsimp only
          cases Letter.ofName name with
          | error e => rfl
          | ok letter =>
              dsimp only
              cases Voicing.resolve continues next _ before <;> cases tail <;> rfl

namespace Table

variable {a b : Table} {n : Int}

/-- Voicing of two tables, one behind the other. -/
theorem voiced_append (ha : ∀ r ∈ a, r.block ≤ n) (hb : b.StartsAfresh) :
    Table.voiced (a ++ b.map (Row.later n))
      = a.voiced >>= fun out => b.voiced.map fun out' => out ++ out'.map (Row.later n) := by
  have hlow : ∀ r ∈ b, 1 ≤ r.block := fun r hr => (hb.line r hr).2
  have hfirst : Voicing.resolve (Table.opensWithHold (a ++ b.map (Row.later n))) none .middleC a
      = a.voiced := resolve_congr (fun r hr => (of_append_left (ha r hr) hlow).1) none .middleC
  have hsecond : Voicing.resolve (Table.opensWithHold (a ++ b.map (Row.later n))) none .middleC
      (b.map (Row.later n)) = b.voiced.map (List.map (Row.later n)) := by
    rw [← Option.map_none, resolve_later]
    refine congrArg (Except.map _) (resolve_congr (fun r hr => ?_) none .middleC)
    exact (of_append_right ha (hlow r hr)).1
  obtain ⟨r, rest, rfl, hsource, hblock⟩ := hb.cons
  have hcut : Table.opensWithHold (a ++ (r :: rest).map (Row.later n)) (r.later n).block = false :=
    (of_append_right ha (Int.le_of_eq hblock.symm)).1.trans (hblock ▸ hb.opensWithHold)
  have hother : ∀ q ∈ a, q.block ≠ (r.later n).block := by
    intro q hq
    have hq' := ha q hq
    simp only [Row.later, hblock]
    omega
  have happend := resolve_append (r := r.later n) hsource hcut (Option.some_ne_none _).symm .middleC
    hother (rest.map (Row.later n))
  rw [← List.map_cons, hfirst, hsecond] at happend
  rw [Table.voiced, happend]
  cases a.voiced with
  | error e => rfl
  | ok out => cases Table.voiced (r :: rest) <;> rfl

end Table

-- ========================================================== underlay

namespace Underlay

/-- The underlay looks up the blocks of the rows only. -/
theorem run_congr {continues continues' : Int → Bool} {tones tones' : Int → List Tone}
    {rows : List Row}
    (h : ∀ r ∈ rows, continues r.block = continues' r.block ∧ tones r.block = tones' r.block)
    (s : State) : run continues tones s rows = run continues' tones' s rows := by
  induction rows generalizing s with
  | nil => rfl
  | cons r rows ih =>
      obtain ⟨⟨hcontinues, htones⟩, hrows⟩ := List.forall_mem_cons.1 h
      have henter : s.enter continues r = s.enter continues' r := by
        rw [State.enter, State.enter, hcontinues]
      have hstep : ∀ s, step tones s r = step tones' s r := by
        intro s
        simp only [step, htones]
      simp only [run, henter, hstep, ih hrows]

/-- Two states that go on alike, the second one for later blocks: what sounds and what the last
attack sang are the same, and so is how many attacks each block had. -/
structure Follows (n : Int) (s s' : State) : Prop where
  sounding : s'.sounding = s.sounding
  lastAttack : s'.lastAttack = s.lastAttack
  block : s'.block = s.block.map (· + n)
  attacks : ∀ block, 1 ≤ block → s'.attacks.count (block + n) = s.attacks.count block

variable {n : Int} {continues continues' : Int → Bool} {tones tones' : Int → List Tone} {s s' : State}
  {r : Row}

theorem Follows.enter (h : Follows n s s') (hr : continues' (r.block + n) = continues r.block) :
    Follows n (s.enter continues r) (s'.enter continues' (r.later n)) := by
  have hsame : s'.block = some (r.later n).block ↔ s.block = some r.block := by
    rw [h.block]
    cases s.block with
    | none => simp
    | some block => simp [Row.later]
  unfold State.enter
  by_cases hblock : s.block = some r.block
  · rw [if_pos hblock, if_pos (hsame.2 hblock)]
    exact h
  · rw [if_neg hblock, if_neg fun h' => hblock (hsame.1 h')]
    refine ⟨?_, h.lastAttack, rfl, h.attacks⟩
    simp only [Row.later, hr, h.lastAttack]

theorem count_attacks_later
    (h : ∀ block, 1 ≤ block → s'.attacks.count (block + n) = s.attacks.count block) (own block : Int)
    (hblock : 1 ≤ block) :
    ((own + n) :: s'.attacks).count (block + n) = (own :: s.attacks).count block := by
  rw [List.count_cons, List.count_cons, h block hblock]
  congr 1
  refine if_congr ?_ rfl rfl
  rw [beq_iff_eq, beq_iff_eq]
  omega

/-- One row: the states behind it go on alike again, and the same becomes of it. -/
theorem Follows.step (h : Follows n s s') (hr : 1 ≤ r.block)
    (htones : tones' (r.block + n) = tones r.block) :
    Follows n (step tones s r).1 (step tones' s' (r.later n)).1
      ∧ (step tones' s' (r.later n)).2
        = ((step tones s r).2.1.later n, (step tones s r).2.2) := by
  have hattack : (r.later n).isAttack = r.isAttack := rfl
  have hhold : (r.later n).isHold = r.isHold := rfl
  have hkind : (r.later n).kind = r.kind := rfl
  have hblock : (r.later n).block = r.block + n := rfl
  simp only [Underlay.step, hattack, hhold, hkind, hblock, htones, h.attacks r.block hr, h.sounding]
  split
  · cases (tones r.block)[s.attacks.count r.block]? with
    | none => exact ⟨⟨rfl, rfl, h.block, count_attacks_later h.attacks r.block⟩, rfl⟩
    | some tone => exact ⟨⟨rfl, rfl, h.block, count_attacks_later h.attacks r.block⟩, rfl⟩
  split
  · cases s.sounding <;> exact ⟨h, rfl⟩
  split
  · exact ⟨⟨rfl, h.lastAttack, h.block, h.attacks⟩, rfl⟩
  · exact ⟨h, rfl⟩

/-- States that go on alike have the same rows behind them. -/
theorem Follows.run {rows : List Row} (h : Follows n s s')
    (hrows : ∀ r ∈ rows, 1 ≤ r.block ∧ continues' (r.block + n) = continues r.block
      ∧ tones' (r.block + n) = tones r.block) :
    run continues' tones' s' (rows.map (Row.later n))
      = (run continues tones s rows).map fun p => (p.1.later n, p.2) := by
  induction rows generalizing s s' with
  | nil => rfl
  | cons r rows ih =>
      obtain ⟨⟨hblock, hcontinues, htones⟩, hmore⟩ := List.forall_mem_cons.1 hrows
      have hsource : (r.later n).source = r.source := rfl
      rw [List.map_cons, Underlay.run, Underlay.run, hsource]
      split
      · obtain ⟨hnext, hrow⟩ := (h.enter hcontinues).step hblock htones
        dsimp only
        rw [ih hnext hmore, hrow, List.map_cons]
      · rw [ih h hmore, List.map_cons]

/-- Rows that take no time stay as they are. -/
theorem run_quiet (continues : Int → Bool) (tones : Int → List Tone) (s : State) {rows : List Row}
    (h : ∀ r ∈ rows, r.isRhythm = false) :
    run continues tones s rows = rows.map fun r => (r, .other) := by
  induction rows generalizing s with
  | nil => rfl
  | cons r rows ih =>
      obtain ⟨hr, hrows⟩ := List.forall_mem_cons.1 h
      rw [Row.isRhythm_eq, Bool.or_eq_false_iff, Bool.or_eq_false_iff] at hr
      rw [run_cons, outcome_of_other hr.1.1 hr.1.2, ih _ hrows, List.map_cons]

theorem count_attacks_quiet (continues : Int → Bool) (tones : Int → List Tone) (s : State)
    {rows : List Row} (h : ∀ r ∈ rows, r.isRhythm = false) (block : Int) :
    (behind continues tones s rows).attacks.count block = s.attacks.count block := by
  have hnone : Table.countIn rows Row.isAttack block = 0 := by
    refine Table.countIn_eq_zero fun r hr hattack => ?_
    have hquiet := h r hr
    rw [Row.isRhythm_eq, hattack] at hquiet
    cases hquiet
  rw [count_attacks_behind, hnone, Nat.add_zero]

/-- Behind an attack it does not matter what sounded before it. -/
theorem Follows.of_attack (continues continues' : Int → Bool) (hr : r.isAttack = true)
    (hblock : 1 ≤ r.block) (htones : tones' (r.block + n) = tones r.block)
    (h : ∀ block, 1 ≤ block → s'.attacks.count (block + n) = s.attacks.count block) :
    Follows n (advance continues tones s r) (advance continues' tones' s' (r.later n))
      ∧ outcome continues' tones' s' (r.later n)
        = ((outcome continues tones s r).1.later n, (outcome continues tones s r).2) := by
  have hr' : (r.later n).isAttack = true := hr
  have htone : (tones' (r.later n).block)[s'.attacks.count (r.later n).block]?
      = (tones r.block)[s.attacks.count r.block]? := by
    simp only [Row.later, htones, h r.block hblock]
  rw [outcome_of_attack hr' htone, outcome_of_attack hr rfl, advance_of_attack hr' htone,
    advance_of_attack hr rfl]
  refine ⟨⟨rfl, rfl, rfl, count_attacks_later h r.block⟩, ?_⟩
  cases (tones r.block)[s.attacks.count r.block]? <;> rfl

/-- Rows that are first heard with an attack have the same rows behind any two states, as long as
their blocks had as many attacks before. -/
theorem run_later_of_attack {quiet rest : List Row} (hquiet : ∀ q ∈ quiet, q.isRhythm = false)
    (hr : r.isAttack = true)
    (hrows : ∀ q ∈ quiet ++ r :: rest, 1 ≤ q.block ∧ continues' (q.block + n) = continues q.block
      ∧ tones' (q.block + n) = tones q.block)
    (h : ∀ block, 1 ≤ block → s'.attacks.count (block + n) = s.attacks.count block) :
    run continues' tones' s' ((quiet ++ r :: rest).map (Row.later n))
      = (run continues tones s (quiet ++ r :: rest)).map fun p => (p.1.later n, p.2) := by
  have hquiet' : ∀ q ∈ quiet.map (Row.later n), q.isRhythm = false := List.forall_mem_map.2 hquiet
  have hcount : ∀ block, 1 ≤ block →
      (behind continues' tones' s' (quiet.map (Row.later n))).attacks.count (block + n)
        = (behind continues tones s quiet).attacks.count block := by
    intro block hblock
    rw [count_attacks_quiet _ _ _ hquiet', count_attacks_quiet _ _ _ hquiet, h block hblock]
  obtain ⟨hblock, -, htones⟩ := hrows r (by simp)
  obtain ⟨hfollows, houtcome⟩ := Follows.of_attack continues continues' hr hblock htones hcount
  rw [List.map_append, List.map_cons, run_append, run_append, run_cons, run_cons, houtcome,
    hfollows.run fun q hq => hrows q (by simp [hq]), List.map_append, List.map_cons,
    run_quiet _ _ _ hquiet', run_quiet _ _ _ hquiet, List.map_map, List.map_map]
  rfl

end Underlay

namespace Table

variable {a b : Table} {n : Int}

/-- The underlay of two tables, one behind the other. -/
theorem underlaid_append (ha : ∀ r ∈ a, r.block ≤ n) (hb : b.StartsAfresh) :
    Table.underlaid (a ++ b.map (Row.later n))
      = a.underlaid ++ b.underlaid.map fun p => (p.1.later n, p.2) := by
  have hlow : ∀ r ∈ b, 1 ≤ r.block := fun r hr => (hb.line r hr).2
  have hright : ∀ r ∈ b, 1 ≤ r.block
      ∧ Table.opensWithHold (a ++ b.map (Row.later n)) (r.block + n) = b.opensWithHold r.block
      ∧ Table.tones (a ++ b.map (Row.later n)) (r.block + n) = b.tones r.block := fun r hr =>
    ⟨hlow r hr, of_append_right ha (hlow r hr)⟩
  rw [Table.underlaid, Underlay.run_append,
    Underlay.run_congr fun r hr => of_append_left (ha r hr) hlow]
  obtain ⟨quiet, r, rest, rfl, hattack, hquiet⟩ := hb.split
  refine congrArg (a.underlaid ++ ·) (Underlay.run_later_of_attack hquiet hattack hright ?_)
  intro block hblock
  -- no attack of the first table is in a block of the second
  have hnone : a.countIn Row.isAttack (block + n) = 0 := by
    refine Table.countIn_eq_zero fun q hq _ => ?_
    have hq' := ha q hq
    omega
  rw [Underlay.count_attacks_behind, hnone]
  rfl

end Table

-- ============================================================ scores

/-- The rows of a score with their pitches. -/
def Score.sung (s : Score) : Except Error Table :=
  s.layout.voiced.map fun v => v.underlaid.map (·.1)

/-- Pitches are found block by block. Put behind other blocks, a score that is first heard with an
attack gets the rows that it gets alone, in later blocks, and the blocks before it get theirs: no
pitch, octave or held note goes from one to the other. -/
theorem Score.sung_append {a b ab : Score} (hblocks : ab.blocks = a.blocks ++ b.blocks)
    (hspelled : ab.Spelled) (hattack : ∃ r, b.layout.firstRhythm? 1 = some r ∧ r.isAttack = true) :
    ∃ rows rows', a.sung = .ok rows ∧ b.sung = .ok rows'
      ∧ ab.sung = .ok (rows ++ rows'.map (Row.later a.blocks.length)) := by
  have hvoiced : ∀ s : Score, (∀ block ∈ s.blocks, block ∈ ab.blocks) →
      ∃ v, s.layout.voiced = .ok v := fun s hsub => exists_resolve fun r hr hsource =>
    letter_of_mem_layout (fun block hblock => hspelled block (hsub block hblock)) hr hsource
  obtain ⟨v, hv⟩ := hvoiced a fun block hblock => by simp [hblocks, hblock]
  obtain ⟨v', hv'⟩ := hvoiced b fun block hblock => by simp [hblocks, hblock]
  have hfresh := Score.startsAfresh hattack
  have hhigh : ∀ r ∈ a.layout, r.block ≤ a.blocks.length := fun r hr =>
    (Score.block_of_mem_layout hr).2
  -- voicing keeps the blocks, so the underlay finds the tables as the layout made them
  have hhigh' : ∀ r ∈ v, r.block ≤ a.blocks.length := by
    intro r hr
    have hmem : r.untoned ∈ a.layout.map Row.untoned := (resolve_spec hv).1 ▸ List.mem_map_of_mem hr
    obtain ⟨q, hq, heq⟩ := List.mem_map.1 hmem
    have hblock : q.untoned.block = r.untoned.block := congrArg Row.block heq
    exact Int.le_trans (Int.le_of_eq hblock.symm) (hhigh q hq)
  have hfresh' : v'.StartsAfresh := by
    rw [← Table.StartsAfresh.map_untoned, (resolve_spec hv').1]
    exact Table.StartsAfresh.map_untoned.2 hfresh
  refine ⟨_, _, by rw [Score.sung, hv]; rfl, by rw [Score.sung, hv']; rfl, ?_⟩
  rw [Score.sung, Score.layout_append hblocks, Table.voiced_append hhigh hfresh, hv, hv']
  refine congrArg Except.ok ?_
  dsimp only
  rw [Table.underlaid_append hhigh' hfresh', List.map_append, List.map_map, List.map_map]
  rfl

/-- A block that ends on a sounding note, with a pitch to spare. -/
def ringingScore : Score :=
  { blocks :=
      [{ lyrics := [.beat ⟨[.syllable "ah"], 1⟩, .barline]
         pitches := ⟨none, [.pitch ⟨"g", .plain, "^"⟩, .pitch ⟨"c", .plain, ""⟩]⟩
         counter := none }]
    title := "" }

/-- Two blocks, the first of which is first heard behind a barline, and the second with a hold. -/
def freshScore : Score :=
  { blocks :=
      [{ lyrics := [.unit ⟨4, false⟩, .barline, .beat ⟨[.marker .attack, .marker .rest], 2⟩]
         pitches := ⟨none, [.barline, .pitch ⟨"b", .plain, ""⟩]⟩
         counter := some 2 },
       { lyrics := [.beat ⟨[.marker .tie, .marker .attack], 1⟩]
         pitches := ⟨none, [.pitch ⟨"c", .plain, "/"⟩]⟩
         counter := none }]
    title := "Behind" }

/-- The one behind the other. -/
def ringingFreshScore : Score :=
  { blocks := ringingScore.blocks ++ freshScore.blocks, title := "Both" }

theorem Score.sung_append_ringingFreshScore :
    ringingFreshScore.Spelled
      ∧ (∃ r, freshScore.layout.firstRhythm? 1 = some r ∧ r.isAttack = true)
      ∧ ∃ rows rows', ringingScore.sung = .ok rows ∧ freshScore.sung = .ok rows'
        ∧ ringingFreshScore.sung = .ok (rows ++ rows'.map (Row.later 1)) := by
  have hspelled : ringingFreshScore.Spelled := by
    intro b hb p hp
    have hall : ∀ b ∈ ringingFreshScore.blocks, ∀ item ∈ b.pitches.items,
        item ∈ [.barline, .pitch ⟨"g", .plain, "^"⟩, .pitch ⟨"c", .plain, ""⟩,
          .pitch ⟨"b", .plain, ""⟩, .pitch ⟨"c", .plain, "/"⟩] := by decide
    have hitem := hall b hb _ hp
    simp only [List.mem_cons, List.not_mem_nil, or_false, PitchItem.pitch.injEq, reduceCtorEq,
      false_or] at hitem
    rcases hitem with rfl | rfl | rfl | rfl
    · exact ⟨.g, rfl⟩
    · exact ⟨.c, rfl⟩
    · exact ⟨.b, rfl⟩
    · exact ⟨.c, rfl⟩
  have hattack : ∃ r, freshScore.layout.firstRhythm? 1 = some r ∧ r.isAttack = true := ⟨_, rfl, rfl⟩
  exact ⟨hspelled, hattack, Score.sung_append rfl hspelled hattack⟩

end LyricScore
