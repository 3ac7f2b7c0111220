/-
Units in force. A unit mark takes effect where its measure opens, at a row before which no other
row takes time in that measure. So the unit never changes inside a measure; the heading names the
unit of the first row that takes time.
-/
import LyricScore.Proofs.Sequence
import LyricScore.Proofs.Table.Beats

namespace LyricScore

-- ========================================================== openings

/-- A place where a measure opens: the row there takes time, and no row before it that takes time
belongs to its measure. -/
def Table.Opens (t : Table) (place : Nat) : Prop :=
  ∃ before r after, t = before ++ r :: after ∧ before.length = place ∧ r.isRhythm = true
    ∧ ∀ q ∈ before, q.isRhythm = true → q.measureKey? ≠ r.measureKey?

/-- A place between the measures of a block. -/
def Parted (block : Int) (before after : List Row) : Prop :=
  ∀ q ∈ before, ∀ r ∈ after, q.isRhythm = true → r.isRhythm = true →
    q.block = block → r.block = block → q.measure ≠ r.measure

theorem firstRhythm?_spec {block : Int} {index place : Nat} {rows : List Row}
    (h : Units.firstRhythm? block index rows = some place) :
    ∃ (before : List Row) (r : Row) (after : List Row), rows = before ++ r :: after
      ∧ index + before.length = place ∧ r.isRhythm = true ∧ r.block = block ∧ ∀ q ∈ before, q.isRhythm = false := by
  induction rows generalizing index with
  | nil => cases h
  | cons r rest ih =>
      have hskip : r.isRhythm = false → Units.firstRhythm? block (index + 1) rest = some place →
          ∃ (before : List Row) (r' : Row) (after : List Row), r :: rest = before ++ r' :: after
            ∧ index + before.length = place ∧ r'.isRhythm = true ∧ r'.block = block ∧ ∀ q ∈ before, q.isRhythm = false := by
        intro hr hrest
        obtain ⟨before, r', after, rfl, rfl, hrhythm, hblock, hbefore⟩ := ih hrest
        exact ⟨r :: before, r', after, rfl, by rw [List.length_cons]; omega, hrhythm, hblock,
          List.forall_mem_cons.2 ⟨hr, hbefore⟩⟩
      unfold Units.firstRhythm? at h
      split at h
      · cases h
      next hblock =>
      split at h
      · next hsource => exact hskip (by simp [Row.isRhythm, hsource]) h
      split at h
      · cases h
      split at h
      · next hrhythm =>
        obtain rfl := Option.some.inj h
        exact ⟨[], r, rest, rfl, rfl, hrhythm, Decidable.not_not.1 hblock,
          fun q hq => absurd hq List.not_mem_nil⟩
      · next hrhythm => exact hskip (by simpa using hrhythm) h

/-- The first row that takes time behind a place between measures opens one. -/
theorem Parted.opens {before after : List Row} {block : Int} {place : Nat}
    (h : Parted block before after)
    (hmeasure : ∀ r ∈ after, r.isRhythm = true → ∃ measure, r.measure = some measure)
    (hfirst : Units.firstRhythm? block before.length after = some place) :
    Table.Opens (before ++ after) place := by
  obtain ⟨silent, r, later, rfl, rfl, hrhythm, hblock, hsilent⟩ := firstRhythm?_spec hfirst
  refine ⟨before ++ silent, r, later, (List.append_assoc _ _ _).symm, List.length_append, hrhythm,
    fun q hq hqr heq => ?_⟩
  have hmem : r ∈ silent ++ r :: later := List.mem_append_right _ List.mem_cons_self
  rcases List.mem_append.1 hq with hq | hq
  · obtain ⟨measure, hm⟩ := hmeasure r hmem hrhythm
    rw [measureKey?_eq_some (k := ⟨block, measure⟩) |>.2 ⟨hrhythm, hblock, hm⟩] at heq
    obtain ⟨-, hqb, hqm⟩ := measureKey?_eq_some.1 heq
    exact h q hq r hmem hqr hrhythm hqb hblock (hqm.trans hm.symm)
  · rw [hsilent q hq] at hqr
    cases hqr

/-- A barline parts the measures of its block. -/
theorem Table.Measured.parted_barline {before after : List Row} {r : Row}
    (h : Table.Measured (before ++ r :: after)) (hr : Keys.isLyricBarline r = true) :
    Parted r.block (before ++ [r]) after := by
  have hbar : r.isRhythm = false := Bool.eq_false_iff.2 fun hrhythm => by
    rw [isLyricBarline_of_isRhythm hrhythm] at hr
    cases hr
  have hspoken : r.isSpoken = true := by
    rw [Row.isSpoken, hr, Bool.or_true]
  intro q hq r' hr' hqr hr'r hqb hr'b heq
  rcases List.mem_append.1 hq with hq | hq
  · obtain ⟨-, hpair, hacross⟩ := List.pairwise_append.1 h.ordered
    have hfirst := (hacross q hq r List.mem_cons_self).2 (isSpoken_of_isRhythm hqr) hspoken
      (Or.inl hqr) hqb
    have hsecond := ((List.pairwise_cons.1 hpair).1 r' hr').2 hspoken (isSpoken_of_isRhythm hr'r)
      (Or.inr hr'r) hr'b.symm
    rw [measureRank_of_isRhythm hqr, heq] at hfirst
    simp only [Row.measureRank, hr, if_pos] at hsecond
    omega
  · obtain rfl := List.mem_singleton.1 hq
    rw [hbar] at hqr
    cases hqr

-- ====================================================== declarations

/-- A declaration comes from the text of a mark, and takes effect at the first row that takes time
from some place on. -/
theorem exists_of_mem_declarations {t : Table} {block : Option Int} {start : Nat}
    {rows : List PlacedRow} {ds : List Declaration}
    (h : Units.declarations t block start rows = .ok ds) :
    ∀ d ∈ ds, ∃ unit place, declaredUnit? d.raw = .ok unit ∧ d.unit = unit.getD defaultUnit
      ∧ d.target = Units.firstRhythm? d.block place (t.drop place) := by
  induction rows generalizing block start ds with
  | nil =>
      obtain rfl := Except.ok.inj h
      exact fun d hd => absurd hd List.not_mem_nil
  | cons p rows ih =>
      obtain ⟨r, index⟩ := p
      unfold Units.declarations at h
      split at h
      · exact ih h
      dsimp only at h
      split at h
      · exact ih h
      split at h
      · split at h
        · cases h
        next unit hunit =>
        split at h
        · cases h
        next more hmore =>
        obtain rfl := Except.ok.inj h
        exact List.forall_mem_cons.2 ⟨⟨unit, _, hunit, rfl, rfl⟩, ih hmore⟩
      · exact ih h

theorem markedUnit?_pos {n : Nat} {dotted : Bool} {unit : Rat}
    (h : markedUnit? n dotted = some unit) : 0 < unit := by
  unfold markedUnit? at h
  split at h <;> cases h <;> grind

theorem defaultUnit_pos : 0 < defaultUnit := by
  unfold defaultUnit
  grind

theorem declaredUnit?_pos {text : String} {unit : Option Rat} (h : declaredUnit? text = .ok unit) :
    0 < unit.getD defaultUnit := by
  unfold declaredUnit? at h
  split at h
  · obtain rfl := Except.ok.inj h
    exact defaultUnit_pos
  · split at h
    · cases h
    · next n _ =>
      obtain rfl := Except.ok.inj h
      cases hunit : markedUnit? n _ with
      | none => exact defaultUnit_pos
      | some unit => exact markedUnit?_pos hunit

/-- What a declaration says: a unit, and if it takes effect, a place where a measure opens. -/
def Declaration.Sound (t : Table) (d : Declaration) : Prop :=
  0 < d.unit ∧ ∀ place, d.target = some place → t.Opens place

/-- What is known between the rows seen and those that follow: `block` is that of the last lyric
row, and the measure at hand started at `start`. -/
structure Units.Reached (t : Table) (seen : List Row) (block : Option Int) (start : Nat) : Prop where
  known : ∀ q ∈ seen, q.source = .lyric → ∃ c, block = some c ∧ q.block ≤ c
  last : ∀ c, block = some c → ∃ q ∈ seen, q.source = .lyric ∧ q.block = c
  bound : start ≤ seen.length
  parted : ∀ c, block = some c → Parted c (t.take start) (t.drop start)

namespace Units.Reached

variable {t : Table} {seen rest : List Row} {block : Option Int} {start : Nat} {r : Row}

/-- A row of another line changes nothing. -/
theorem pass (h : Reached t seen block start) (hr : r.source ≠ .lyric) :
    Reached t (seen ++ [r]) block start where
  known q hq hsource := by
    rcases List.mem_append.1 hq with hq | hq
    · exact h.known q hq hsource
    · obtain rfl := List.mem_singleton.1 hq
      exact absurd hsource hr
  last c hc := by
    obtain ⟨q, hq, hq'⟩ := h.last c hc
    exact ⟨q, List.mem_append_left _ hq, hq'⟩
  bound := by
    have := h.bound
    rw [List.length_append]
    omega
  parted := h.parted

/-- A lyric row may be the first one of its block; then a measure starts with it. -/
theorem parted_enter (ht : Table.Measured (seen ++ r :: rest))
    (h : Reached (seen ++ r :: rest) seen block start) (hr : r.source = .lyric) :
    Parted r.block ((seen ++ r :: rest).take (if block = some r.block then start else seen.length))
      ((seen ++ r :: rest).drop (if block = some r.block then start else seen.length)) := by
  split
  · next hblock => exact h.parted r.block hblock
  · next hblock =>
    rw [List.take_left, List.drop_left]
    intro q hq r' hr' hqr _ hqb
    -- the blocks of lyric rows grow, so none of the rows seen is of this one
    exfalso
    have hlyric : ∀ {r : Row}, r.isRhythm = true → r.source = .lyric := fun h => by
      simp only [Row.isRhythm, Bool.and_eq_true, beq_iff_eq] at h
      exact h.1
    obtain ⟨c, hc, hle⟩ := h.known q hq (hlyric hqr)
    obtain ⟨q', hq', hsource', rfl⟩ := h.last c hc
    have hacross := (List.pairwise_append.1 ht.ordered).2.2 q' hq' r List.mem_cons_self
    have hle' := hacross.1 (by rw [hsource']; decide) (by rw [hr]; decide)
    have hne : q'.block ≠ r.block := fun heq => hblock (heq ▸ hc)
    omega

/-- Behind a lyric row its block is the one at hand. -/
theorem step (ht : Table.Measured (seen ++ r :: rest)) (hr : r.source = .lyric) {start' : Nat}
    (hbound : start' ≤ seen.length + 1)
    (hparted : Parted r.block ((seen ++ r :: rest).take start') ((seen ++ r :: rest).drop start')) :
    Reached (seen ++ r :: rest) (seen ++ [r]) (some r.block) start' where
  known q hq hsource := by
    refine ⟨r.block, rfl, ?_⟩
    rcases List.mem_append.1 hq with hq | hq
    · have hacross := (List.pairwise_append.1 ht.ordered).2.2 q hq r List.mem_cons_self
      exact hacross.1 (by rw [hsource]; decide) (by rw [hr]; decide)
    · obtain rfl := List.mem_singleton.1 hq
      exact Int.le_refl _
  last c hc := ⟨r, List.mem_append_right _ List.mem_cons_self, hr, Option.some.inj hc⟩
  bound := by simpa using hbound
  parted c hc := Option.some.inj hc ▸ hparted

end Units.Reached

theorem declarations_sound_from {t : Table} (ht : t.Measured) {seen rest : List Row}
    {block : Option Int} {start : Nat} {ds : List Declaration} (hsplit : t = seen ++ rest)
    (hreached : Units.Reached t seen block start)
    (hds : Units.declarations t block start (rest.zipIdx seen.length) = .ok ds) :
    ∀ d ∈ ds, d.Sound t := by
  induction rest generalizing seen block start ds with
  | nil =>
      obtain rfl := Except.ok.inj hds
      exact fun d hd => absurd hd List.not_mem_nil
  | cons r rest ih =>
      subst hsplit
      have hshift : seen ++ r :: rest = (seen ++ [r]) ++ rest := by simp
      have hlength : seen.length + 1 = (seen ++ [r]).length := by simp
      rw [List.zipIdx_cons, hlength] at hds
      simp only [Units.declarations] at hds
      split at hds
      · next hsource => exact ih hshift (hreached.pass hsource) hds
      next hsource =>
      have hlyric := Decidable.not_not.1 hsource
      have hparted := hreached.parted_enter ht hlyric
      have hbound : (if block = some r.block then start else seen.length) ≤ seen.length := by
        split
        · exact hreached.bound
        · exact Nat.le_refl _
      generalize (if block = some r.block then start else seen.length) = start' at hds hparted hbound
      split at hds
      · next hbar =>
        refine ih hshift (Units.Reached.step ht hlyric (Nat.le_refl _) ?_) hds
        have htake : (seen ++ r :: rest).take (seen.length + 1) = seen ++ [r] := by
          rw [hshift, hlength, List.take_left]
        have hdrop : (seen ++ r :: rest).drop (seen.length + 1) = rest := by
          rw [hshift, hlength, List.drop_left]
        rw [htake, hdrop]
        exact ht.parted_barline (by simp [Keys.isLyricBarline, hlyric, hbar])
      have hnext := Units.Reached.step ht hlyric (Nat.le_succ_of_le hbound) hparted
      split at hds
      · split at hds
        · cases hds
        next unit hunit =>
        split at hds
        · cases hds
        next more hmore =>
        obtain rfl := Except.ok.inj hds
        refine List.forall_mem_cons.2 ⟨⟨declaredUnit?_pos hunit, fun place hplace => ?_⟩,
          ih hshift hnext hmore⟩
        have hstart : ((seen ++ r :: rest).take start').length = start' := by
          rw [List.length_take, List.length_append, List.length_cons]
          omega
        have hfirst : Units.firstRhythm? r.block ((seen ++ r :: rest).take start').length
            ((seen ++ r :: rest).drop start') = some place := by
          rw [hstart]
          exact hplace
        have hopens := hparted.opens (fun q hq => ht.measure q (List.mem_of_mem_drop hq)) hfirst
        rwa [List.take_append_drop] at hopens
      · exact ih hshift hnext hds

/-- Every declaration that takes effect does so where a measure opens. -/
theorem declarations_sound {t : Table} (ht : t.Measured) {ds : List Declaration}
    (hds : t.declarations = .ok ds) : ∀ d ∈ ds, d.Sound t :=
  declarations_sound_from ht (List.nil_append t).symm
    ⟨fun _ hq => absurd hq List.not_mem_nil, fun c hc => (Option.some_ne_none c hc.symm).elim,
      Nat.le_refl _, fun c hc => (Option.some_ne_none c hc.symm).elim⟩ hds

-- ============================================================ spread

/-- What the unit of a row is: the heading's for the first row that takes time, and that of the
row before it inside a measure. -/
def Row.InUnit (heading : Rat) (previous : Option Row) (r : Row) : Prop :=
  ∃ unit, r.unit = some unit ∧ 0 < unit ∧ (previous = none → unit = heading)
    ∧ ∀ q ∈ previous, q.measureKey? = r.measureKey? → q.unit = some unit

theorem effectiveUnit_of_unit {r : Row} {unit : Rat} (h : r.unit = some unit) (hpos : 0 < unit) :
    r.effectiveUnit = unit := by
  unfold Row.effectiveUnit
  rw [h]
  exact if_neg (Rat.ne_of_gt hpos)

theorem declaredAt?_eq_some {ds : List Declaration} {index : Nat} {unit : Rat}
    (h : Units.declaredAt? ds index = some unit) :
    ∃ d ∈ ds, d.target = some index ∧ d.unit = unit := by
  obtain ⟨d, hd, rfl⟩ := Option.map_eq_some_iff.1 h
  obtain ⟨hmem, htarget⟩ := List.mem_filter.1 (List.mem_of_getLast? hd)
  exact ⟨d, hmem, of_decide_eq_true htarget, rfl⟩

/-- A place where a measure opens, in a table that is cut there. -/
theorem Table.Opens.split {seen rest : List Row} {r : Row}
    (h : Table.Opens (seen ++ r :: rest) seen.length) :
    r.isRhythm = true ∧ ∀ q ∈ seen, q.isRhythm = true → q.measureKey? ≠ r.measureKey? := by
  obtain ⟨before, r', after, heq, hlength, hrhythm, hbefore⟩ := h
  obtain ⟨rfl, htail⟩ := List.append_inj heq hlength.symm
  obtain ⟨rfl, -⟩ := List.cons.inj htail
  exact ⟨hrhythm, hbefore⟩

/-- The row at a place with its unit and with what is declared there. -/
def Units.spreadRow (ds : List Declaration) (unit : Rat) (index : Nat) (r : Row) : Row :=
  { r with
    declared := (declaredAt? ds index).or r.declared
    unit := if r.isRhythm then some ((declaredAt? ds index).getD unit) else r.unit }

theorem Units.spread_cons_eq (ds : List Declaration) (unit : Rat) (r : Row) (index : Nat)
    (rest : List PlacedRow) :
    spread ds unit ((r, index) :: rest)
      = spreadRow ds unit index r :: spread ds ((declaredAt? ds index).getD unit) rest := by
  simp only [spread, spreadRow]
  congr 1
  by_cases hrhythm : r.isRhythm = true
  · rw [if_pos hrhythm]
    exact if_pos hrhythm
  · rw [if_neg hrhythm]
    exact if_neg hrhythm

/-- What happens to one row: it gets its unit and what is declared there. -/
theorem spread_cons (ds : List Declaration) (unit : Rat) (r : Row) (index : Nat)
    (rest : List PlacedRow) :
    ∃ unit' declared', Units.spread ds unit ((r, index) :: rest)
        = { r with unit := unit', declared := declared' }
          :: Units.spread ds ((Units.declaredAt? ds index).getD unit) rest
      ∧ (r.isRhythm = true → unit' = some ((Units.declaredAt? ds index).getD unit)) :=
  ⟨_, _, Units.spread_cons_eq ds unit r index rest, fun hrhythm => if_pos hrhythm⟩

/-- The unit stays the same inside a measure. -/
theorem spread_linked {t : Table} {ds : List Declaration} (hds : ∀ d ∈ ds, d.Sound t)
    {seen rest : List Row} {unit : Rat} {previous : Option Row} (hsplit : t = seen ++ rest)
    (hunit : 0 < unit)
    (hprevious : ∀ q ∈ previous, q.unit = some unit
      ∧ ∃ q' ∈ seen, q'.isRhythm = true ∧ q'.measureKey? = q.measureKey?) :
    Linked Row.isRhythm (fun previous r => ∃ unit, r.unit = some unit ∧ 0 < unit
        ∧ ∀ q ∈ previous, q.measureKey? = r.measureKey? → q.unit = some unit) previous
      (Units.spread ds unit (rest.zipIdx seen.length)) := by
  induction rest generalizing seen unit previous with
  | nil => exact Linked.nil
  | cons r rest ih =>
      subst hsplit
      have hshift : seen ++ r :: rest = (seen ++ [r]) ++ rest := by simp
      have hlength : seen.length + 1 = (seen ++ [r]).length := by simp
      have hkept : ∀ q ∈ previous, ∃ q' ∈ seen ++ [r], q'.isRhythm = true
          ∧ q'.measureKey? = q.measureKey? := fun q hq => by
        obtain ⟨-, q', hq', hkey⟩ := hprevious q hq
        exact ⟨q', List.mem_append_left _ hq', hkey⟩
      have hopens : ∀ u, Units.declaredAt? ds seen.length = some u → 0 < u ∧ r.isRhythm = true
          ∧ ∀ q ∈ seen, q.isRhythm = true → q.measureKey? ≠ r.measureKey? := by
        intro u hu
        obtain ⟨d, hd, htarget, rfl⟩ := declaredAt?_eq_some hu
        exact ⟨(hds d hd).1, ((hds d hd).2 _ htarget).split⟩
      have hpos : 0 < (Units.declaredAt? ds seen.length).getD unit := by
        cases hu : Units.declaredAt? ds seen.length with
        | none => exact hunit
        | some u => exact (hopens u hu).1
      obtain ⟨unit', declared', hspread, hunit'⟩ :=
        spread_cons ds unit r seen.length (rest.zipIdx (seen ++ [r]).length)
      rw [List.zipIdx_cons, hlength, hspread, Linked.cons_iff]
      split
      · next hrhythm =>
        obtain rfl := hunit' hrhythm
        refine ⟨⟨_, rfl, hpos, fun q hq hkey => ?_⟩, ih hshift hpos ?_⟩
        · obtain ⟨hq', q', hmem, hq'r, hq'k⟩ := hprevious q hq
          cases hu : Units.declaredAt? ds seen.length with
          | none => exact hq'
          | some u => exact absurd (hq'k.trans hkey) ((hopens u hu).2.2 q' hmem hq'r)
        · rintro q ⟨⟩
          exact ⟨rfl, r, by simp, hrhythm, rfl⟩
      · next hrhythm =>
        have hnone : Units.declaredAt? ds seen.length = none := by
          cases hu : Units.declaredAt? ds seen.length with
          | none => rfl
          | some u => exact absurd (hopens u hu).2.1 hrhythm
        rw [hnone]
        exact ih hshift hunit fun q hq => ⟨(hprevious q hq).1, hkept q hq⟩

/-- The units of a table: the heading has that of the first row that takes time, and inside a
measure the unit stays the same. -/
theorem withUnitsOf_linked {t : Table} (ht : t.Measured) {ds : List Declaration}
    (hds : t.declarations = .ok ds) :
    Linked Row.isRhythm (Row.InUnit (Units.headingUnit ds (Units.spread ds defaultUnit t.zipIdx))) none
      (t.withUnitsOf ds) := by
  simp only [Table.withUnitsOf]
  rw [linked_setField_iff]
  have hlinked := @spread_linked t ds (declarations_sound ht hds) [] t defaultUnit none rfl
    defaultUnit_pos (fun q hq => (Option.some_ne_none q hq.symm).elim)
  have hfirst := Linked.first Row.isRhythm (Units.spread ds defaultUnit t.zipIdx)
  refine (hlinked.and hfirst).imp fun previous r hr hrhythm ⟨⟨unit, hunit, hpos, hsame⟩, hfirst⟩ => ?_
  refine ⟨unit, hunit, hpos, fun hnone => ?_, hsame⟩
  rw [Units.headingUnit, hfirst hnone]
  simp [hunit]

theorem fields_withUnitsOf (t : Table) (ds : List Declaration) :
    (t.withUnitsOf ds).fields = t.fields.map fun f => if f.1 = "L" then (f.1, unitText
      (Units.headingUnit ds (Units.spread ds defaultUnit t.zipIdx))) else f := by
  have hspread : ∀ (ps : List PlacedRow) (unit : Rat),
      Table.fields (Units.spread ds unit ps) = Table.fields (ps.map (·.1)) := by
    intro ps
    induction ps with
    | nil => exact fun _ => rfl
    | cons p ps ih =>
        intro unit
        obtain ⟨unit', declared', hspread, -⟩ := spread_cons ds unit p.1 p.2 ps
        rw [hspread, List.map_cons, fields_cons, fields_cons, ih]
  simp only [Table.withUnitsOf]
  rw [fields_setField, hspread, List.zipIdx_map_fst]

/-- Rows of the lines get nothing but their units. -/
theorem mem_withUnitsOf {t : Table} {ds : List Declaration} {r : Row}
    (h : r ∈ t.withUnitsOf ds) (hr : r.source ≠ .header) :
    ∃ q ∈ t, ∃ unit declared, r = { q with unit := unit, declared := declared } := by
  have hspread : ∀ (ps : List PlacedRow) (unit : Rat), r ∈ Units.spread ds unit ps →
      ∃ p ∈ ps, ∃ unit declared, r = { p.1 with unit := unit, declared := declared } := by
    intro ps
    induction ps with
    | nil => exact fun _ h => absurd h List.not_mem_nil
    | cons p ps ih =>
        intro unit hmem
        obtain ⟨unit', declared', hspread, -⟩ := spread_cons ds unit p.1 p.2 ps
        rw [hspread] at hmem
        rcases List.mem_cons.1 hmem with rfl | hmem
        · exact ⟨p, List.mem_cons_self, unit', declared', rfl⟩
        · obtain ⟨q, hq, hr⟩ := ih _ hmem
          exact ⟨q, List.mem_cons_of_mem _ hq, hr⟩
  obtain ⟨p, hp, hr⟩ := hspread _ _ (mem_of_mem_setField h hr)
  exact ⟨p.1, List.fst_mem_of_mem_zipIdx hp, hr⟩

/-- A stage that keeps units and measures keeps what is known of the units. -/
theorem linked_inUnit_zipIdx_map {t : Table} {f : PlacedRow → Row} {heading : Rat}
    (hf : ∀ p ∈ t.zipIdx, (f p).sung = p.1.sung ∧ (f p).unit = p.1.unit)
    (h : Linked Row.isRhythm (Row.InUnit heading) none t) :
    Linked Row.isRhythm (Row.InUnit heading) none (t.zipIdx.map f) := by
  rw [linked_zipIdx_map_iff fun p hp => (keys_of_sung (hf p hp).1).1]
  have hearlier := Linked.earlier (fun p : PlacedRow => p.1.isRhythm) (pairwise_place t)
  refine ((linked_zipIdx_iff.1 h).and hearlier).imp fun previous p hp _ ⟨hin, hbefore⟩ => ?_
  obtain ⟨unit, hunit, hpos, hfirst, hsame⟩ := hin
  refine ⟨unit, (hf p hp).2.trans hunit, hpos, fun hnone => hfirst ?_, fun q hq hkey => ?_⟩
  · rw [Option.map_eq_none_iff] at hnone ⊢
    exact hnone
  · obtain ⟨q, hprevious, rfl⟩ := Option.map_eq_some_iff.1 hq
    have hqmem := (hbefore q hprevious).1
    rw [(keys_of_sung (hf q hqmem).1).2.2, (keys_of_sung (hf p hp).1).2.2] at hkey
    rw [(hf q hqmem).2]
    exact hsame q.1 (Option.map_eq_some_iff.2 ⟨q, hprevious, rfl⟩) hkey

end LyricScore
