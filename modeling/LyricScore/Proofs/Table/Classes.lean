/-
Classes and stretches. The classes of a list collect its elements by key, wherever they stand. In
a table elements of one key stand together, so a class is a stretch of neighbours. `stretches`
cuts a list into such stretches and the elements without a key between them; where all elements
of a key are neighbours, the classes are the stretches that have a key.
-/
import LyricScore.Table.Group

namespace LyricScore

variable {α β κ : Type} [DecidableEq κ]

-- =========================================================== distinct

theorem mem_distinct {a : κ} {l : List κ} : a ∈ distinct l ↔ a ∈ l := by
  induction l with
  | nil => rfl
  | cons b l ih =>
      simp only [distinct, List.mem_cons, List.mem_filter, ih, decide_eq_true_eq]
      by_cases hab : a = b <;> simp [hab]

theorem distinct_sublist (l : List κ) : (distinct l).Sublist l := by
  induction l with
  | nil => exact .slnil
  | cons a l ih => exact (List.filter_sublist.trans ih).cons_cons a

theorem nodup_distinct (l : List κ) : (distinct l).Nodup := by
  induction l with
  | nil => exact List.nodup_nil
  | cons a l ih =>
      refine List.nodup_cons.2 ⟨fun h => ?_, ih.filter _⟩
      exact of_decide_eq_true (List.mem_filter.1 h).2 rfl

theorem filter_ne_distinct {a : κ} {l : List κ} (h : a ∉ l) :
    (distinct l).filter (fun b => decide (b ≠ a)) = distinct l := by
  refine List.filter_eq_self.2 fun b hb => ?_
  rw [decide_eq_true_eq]
  rintro rfl
  exact h (mem_distinct.1 hb)

/-- A key that fills the front of a list and stands nowhere else comes once, and first. -/
theorem distinct_replicate_append {a : κ} {n : Nat} {l : List κ} (hn : n ≠ 0) (h : a ∉ l) :
    distinct (List.replicate n a ++ l) = a :: distinct l := by
  cases n with
  | zero => exact absurd rfl hn
  | succ n =>
      clear hn
      induction n with
      | zero =>
          show a :: (distinct l).filter _ = _
          rw [filter_ne_distinct h]
      | succ n ih =>
          show a :: (distinct (List.replicate (n + 1) a ++ l)).filter _ = _
          rw [ih, List.filter_cons_of_neg (by simp), filter_ne_distinct h]

-- ============================================================ classes

/-- Elements without a key may be left out. -/
theorem classes_filter {key : α → Option κ} {p : α → Bool}
    (hp : ∀ a k, key a = some k → p a = true) (l : List α) :
    classes key (l.filter p) = classes key l := by
  have hkeyed : keyed key (l.filter p) = keyed key l := by
    unfold keyed
    rw [List.filterMap_filter]
    congr 1
    funext a
    cases hk : key a with
    | none => simp
    | some k => rw [if_pos (hp a k hk)]
  unfold classes
  rw [hkeyed]

/-- Classes follow the elements through a map that keeps keys. -/
theorem classes_map {key : α → Option κ} {key' : β → Option κ} {f : α → β} {l : List α}
    (hf : ∀ a ∈ l, key' (f a) = key a) :
    classes key' (l.map f) = (classes key l).map fun c => (c.1, c.2.map f) := by
  have hkeyed : keyed key' (l.map f) = (keyed key l).map fun p => (p.1, f p.2) := by
    induction l with
    | nil => rfl
    | cons a l ih =>
        obtain ⟨ha, hl⟩ := List.forall_mem_cons.1 hf
        have hmore := ih hl
        unfold keyed at hmore ⊢
        rw [List.map_cons, List.filterMap_cons, List.filterMap_cons, ha, hmore]
        cases key a <;> rfl
  unfold classes
  rw [hkeyed]
  simp only [List.map_map, List.filter_map, Function.comp_def]

/-- A class holds the elements of its key. -/
theorem mem_classes {key : α → Option κ} {l : List α} {c : κ × List α} (h : c ∈ classes key l) :
    c.2 = l.filter fun a => decide (key a = some c.1) := by
  obtain ⟨k, -, rfl⟩ := List.mem_map.1 h
  clear h
  dsimp only
  induction l with
  | nil => rfl
  | cons a l ih =>
      unfold keyed at ih ⊢
      rw [List.filterMap_cons, List.filter_cons, ← ih]
      cases hkey : key a with
      | none => rfl
      | some k' => by_cases heq : k' = k <;> simp [heq]

/-- No two classes have one key. -/
theorem nodup_classes (key : α → Option κ) (l : List α) : ((classes key l).map (·.1)).Nodup := by
  unfold classes
  rw [List.map_map]
  exact (List.map_id _).symm ▸ nodup_distinct _

/-- If the keyed elements fall into parts, one behind the other and each with a key of its own,
these parts are the classes. -/
theorem classes_eq_of_parts {key : α → Option κ} {l : List α} {parts : List (κ × List α)}
    (hparts : keyed key l = parts.flatMap fun p => p.2.map fun a => (p.1, a))
    (hne : ∀ p ∈ parts, p.2 ≠ []) (hkeys : (parts.map (·.1)).Nodup) :
    classes key l = parts := by
  unfold classes
  rw [hparts]
  clear hparts
  induction parts with
  | nil => rfl
  | cons part parts ih =>
      obtain ⟨k, as⟩ := part
      obtain ⟨hk, hkeys⟩ := List.nodup_cons.1 hkeys
      have hfirst : (as.map fun a => (k, a)).map (·.1) = List.replicate as.length k := by
        rw [List.map_map, ← List.map_const']
        rfl
      have hlength : as.length ≠ 0 := fun h =>
        hne (k, as) List.mem_cons_self (List.length_eq_zero_iff.1 h)
      have hmore := ih (fun p hp => hne p (List.mem_cons_of_mem _ hp)) hkeys
      -- the keys behind the first part are those of the other parts
      have hlater : ∀ p ∈ parts.flatMap (fun p => p.2.map fun a => (p.1, a)), p.1 ≠ k := by
        rintro p hp rfl
        obtain ⟨part, hpart, hmem⟩ := List.mem_flatMap.1 hp
        obtain ⟨a, -, rfl⟩ := List.mem_map.1 hmem
        exact hk (List.mem_map.2 ⟨part, hpart, rfl⟩)
      simp only [List.flatMap_cons] at hmore ⊢
      generalize parts.flatMap (fun p => p.2.map fun a => (p.1, a)) = later at hmore hlater ⊢
      have hnot : k ∉ later.map (·.1) := fun hmem => by
        obtain ⟨p, hp, hpk⟩ := List.mem_map.1 hmem
        exact hlater p hp hpk
      rw [List.map_append, hfirst, distinct_replicate_append hlength hnot, List.map_cons]
      congr 1
      · have hrest : later.filter (fun p => decide (p.1 = k)) = [] :=
          List.filter_eq_nil_iff.2 fun p hp => by simpa using hlater p hp
        have hown : (as.map fun a => (k, a)).filter (fun p => decide (p.1 = k))
            = as.map fun a => (k, a) := List.filter_eq_self.2 fun p hp => by
          obtain ⟨a, -, rfl⟩ := List.mem_map.1 hp
          simp
        rw [List.filter_append, hrest, hown, List.append_nil, List.map_map]
        exact congrArg (k, ·) (List.map_id _)
      · rw [← hmore]
        refine List.map_congr_left fun j hj => ?_
        have hjk : j ≠ k := by
          rintro rfl
          exact hnot (mem_distinct.1 hj)
        have hown : (as.map fun a => (k, a)).filter (fun p => decide (p.1 = j)) = [] :=
          List.filter_eq_nil_iff.2 fun p hp => by
            obtain ⟨a, -, rfl⟩ := List.mem_map.1 hp
            simpa using fun h => hjk h.symm
        rw [List.filter_append, hown, List.nil_append]

-- ========================================================== stretches

/-- A stretch of a list: neighbours with the same key, or an element without one. -/
inductive Stretch (κ α : Type) where
  | group (key : κ) (first : α) (others : List α)
  | single (a : α)

namespace Stretch

/-- The elements of a stretch. -/
def members : Stretch κ α → List α
  | .group _ first others => first :: others
  | .single a => [a]

/-- The class that a stretch with a key makes. -/
def class? : Stretch κ α → Option (κ × List α)
  | .group key first others => some (key, first :: others)
  | .single _ => none

/-- A stretch whose elements have its key, or none if it has none. -/
def HasKey (key : α → Option κ) : Stretch κ α → Prop
  | .group k first others => ∀ a ∈ first :: others, key a = some k
  | .single a => key a = none

end Stretch

/-- The stretches of a list. -/
def stretches (key : α → Option κ) : List α → List (Stretch κ α)
  | [] => []
  | a :: rest =>
    match key a with
    | none => .single a :: stretches key rest
    | some k =>
      match stretches key rest with
      | .group k' first others :: more =>
        if k = k' then .group k a (first :: others) :: more
        else .group k a [] :: .group k' first others :: more
      | more => .group k a [] :: more

theorem members_stretches (key : α → Option κ) (l : List α) :
    (stretches key l).flatMap Stretch.members = l := by
  induction l with
  | nil => rfl
  | cons a rest ih =>
      unfold stretches
      split
      · rw [List.flatMap_cons, ih]
        rfl
      · split
        · next k hk k' first others more hmore =>
          rw [hmore] at ih
          split
          · rw [← ih]
            rfl
          · rw [← ih]
            rfl
        · rw [List.flatMap_cons, ih]
          rfl

theorem hasKey_of_mem_stretches {key : α → Option κ} {l : List α} :
    ∀ s ∈ stretches key l, s.HasKey key := by
  induction l with
  | nil => exact nofun
  | cons a rest ih =>
      unfold stretches
      split
      · next hk => exact List.forall_mem_cons.2 ⟨hk, ih⟩
      · next k hk =>
        have hown : (Stretch.group k a []).HasKey key := by
          intro b hb
          obtain rfl := List.mem_singleton.1 hb
          exact hk
        split
        · next k' first others more hmore =>
          rw [hmore] at ih
          obtain ⟨hgroup, hrest⟩ := List.forall_mem_cons.1 ih
          split
          · next heq =>
            subst heq
            exact List.forall_mem_cons.2 ⟨List.forall_mem_cons.2 ⟨hk, hgroup⟩, hrest⟩
          · exact List.forall_mem_cons.2 ⟨hown, ih⟩
        · exact List.forall_mem_cons.2 ⟨hown, ih⟩

/-- The first stretch has the key of the first element. -/
theorem stretches_cons_of_key {key : α → Option κ} {a : α} {k : κ} (h : key a = some k)
    (rest : List α) :
    ∃ others more, stretches key (a :: rest) = .group k a others :: more := by
  unfold stretches
  rw [h]
  dsimp only
  split
  · next k' first others more _ =>
    split
    · exact ⟨_, _, rfl⟩
    · exact ⟨_, _, rfl⟩
  · exact ⟨_, _, rfl⟩

/-- All elements of a key are neighbours. -/
def Gathered (key : α → Option κ) (l : List α) : Prop :=
  ∀ a b c k, [a, b, c].Sublist l → key a = some k → key c = some k → key b = some k

/-- In the order of their keys, elements of a key are neighbours. -/
theorem gathered_of_pairwise {ι : Type} {key : α → ι} {le : ι → ι → Prop}
    (hle : ∀ x y, le x y → le y x → x = y) {l : List α}
    (h : l.Pairwise fun a b => le (key a) (key b)) : Gathered (fun a => some (key a)) l := by
  intro a b c k hsub ha hc
  have hpair := h.sublist hsub
  simp only [List.pairwise_cons, List.mem_cons, List.not_mem_nil, or_false] at hpair
  have hab := hpair.1 b (Or.inl rfl)
  have hbc := hpair.2.1 c rfl
  have hac : key a = key c := Option.some.inj (ha.trans hc.symm)
  rw [← ha]
  exact congrArg some (hle _ _ (hac ▸ hbc) hab)

/-- The classes that the stretches of a list make. -/
def gatheredClasses (key : α → Option κ) (l : List α) : List (κ × List α) :=
  (stretches key l).filterMap Stretch.class?

theorem exists_of_mem_gatheredClasses {key : α → Option κ} {l : List α} {c : κ × List α}
    (h : c ∈ gatheredClasses key l) :
    c.2 ≠ [] ∧ ∀ a ∈ c.2, a ∈ l ∧ key a = some c.1 := by
  obtain ⟨s, hs, hc⟩ := List.mem_filterMap.1 h
  cases s with
  | single a => cases hc
  | group k first others =>
      obtain rfl := Option.some.inj hc
      refine ⟨by simp, fun a ha => ⟨?_, hasKey_of_mem_stretches _ hs a ha⟩⟩
      rw [← members_stretches key l]
      exact List.mem_flatMap.2 ⟨_, hs, ha⟩

/-- A key that the next element does not have does not come again. -/
theorem not_mem_keys {key : α → Option κ} {a b : α} {rest : List α} {k : κ}
    (h : Gathered key (a :: b :: rest)) (ha : key a = some k) (hb : key b ≠ some k) :
    k ∉ (gatheredClasses key (b :: rest)).map (·.1) := by
  intro hk
  obtain ⟨c, hc, rfl⟩ := List.mem_map.1 hk
  obtain ⟨hne, hall⟩ := exists_of_mem_gatheredClasses hc
  obtain ⟨d, hd⟩ := List.exists_mem_of_ne_nil _ hne
  obtain ⟨hmem, hkey⟩ := hall d hd
  rcases List.mem_cons.1 hmem with rfl | hmem
  · exact hb hkey
  · refine hb (h a b d c.1 ?_ ha hkey)
    exact ((List.singleton_sublist.2 hmem).cons_cons b).cons_cons a

theorem nodup_gatheredClasses {key : α → Option κ} {l : List α} (h : Gathered key l) :
    ((gatheredClasses key l).map (·.1)).Nodup := by
  induction l with
  | nil => exact List.nodup_nil
  | cons a rest ih =>
      have hrest := ih fun x y z k hsub => h x y z k (hsub.cons a)
      -- a key that starts a stretch of its own stands nowhere behind it
      have hnew : ∀ k, key a = some k →
          (∀ first others more, stretches key rest ≠ .group k first others :: more) →
          k ∉ (gatheredClasses key rest).map (·.1) := by
        intro k hk hfirst
        cases rest with
        | nil => exact List.not_mem_nil
        | cons b rest =>
            refine not_mem_keys h hk fun hb => ?_
            obtain ⟨others, more, hmore⟩ := stretches_cons_of_key hb rest
            exact hfirst b others more hmore
      unfold gatheredClasses at hrest hnew ⊢
      unfold stretches
      split
      · exact hrest
      · next k hk =>
        split
        · next k' first others more hmore =>
          split
          · next heq =>
            subst heq
            rwa [hmore] at hrest
          · next hne =>
            rw [← hmore]
            exact List.nodup_cons.2 ⟨hnew k hk (by rw [hmore]; rintro f o m ⟨⟩; exact hne rfl), hrest⟩
        · next hmore => exact List.nodup_cons.2 ⟨hnew k hk (hmore k), hrest⟩

theorem classes_eq_gatheredClasses {key : α → Option κ} {l : List α} (h : Gathered key l) :
    classes key l = gatheredClasses key l := by
  refine classes_eq_of_parts ?_ (fun c hc => (exists_of_mem_gatheredClasses hc).1)
    (nodup_gatheredClasses h)
  have hkeyed : ∀ ss : List (Stretch κ α), (∀ s ∈ ss, s.HasKey key) →
      keyed key (ss.flatMap Stretch.members)
        = (ss.filterMap Stretch.class?).flatMap fun p => p.2.map fun a => (p.1, a) := by
    intro ss hss
    induction ss with
    | nil => rfl
    | cons s ss ih =>
        obtain ⟨hs, hss⟩ := List.forall_mem_cons.1 hss
        rw [List.flatMap_cons, keyed, List.filterMap_append, ← keyed, ← keyed, ih hss]
        cases s with
        | single a =>
            rw [show keyed key (Stretch.single a : Stretch κ α).members = [] from by
              simp [keyed, Stretch.members, show key a = none from hs]]
            rfl
        | group k first others =>
            have hown : ∀ as : List α, (∀ a ∈ as, key a = some k) →
                keyed key as = as.map fun a => (k, a) := by
              intro as has
              induction as with
              | nil => rfl
              | cons a as ih =>
                  obtain ⟨ha, has⟩ := List.forall_mem_cons.1 has
                  rw [List.map_cons, ← ih has, keyed, List.filterMap_cons, ha]
                  rfl
            show keyed key (first :: others) ++ _ = _
            rw [hown _ hs]
            rfl
  have hall := hkeyed (stretches key l) hasKey_of_mem_stretches
  rwa [members_stretches] at hall

end LyricScore
