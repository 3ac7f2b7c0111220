/-
Linked elements. Rows that take time are compared with the row before them that takes time,
whatever stands between the two: a hold goes on with it, a directive tells what is new against
it. `Linked` is such a property of a whole list, for any notion of an element that takes time.
-/

namespace LyricScore

variable {α β : Type}

/-- The last element of some sort, behind one more. -/
theorem find?_reverse_concat (p : α → Bool) (l : List α) (a : α) :
    (l ++ [a]).reverse.find? p = if p a then some a else l.reverse.find? p := by
  rw [List.reverse_append, List.reverse_singleton, List.singleton_append]
  split
  · next ha => exact List.find?_cons_of_pos ha
  · next ha => exact List.find?_cons_of_neg ha

/-- A property of the elements that take time, each seen with the one before it. -/
def Linked (timed : α → Bool) (R : Option α → α → Prop) : Option α → List α → Prop
  | _, [] => True
  | previous, a :: rest =>
    if timed a then R previous a ∧ Linked timed R (some a) rest else Linked timed R previous rest

namespace Linked

variable {timed : α → Bool} {R S : Option α → α → Prop} {previous : Option α} {l : List α}

theorem nil : Linked timed R previous [] :=
  trivial

theorem cons_iff {a : α} : Linked timed R previous (a :: l)
    ↔ if timed a then R previous a ∧ Linked timed R (some a) l else Linked timed R previous l :=
  Iff.rfl

theorem cons_of_pos {a : α} (ha : timed a = true) :
    Linked timed R previous (a :: l) ↔ R previous a ∧ Linked timed R (some a) l := by
  rw [cons_iff, if_pos ha]

theorem cons_of_neg {a : α} (ha : timed a = false) :
    Linked timed R previous (a :: l) ↔ Linked timed R previous l := by
  rw [cons_iff, if_neg (Bool.eq_false_iff.1 ha)]

theorem imp (hRS : ∀ previous, ∀ a ∈ l, timed a = true → R previous a → S previous a)
    (h : Linked timed R previous l) : Linked timed S previous l := by
  induction l generalizing previous with
  | nil => trivial
  | cons a rest ih =>
      have hrest := fun previous b hb => hRS previous b (List.mem_cons_of_mem a hb)
      rw [cons_iff] at h ⊢
      split
      · next ha =>
        rw [if_pos ha] at h
        exact ⟨hRS previous a List.mem_cons_self ha h.1, ih hrest h.2⟩
      · next ha =>
        rw [if_neg ha] at h
        exact ih hrest h

theorem and (hR : Linked timed R previous l) (hS : Linked timed S previous l) :
    Linked timed (fun p a => R p a ∧ S p a) previous l := by
  induction l generalizing previous with
  | nil => trivial
  | cons a rest ih =>
      rw [cons_iff] at hR hS ⊢
      split
      · next ha =>
        rw [if_pos ha] at hR hS
        exact ⟨⟨hR.1, hS.1⟩, ih hR.2 hS.2⟩
      · next ha =>
        rw [if_neg ha] at hR hS
        exact ih hR hS

theorem congr_timed {timed' : α → Bool} (h : ∀ a ∈ l, timed a = timed' a) :
    Linked timed R previous l ↔ Linked timed' R previous l := by
  induction l generalizing previous with
  | nil => exact Iff.rfl
  | cons a rest ih =>
      obtain ⟨ha, hrest⟩ := List.forall_mem_cons.1 h
      rw [cons_iff, cons_iff, ha]
      split
      · exact and_congr Iff.rfl (ih hrest)
      · exact ih hrest

theorem map_iff {f : β → α} {previous : Option β} {l : List β} :
    Linked timed R (previous.map f) (l.map f)
      ↔ Linked (fun b => timed (f b)) (fun p b => R (p.map f) (f b)) previous l := by
  induction l generalizing previous with
  | nil => exact Iff.rfl
  | cons b rest ih =>
      rw [List.map_cons, cons_iff, cons_iff]
      split
      · exact and_congr Iff.rfl (@ih (some b))
      · exact ih

/-- Elements that take no time do not matter. -/
theorem filter_iff : Linked timed R previous (l.filter timed) ↔ Linked timed R previous l := by
  induction l generalizing previous with
  | nil => exact Iff.rfl
  | cons a rest ih =>
      rw [cons_iff]
      split
      · next ha =>
        rw [List.filter_cons_of_pos ha, cons_of_pos ha]
        exact and_congr Iff.rfl ih
      · next ha =>
        rw [List.filter_cons_of_neg ha]
        exact ih

/-- What holds of linked elements holds of each of them. -/
theorem forall_mem {P : α → Prop} (hR : ∀ previous a, R previous a → P a)
    (h : Linked timed R previous l) : ∀ a ∈ l, timed a = true → P a := by
  induction l generalizing previous with
  | nil => exact fun a ha => absurd ha List.not_mem_nil
  | cons a rest ih =>
      rw [cons_iff] at h
      refine List.forall_mem_cons.2 ⟨fun ha => ?_, ?_⟩
      · rw [if_pos ha] at h
        exact hR previous a h.1
      · split at h
        · exact ih h.2
        · exact ih h

/-- Of the first element that takes time nothing is asked behind it. -/
theorem behind {P : α → Prop} {b : α} (l : List α) :
    Linked timed (fun previous a => previous = none → P a) (some b) l := by
  induction l generalizing b with
  | nil => trivial
  | cons a rest ih =>
      rw [cons_iff]
      split
      · exact ⟨nofun, ih⟩
      · exact ih

/-- The element without one before it is the first that takes time. -/
theorem first (timed : α → Bool) (l : List α) :
    Linked timed (fun previous a => previous = none → l.find? timed = some a) none l := by
  induction l with
  | nil => trivial
  | cons a rest ih =>
      rw [cons_iff]
      split
      · next ha => exact ⟨fun _ => List.find?_cons_of_pos ha, behind rest⟩
      · next ha =>
        rw [List.find?_cons_of_neg ha]
        exact ih

/-- The element before another stands before it. -/
theorem earlier {Q : α → α → Prop} (timed : α → Bool) (h : l.Pairwise Q) :
    Linked timed (fun previous a => ∀ b ∈ previous, b ∈ l ∧ timed b = true ∧ Q b a) none l := by
  suffices hfrom : ∀ (seen rest : List α) (previous : Option α), l = seen ++ rest →
      (∀ b ∈ previous, b ∈ seen ∧ timed b = true) →
      Linked timed (fun previous a => ∀ b ∈ previous, b ∈ l ∧ timed b = true ∧ Q b a) previous rest from
    hfrom [] l none rfl fun b hb => (Option.some_ne_none b hb.symm).elim
  intro seen rest
  induction rest generalizing seen with
  | nil => exact fun _ _ _ => trivial
  | cons a rest ih =>
      intro previous hl hprevious
      have hshift : l = (seen ++ [a]) ++ rest := by rw [hl, List.append_assoc]; rfl
      rw [cons_iff]
      split
      · next ha =>
        refine ⟨fun b hb => ?_, ih (seen ++ [a]) (some a) hshift ?_⟩
        · obtain ⟨hmem, htimed⟩ := hprevious b hb
          rw [hl] at h ⊢
          exact ⟨List.mem_append_left _ hmem, htimed,
            (List.pairwise_append.1 h).2.2 b hmem a List.mem_cons_self⟩
        · rintro b ⟨⟩
          exact ⟨List.mem_append_right _ List.mem_cons_self, ha⟩
      · refine ih (seen ++ [a]) previous hshift fun b hb => ?_
        exact ⟨List.mem_append_left _ (hprevious b hb).1, (hprevious b hb).2⟩

/-- A line goes on behind a part of it whose elements all take time and have what is asked of the
last one. -/
theorem append {P : α → Prop} {rest : List α} (hne : l ≠ [])
    (hl : ∀ a ∈ l, timed a = true ∧ P a) (h : Linked timed R previous l)
    (hrest : ∀ b, P b → Linked timed R (some b) rest) : Linked timed R previous (l ++ rest) := by
  induction l generalizing previous with
  | nil => exact absurd rfl hne
  | cons a l ih =>
      obtain ⟨⟨ha, hPa⟩, hl⟩ := List.forall_mem_cons.1 hl
      rw [cons_of_pos ha] at h
      rw [List.cons_append, cons_of_pos ha]
      refine ⟨h.1, ?_⟩
      cases l with
      | nil => exact hrest a hPa
      | cons b l => exact ih (List.cons_ne_nil b l) hl h.2

/-- A line that starts with elements that all take time: each of them but the first comes behind
one of them, and so does what follows. -/
theorem split {a : α} {rest : List α} (hl : ∀ b ∈ a :: l, timed b = true)
    (h : Linked timed R previous (a :: l ++ rest)) :
    R previous a ∧ (∀ b ∈ l, ∃ c ∈ a :: l, R (some c) b)
      ∧ ∃ c ∈ a :: l, Linked timed R (some c) rest := by
  induction l generalizing previous a with
  | nil =>
      rw [List.cons_append, cons_of_pos (hl a List.mem_cons_self)] at h
      exact ⟨h.1, fun b hb => absurd hb List.not_mem_nil, a, List.mem_cons_self, h.2⟩
  | cons b l ih =>
      obtain ⟨ha, hmore⟩ := List.forall_mem_cons.1 hl
      rw [List.cons_append, cons_of_pos ha] at h
      obtain ⟨hb, hlater, c, hc, hrest⟩ := ih hmore h.2
      refine ⟨h.1, List.forall_mem_cons.2 ⟨⟨a, List.mem_cons_self, hb⟩, fun d hd => ?_⟩,
        c, List.mem_cons_of_mem _ hc, hrest⟩
      obtain ⟨e, he, hR⟩ := hlater d hd
      exact ⟨e, List.mem_cons_of_mem _ he, hR⟩

/-- A part of a line is a line. -/
theorem part {before after : List α} (h : Linked timed R previous (before ++ l ++ after)) :
    ∃ previous', Linked timed R previous' l := by
  induction before generalizing previous with
  | nil =>
      refine ⟨previous, ?_⟩
      rw [List.nil_append] at h
      induction l generalizing previous with
      | nil => trivial
      | cons a l ih =>
          rw [List.cons_append, cons_iff] at h
          rw [cons_iff]
          split
          · next ha =>
            rw [if_pos ha] at h
            exact ⟨h.1, ih h.2⟩
          · next ha =>
            rw [if_neg ha] at h
            exact ih h
  | cons a before ih =>
      rw [List.cons_append, List.cons_append, cons_iff] at h
      split at h
      · exact ih h.2
      · exact ih h

theorem reverse_find?_cons (timed : α → Bool) (previous : Option α) (a : α) (l : List α) :
    ((a :: l).reverse.find? timed).or previous
      = (l.reverse.find? timed).or (if timed a then some a else previous) := by
  rw [List.reverse_cons, List.find?_append, Option.or_assoc]
  congr 1
  split
  · next ha => rw [List.find?_cons_of_pos ha, Option.some_or]
  · next ha => rw [List.find?_cons_of_neg ha, List.find?_nil, Option.none_or]

/-- A line of two parts: what follows the first one comes behind its last element that takes
time. -/
theorem append_iff {rest : List α} :
    Linked timed R previous (l ++ rest) ↔ Linked timed R previous l
      ∧ Linked timed R ((l.reverse.find? timed).or previous) rest := by
  induction l generalizing previous with
  | nil => exact (and_iff_right nil).symm
  | cons a l ih =>
      rw [List.cons_append, reverse_find?_cons, cons_iff, cons_iff]
      split
      · rw [ih, and_assoc]
      · exact ih

/-- Each element that takes time, with the nearest one before it. -/
theorem iff_nearest :
    Linked timed R previous l ↔ ∀ before a after, l = before ++ a :: after → timed a = true →
      R ((before.reverse.find? timed).or previous) a := by
  constructor
  · rintro h before a after rfl ha
    have hrest := (append_iff.1 h).2
    rw [cons_of_pos ha] at hrest
    exact hrest.1
  · intro h
    induction l generalizing previous with
    | nil => trivial
    | cons a l ih =>
        have hlater := @ih (if timed a then some a else previous)
          fun before b after hl hb => by
            rw [← reverse_find?_cons]
            exact h (a :: before) b after (by rw [hl]; rfl) hb
        rw [cons_iff]
        split
        · next ha =>
          rw [if_pos ha] at hlater
          exact ⟨h [] a l rfl ha, hlater⟩
        · next ha =>
          rw [if_neg ha] at hlater
          exact hlater

end Linked

-- Tables are long terms: what is said of them is not to be unfolded on sight.
attribute [irreducible] Linked

end LyricScore
