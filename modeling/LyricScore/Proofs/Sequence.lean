/-
Reading a list element by element. A computation that may fail succeeds on a whole list exactly
when it succeeds on every element, with the results in order; otherwise it fails as it does on
the first element on which it fails.
-/

namespace LyricScore

variable {ε α β : Type}

/-- A sequence of two computations succeeds when both do. -/
theorem bind_eq_ok {x : Except ε α} {f : α → Except ε β} {b : β} :
    (x >>= f) = .ok b ↔ ∃ a, x = .ok a ∧ f a = .ok b := by
  cases x with
  | error e =>
      refine ⟨fun h => ?_, fun h => ?_⟩
      · cases h
      · obtain ⟨a, ha, -⟩ := h
        cases ha
  | ok a =>
      refine ⟨fun h => ⟨a, rfl, h⟩, fun h => ?_⟩
      obtain ⟨b, hb, hf⟩ := h
      obtain rfl := Except.ok.inj hb
      exact hf

/-- A sequence of two computations fails as the first of them that fails. -/
theorem bind_eq_error {x : Except ε α} {f : α → Except ε β} {e : ε} :
    (x >>= f) = .error e ↔ x = .error e ∨ ∃ a, x = .ok a ∧ f a = .error e := by
  cases x with
  | error d =>
      refine ⟨fun h => Or.inl ?_, fun h => ?_⟩
      · exact congrArg Except.error (Except.error.inj h)
      · rcases h with h | ⟨a, ha, -⟩
        · exact congrArg Except.error (Except.error.inj h)
        · cases ha
  | ok a =>
      refine ⟨fun h => Or.inr ⟨a, rfl, h⟩, fun h => ?_⟩
      rcases h with h | ⟨b, hb, hf⟩
      · cases h
      · obtain rfl := Except.ok.inj hb
        exact hf

theorem map_eq_ok {x : Except ε α} {f : α → β} {b : β} :
    x.map f = .ok b ↔ ∃ a, x = .ok a ∧ f a = b := by
  cases x with
  | error e => simp [Except.map]
  | ok a => simp [Except.map]

/-- A list is read when each element is. -/
theorem mapM_eq_ok {f : α → Except ε β} {l : List α} {out : List β} :
    l.mapM f = .ok out ↔ l.map f = out.map .ok := by
  induction l generalizing out with
  | nil =>
      cases out with
      | nil => exact ⟨fun _ => rfl, fun _ => rfl⟩
      | cons b out => exact ⟨nofun, nofun⟩
  | cons a l ih =>
      rw [List.mapM_cons, bind_eq_ok, List.map_cons]
      refine ⟨fun h => ?_, fun h => ?_⟩
      · obtain ⟨b, hb, hrest⟩ := h
        obtain ⟨more, hmore, hout⟩ := bind_eq_ok.1 hrest
        obtain rfl := Except.ok.inj hout
        rw [hb, ih.1 hmore]
        rfl
      · cases out with
        | nil => cases h
        | cons b out =>
            obtain ⟨hb, hrest⟩ := List.cons.inj h
            exact ⟨b, hb, bind_eq_ok.2 ⟨out, ih.2 hrest, rfl⟩⟩

/-- Each result of reading a list is read from an element of it. -/
theorem exists_of_mapM_eq_ok {f : α → Except ε β} {l : List α} {out : List β}
    (h : l.mapM f = .ok out) {b : β} (hb : b ∈ out) : ∃ a ∈ l, f a = .ok b := by
  have hmem : Except.ok b ∈ l.map f := mapM_eq_ok.1 h ▸ List.mem_map_of_mem hb
  exact List.mem_map.1 hmem

/-- What is read from a list that is not empty is not empty. -/
theorem ne_nil_of_mapM_eq_ok {f : α → Except ε β} {l : List α} {out : List β}
    (h : l.mapM f = .ok out) (hne : l ≠ []) : out ≠ [] := by
  rintro rfl
  exact hne (List.map_eq_nil_iff.1 (mapM_eq_ok.1 h))

/-- Reading a list fails as it does on the first element on which it fails. -/
theorem mapM_eq_error {f : α → Except ε β} {l : List α} {e : ε} :
    l.mapM f = .error e
      ↔ ∃ before a behind, l = before ++ a :: behind
          ∧ (∀ x ∈ before, ∃ y, f x = .ok y) ∧ f a = .error e := by
  induction l with
  | nil =>
      refine ⟨nofun, fun h => ?_⟩
      obtain ⟨before, a, behind, hl, -⟩ := h
      cases before <;> cases hl
  | cons a l ih =>
      rw [List.mapM_cons, bind_eq_error]
      refine ⟨fun h => ?_, fun h => ?_⟩
      · rcases h with ha | ⟨b, hb, hrest⟩
        · exact ⟨[], a, l, rfl, fun x hx => absurd hx List.not_mem_nil, ha⟩
        · rcases bind_eq_error.1 hrest with hl | ⟨more, -, hpure⟩
          · obtain ⟨before, c, behind, rfl, hbefore, hc⟩ := ih.1 hl
            refine ⟨a :: before, c, behind, rfl, fun x hx => ?_, hc⟩
            rcases List.mem_cons.1 hx with rfl | hx
            · exact ⟨b, hb⟩
            · exact hbefore x hx
          · cases hpure
      · obtain ⟨before, c, behind, hl, hbefore, hc⟩ := h
        cases before with
        | nil =>
            obtain ⟨rfl, -⟩ := List.cons.inj hl
            exact Or.inl hc
        | cons d before =>
            obtain ⟨rfl, rfl⟩ := List.cons.inj hl
            obtain ⟨b, hb⟩ := hbefore a List.mem_cons_self
            refine Or.inr ⟨b, hb, bind_eq_error.2 (Or.inl (ih.2 ?_))⟩
            exact ⟨before, c, behind, rfl,
              fun x hx => hbefore x (List.mem_cons_of_mem a hx), hc⟩

/-- A list is read exactly when each element of it is. -/
theorem exists_mapM_eq_ok {f : α → Except ε β} {l : List α} :
    (∃ out, l.mapM f = .ok out) ↔ ∀ a ∈ l, ∃ b, f a = .ok b := by
  constructor
  · rintro ⟨out, h⟩ a ha
    have hmem : f a ∈ out.map Except.ok := mapM_eq_ok.1 h ▸ List.mem_map_of_mem ha
    obtain ⟨b, -, hb⟩ := List.mem_map.1 hmem
    exact ⟨b, hb.symm⟩
  · intro h
    cases hread : l.mapM f with
    | ok out => exact ⟨out, rfl⟩
    | error e =>
        obtain ⟨before, a, behind, rfl, -, ha⟩ := mapM_eq_error.1 hread
        obtain ⟨b, hb⟩ := h a (by simp)
        rw [ha] at hb
        cases hb

/-- Two readers whose results correspond read corresponding lists. -/
theorem mapM_map {α' β' : Type} {f : α → Except ε β} {f' : α' → Except ε β'} {g : α → α'} {k : β → β'}
    (h : ∀ a, f' (g a) = (f a).map k) (l : List α) :
    (l.map g).mapM f' = (l.mapM f).map (List.map k) := by
  induction l with
  | nil => rfl
  | cons a l ih =>
      rw [List.map_cons, List.mapM_cons, List.mapM_cons, h, ih]
      cases f a with
      | error e => rfl
      | ok b => cases l.mapM f <;> rfl

/-- Elements that give nothing may be left out. -/
theorem flatMap_filter_of_nil {f : α → List β} {p : α → Bool} {l : List α}
    (h : ∀ a ∈ l, p a = false → f a = []) : (l.filter p).flatMap f = l.flatMap f := by
  induction l with
  | nil => rfl
  | cons a l ih =>
      obtain ⟨ha, hl⟩ := List.forall_mem_cons.1 h
      cases hp : p a with
      | true => rw [List.filter_cons_of_pos hp, List.flatMap_cons, List.flatMap_cons, ih hl]
      | false =>
          rw [List.filter_cons_of_neg (by simp [hp]), List.flatMap_cons, ha hp, ih hl]
          rfl

/-- The value of a key is found among any pairs that have all those of the key. -/
theorem lookup_filter [BEq α] [LawfulBEq α] {a : α} {p : α × β → Bool}
    (h : ∀ b, p (a, b) = true) (l : List (α × β)) : (l.filter p).lookup a = l.lookup a := by
  induction l with
  | nil => rfl
  | cons q l ih =>
      obtain ⟨key, b⟩ := q
      by_cases hkept : p (key, b) = true
      · rw [List.filter_cons_of_pos hkept, List.lookup_cons, List.lookup_cons, ih]
      · have hother : (a == key) = false := by
          refine beq_eq_false_iff_ne.2 fun heq => hkept ?_
          rw [← heq]
          exact h b
        rw [List.filter_cons_of_neg hkept, ih, List.lookup_cons, hother]

-- ============================================================ checks

/-- The value of a computation that is seen to succeed. -/
def finished {x : Except ε α} (h : x.isOk = true) : {a // x = .ok a} :=
  match x, h with
  | .error _, h => absurd h Bool.false_ne_true
  | .ok a, _ => ⟨a, rfl⟩

/-- The value of a computation that is seen to succeed, with what is seen to hold of it. A run on a
fixed text is kept like this: it is evaluated once, for all that is read from it. -/
def checked {x : Except ε α} {p : α → Prop} [DecidablePred p]
    (h : x.toOption.any (fun a => decide (p a)) = true) : {a // x = .ok a ∧ p a} :=
  match x, h with
  | .error _, h => absurd h Bool.false_ne_true
  | .ok a, h => ⟨a, rfl, of_decide_eq_true h⟩

/-- What holds of each member of a list, checked one by one. -/
theorem forall_mem_of_all {α : Type} {p : α → Prop} [DecidablePred p] {l : List α}
    (h : l.all (fun a => decide (p a)) = true) : ∀ a ∈ l, p a :=
  fun a ha => of_decide_eq_true (List.all_eq_true.1 h a ha)

/-- What holds of a member of a list, found one by one. -/
theorem exists_mem_of_any {α : Type} {p : α → Prop} [DecidablePred p] {l : List α}
    (h : l.any (fun a => decide (p a)) = true) : ∃ a ∈ l, p a := by
  obtain ⟨a, ha, hp⟩ := List.any_eq_true.1 h
  exact ⟨a, ha, of_decide_eq_true hp⟩

end LyricScore
