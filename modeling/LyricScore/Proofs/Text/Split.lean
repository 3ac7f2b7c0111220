/-
Laws of splitting. Cutting a list at the elements of a class is undone by putting the parts
together again, so a text printed as words with blanks between, or as lines with line feeds
between, reads back as those words and lines. The other way round nothing is made up: every
part, word, line and trimmed text is a stretch of the text it was cut from.
-/
import LyricScore.Text.Blank

namespace LyricScore.Text

-- ============================================================= parts

theorem splitWhere_ne_nil {α : Type} (p : α → Bool) (l : List α) : splitWhere p l ≠ [] := by
  cases l with
  | nil => simp [splitWhere]
  | cons a rest =>
      unfold splitWhere
      split
      · simp
      · split <;> simp

/-- An element that is not cut at goes to the front of the first part. -/
theorem splitWhere_cons_of_neg {α : Type} {p : α → Bool} {a : α} (ha : p a = false)
    {rest part : List α} {parts : List (List α)} (h : splitWhere p rest = part :: parts) :
    splitWhere p (a :: rest) = (a :: part) :: parts := by
  rw [splitWhere, ha, h]
  rfl

theorem splitWhere_cons_of_pos {α : Type} {p : α → Bool} {a : α} (ha : p a = true)
    (rest : List α) : splitWhere p (a :: rest) = [] :: splitWhere p rest := by
  rw [splitWhere, if_pos ha]

/-- A list without elements to cut at is one part. -/
theorem splitWhere_of_forall {α : Type} {p : α → Bool} {l : List α}
    (h : ∀ a ∈ l, p a = false) : splitWhere p l = [l] := by
  induction l with
  | nil => rfl
  | cons a rest ih =>
      have hrest := ih fun b hb => h b (List.mem_cons_of_mem a hb)
      exact splitWhere_cons_of_neg (h a List.mem_cons_self) hrest

/-- A cut separates the parts before it from the parts behind it. -/
theorem splitWhere_append_cons {α : Type} {p : α → Bool} {b : α} (hb : p b = true)
    (l r : List α) : splitWhere p (l ++ b :: r) = splitWhere p l ++ splitWhere p r := by
  induction l with
  | nil => rw [List.nil_append, splitWhere_cons_of_pos hb]; rfl
  | cons a rest ih =>
      rw [List.cons_append]
      cases ha : p a with
      | true =>
          rw [splitWhere_cons_of_pos ha, splitWhere_cons_of_pos ha, ih]
          rfl
      | false =>
          cases hs : splitWhere p rest with
          | nil => exact absurd hs (splitWhere_ne_nil p rest)
          | cons part parts =>
              rw [hs, List.cons_append] at ih
              rw [splitWhere_cons_of_neg ha ih, splitWhere_cons_of_neg ha hs]
              rfl

/-- There is one part more than there are elements to cut at. -/
theorem length_splitWhere {α : Type} (p : α → Bool) (l : List α) :
    (splitWhere p l).length = l.countP p + 1 := by
  induction l with
  | nil => rfl
  | cons a rest ih =>
      cases ha : p a with
      | true => rw [splitWhere_cons_of_pos ha, List.length_cons, ih, List.countP_cons_of_pos ha]
      | false =>
          cases hs : splitWhere p rest with
          | nil => exact absurd hs (splitWhere_ne_nil p rest)
          | cons part parts =>
              rw [hs, List.length_cons] at ih
              rw [splitWhere_cons_of_neg ha hs, List.length_cons, ih,
                List.countP_cons_of_neg (by simp [ha])]

/-- An element that is not cut at goes to the end of the last part. -/
theorem exists_splitWhere_concat {α : Type} {p : α → Bool} {a : α} (ha : p a = false) (l : List α) :
    ∃ parts last, splitWhere p l = parts ++ [last] ∧ splitWhere p (l ++ [a]) = parts ++ [last ++ [a]] := by
  induction l with
  | nil => exact ⟨[], [], rfl, splitWhere_cons_of_neg ha rfl⟩
  | cons b l ih =>
      obtain ⟨parts, last, hl, hconcat⟩ := ih
      rw [List.cons_append]
      cases hb : p b with
      | true =>
          refine ⟨[] :: parts, last, ?_, ?_⟩
          · rw [splitWhere_cons_of_pos hb, hl]
            rfl
          · rw [splitWhere_cons_of_pos hb, hconcat]
            rfl
      | false =>
          cases parts with
          | nil => exact ⟨[], b :: last, splitWhere_cons_of_neg hb hl, splitWhere_cons_of_neg hb hconcat⟩
          | cons part parts =>
              exact ⟨(b :: part) :: parts, last, splitWhere_cons_of_neg hb hl,
                splitWhere_cons_of_neg hb hconcat⟩

/-- Every part is a stretch of the list without an element to cut at, and the first part is at
its front. -/
theorem splitWhere_parts {α : Type} (p : α → Bool) (l : List α) :
    (∀ part ∈ splitWhere p l, part <:+: l ∧ ∀ a ∈ part, p a = false)
      ∧ ∀ part parts, splitWhere p l = part :: parts → part <+: l := by
  induction l with
  | nil =>
      refine ⟨fun part hpart => ?_, fun part parts h => ?_⟩
      · obtain rfl : part = [] := by simpa [splitWhere] using hpart
        exact ⟨List.infix_rfl, fun a ha => absurd ha List.not_mem_nil⟩
      · obtain ⟨rfl, -⟩ : [] = part ∧ [] = parts := by simpa [splitWhere] using h
        exact List.prefix_rfl
  | cons a rest ih =>
      obtain ⟨hall, hfirst⟩ := ih
      have hlater : ∀ part ∈ splitWhere p rest,
          part <:+: a :: rest ∧ ∀ a ∈ part, p a = false := fun part hpart =>
        ⟨(hall part hpart).1.trans (List.suffix_cons a rest).isInfix, (hall part hpart).2⟩
      cases ha : p a with
      | true =>
          rw [splitWhere_cons_of_pos ha]
          refine ⟨fun part hpart => ?_, fun part parts h => ?_⟩
          · rcases List.mem_cons.1 hpart with rfl | hpart
            · exact ⟨List.nil_infix, fun a ha => absurd ha List.not_mem_nil⟩
            · exact hlater part hpart
          · obtain ⟨rfl, -⟩ := List.cons.inj h
            exact List.nil_prefix
      | false =>
          cases hs : splitWhere p rest with
          | nil => exact absurd hs (splitWhere_ne_nil p rest)
          | cons first more =>
              have hpre : a :: first <+: a :: rest :=
                List.cons_prefix_cons.2 ⟨rfl, hfirst first more hs⟩
              rw [splitWhere_cons_of_neg ha hs]
              refine ⟨fun part hpart => ?_, fun part parts h => ?_⟩
              · rcases List.mem_cons.1 hpart with rfl | hpart
                · refine ⟨hpre.isInfix, fun b hb => ?_⟩
                  rcases List.mem_cons.1 hb with rfl | hb
                  · exact ha
                  · exact (hall first (by rw [hs]; exact List.mem_cons_self)).2 b hb
                · exact hlater part (by rw [hs]; exact List.mem_cons_of_mem _ hpart)
              · obtain ⟨rfl, -⟩ := List.cons.inj h
                exact hpre

@[simp] theorem partsBetween_nil {α : Type} (p : α → Bool) : partsBetween p [] = [] := rfl

theorem partsBetween_append_cons {α : Type} {p : α → Bool} {b : α} (hb : p b = true)
    (l r : List α) : partsBetween p (l ++ b :: r) = partsBetween p l ++ partsBetween p r := by
  unfold partsBetween
  rw [splitWhere_append_cons hb, List.filter_append]

theorem partsBetween_cons_of_pos {α : Type} {p : α → Bool} {b : α} (hb : p b = true)
    (r : List α) : partsBetween p (b :: r) = partsBetween p r :=
  partsBetween_append_cons hb [] r

/-- A list that is not empty and has nothing to cut at is its only part. -/
theorem partsBetween_of_forall {α : Type} {p : α → Bool} {l : List α} (hne : l ≠ [])
    (h : ∀ a ∈ l, p a = false) : partsBetween p l = [l] := by
  unfold partsBetween
  rw [splitWhere_of_forall h]
  cases l with
  | nil => exact absurd rfl hne
  | cons a rest => rfl

/-- A run that goes up to the end or to a place to cut at is the first part. -/
theorem partsBetween_run {α : Type} {p : α → Bool} {l r : List α} (hne : l ≠ [])
    (hl : ∀ a ∈ l, p a = false) (hr : ∀ a, r.head? = some a → p a = true) :
    partsBetween p (l ++ r) = l :: partsBetween p r := by
  cases r with
  | nil => rw [List.append_nil, partsBetween_of_forall hne hl, partsBetween_nil]
  | cons b r =>
      rw [partsBetween_append_cons (hr b rfl), partsBetween_cons_of_pos (hr b rfl),
        partsBetween_of_forall hne hl]
      rfl

/-- The parts between cuts are stretches of the list, not empty, without an element to cut
at. -/
theorem mem_partsBetween {α : Type} {p : α → Bool} {l part : List α}
    (h : part ∈ partsBetween p l) :
    part <:+: l ∧ part ≠ [] ∧ ∀ a ∈ part, p a = false := by
  obtain ⟨hmem, hne⟩ := List.mem_filter.1 h
  obtain ⟨hin, hall⟩ := (splitWhere_parts p l).1 part hmem
  refine ⟨hin, fun hnil => ?_, hall⟩
  subst hnil
  cases hne

/-- Only a list of elements to cut at has no parts. -/
theorem forall_of_partsBetween_eq_nil {α : Type} {p : α → Bool} {l : List α}
    (h : partsBetween p l = []) : ∀ a ∈ l, p a = true := by
  induction l with
  | nil => exact fun a ha => absurd ha List.not_mem_nil
  | cons b rest ih =>
      cases hb : p b with
      | true =>
          rw [partsBetween_cons_of_pos hb] at h
          intro a ha
          rcases List.mem_cons.1 ha with rfl | ha
          · exact hb
          · exact ih h a ha
      | false =>
          cases hs : splitWhere p rest with
          | nil => exact absurd hs (splitWhere_ne_nil p rest)
          | cons part parts =>
              unfold partsBetween at h
              rw [splitWhere_cons_of_neg hb hs] at h
              cases h

/-- Cutting does not look beyond the class of the elements. -/
theorem splitWhere_map {α β : Type} (p : β → Bool) (f : α → β) (l : List α) :
    splitWhere p (l.map f) = (splitWhere (fun a => p (f a)) l).map (List.map f) := by
  induction l with
  | nil => rfl
  | cons a rest ih =>
      cases ha : p (f a) with
      | true =>
          rw [List.map_cons, splitWhere_cons_of_pos ha, ih,
            splitWhere_cons_of_pos (p := fun a => p (f a)) ha]
          rfl
      | false =>
          cases hs : splitWhere (fun a => p (f a)) rest with
          | nil => exact absurd hs (splitWhere_ne_nil _ rest)
          | cons part parts =>
              rw [hs, List.map_cons] at ih
              rw [List.map_cons, splitWhere_cons_of_neg ha ih,
                splitWhere_cons_of_neg (p := fun a => p (f a)) ha hs]
              rfl

theorem partsBetween_map {α β : Type} (p : β → Bool) (f : α → β) (l : List α) :
    partsBetween p (l.map f) = (partsBetween (fun a => p (f a)) l).map (List.map f) := by
  unfold partsBetween
  rw [splitWhere_map, List.filter_map]
  congr 1
  refine List.filter_congr fun part _ => ?_
  cases part <;> rfl

-- =========================================================== joining

@[simp] theorem joinWith_singleton (sep w : List Char) : joinWith sep [w] = w := by
  simp [joinWith]

theorem joinWith_cons_cons (sep v w : List Char) (ws : List (List Char)) :
    joinWith sep (v :: w :: ws) = v ++ (sep ++ joinWith sep (w :: ws)) := by
  simp [joinWith, List.intercalate_cons_cons]

/-- The characters of joined words are those of the words and of the separator. -/
theorem mem_joinWith {sep : List Char} {ws : List (List Char)} {c : Char}
    (h : c ∈ joinWith sep ws) : c ∈ sep ∨ ∃ w ∈ ws, c ∈ w := by
  induction ws with
  | nil => cases h
  | cons w rest ih =>
      cases rest with
      | nil =>
          rw [joinWith_singleton] at h
          exact Or.inr ⟨w, List.mem_cons_self, h⟩
      | cons v more =>
          rw [joinWith_cons_cons] at h
          rcases List.mem_append.1 h with h | h
          · exact Or.inr ⟨w, List.mem_cons_self, h⟩
          · rcases List.mem_append.1 h with h | h
            · exact Or.inl h
            · refine (ih h).imp_right fun hu => ?_
              obtain ⟨u, hu, hcu⟩ := hu
              exact ⟨u, List.mem_cons_of_mem w hu, hcu⟩

theorem joinWith_ne_nil {sep w : List Char} (hw : w ≠ []) (ws : List (List Char)) :
    joinWith sep (w :: ws) ≠ [] := by
  cases ws with
  | nil => simpa using hw
  | cons v ws =>
      rw [joinWith_cons_cons]
      simp [hw]

/-- Parts without an element to cut at are cut apart again. -/
theorem splitWhere_joinWith {p : Char → Bool} {b : Char} (hb : p b = true)
    {ws : List (List Char)} (hne : ws ≠ []) (h : ∀ w ∈ ws, ∀ c ∈ w, p c = false) :
    splitWhere p (joinWith [b] ws) = ws := by
  induction ws with
  | nil => exact absurd rfl hne
  | cons w ws ih =>
      have hw := splitWhere_of_forall (h w List.mem_cons_self)
      cases ws with
      | nil => rw [joinWith_singleton, hw]
      | cons v more =>
          rw [joinWith_cons_cons]
          show splitWhere p (w ++ b :: joinWith [b] (v :: more)) = _
          rw [splitWhere_append_cons hb, hw, ih (by simp) fun u hu => h u (List.mem_cons_of_mem w hu)]
          rfl

-- ============================================================= words

/-- A word: not empty and without blanks. -/
def IsWord (w : List Char) : Prop :=
  w ≠ [] ∧ ∀ c ∈ w, isBlank c = false

theorem isWord_of_mem_words {cs w : List Char} (h : w ∈ words cs) : IsWord w :=
  (mem_partsBetween h).2

/-- Words with spaces between them read back as those words. -/
theorem words_joinWith {ws : List (List Char)} (h : ∀ w ∈ ws, IsWord w) :
    words (joinWith [' '] ws) = ws := by
  induction ws with
  | nil => rfl
  | cons w rest ih =>
      obtain ⟨hne, hw⟩ := h w List.mem_cons_self
      have hrest := ih fun v hv => h v (List.mem_cons_of_mem w hv)
      cases rest with
      | nil =>
          rw [joinWith_singleton]
          exact partsBetween_of_forall hne hw
      | cons v more =>
          have hcut : words (w ++ ' ' :: joinWith [' '] (v :: more))
              = words w ++ words (joinWith [' '] (v :: more)) :=
            partsBetween_append_cons rfl w (joinWith [' '] (v :: more))
          rw [joinWith_cons_cons]
          show words (w ++ ' ' :: joinWith [' '] (v :: more)) = _
          rw [hcut, hrest]
          unfold words
          rw [partsBetween_of_forall hne hw]
          rfl

/-- The ends of words that are joined are ends of words. -/
theorem mem_of_ends_joinWith {sep : List Char} {ws : List (List Char)}
    (h : ∀ w ∈ ws, w ≠ []) {c : Char}
    (hc : (joinWith sep ws).head? = some c ∨ (joinWith sep ws).getLast? = some c) :
    ∃ w ∈ ws, c ∈ w := by
  induction ws with
  | nil => rcases hc with hc | hc <;> cases hc
  | cons w rest ih =>
      have hw := h w List.mem_cons_self
      cases rest with
      | nil =>
          rw [joinWith_singleton] at hc
          rcases hc with hc | hc
          · exact ⟨w, List.mem_cons_self, List.mem_of_head? hc⟩
          · exact ⟨w, List.mem_cons_self, List.mem_of_getLast? hc⟩
      | cons v more =>
          rw [joinWith_cons_cons] at hc
          rcases hc with hc | hc
          · cases w with
            | nil => exact absurd rfl hw
            | cons d w =>
                obtain rfl : d = c := Option.some.inj hc
                exact ⟨d :: w, List.mem_cons_self, List.mem_cons_self⟩
          · have hv := h v (List.mem_cons_of_mem w List.mem_cons_self)
            have hlast : (joinWith sep (v :: more)).getLast? = some c := by
              rw [← List.append_assoc, List.getLast?_append,
                List.getLast?_eq_some_getLast (joinWith_ne_nil hv more)] at hc
              rw [List.getLast?_eq_some_getLast (joinWith_ne_nil hv more)]
              exact hc
            obtain ⟨u, hu, hcu⟩ :=
              ih (fun u hu => h u (List.mem_cons_of_mem w hu)) (Or.inr hlast)
            exact ⟨u, List.mem_cons_of_mem w hu, hcu⟩

-- ============================================================= lines

/-- A character that does not end the line goes to the front of the first line. -/
theorem lines_cons_of_neg {c : Char} (hc : isLineEnd c = false) (rest : List Char) :
    lines (c :: rest)
      = match lines rest with
        | [] => [[c]]
        | line :: more => (c :: line) :: more := by
  rw [lines.eq_3 c rest (fun _ hcr _ => by subst hcr; exact absurd hc (by decide)), hc]
  rfl

/-- A text without line ends is one line, unless it is empty. -/
theorem lines_of_forall {l : List Char} (hne : l ≠ []) (h : ∀ c ∈ l, isLineEnd c = false) :
    lines l = [l] := by
  induction l with
  | nil => exact absurd rfl hne
  | cons c rest ih =>
      rw [lines_cons_of_neg (h c List.mem_cons_self)]
      cases rest with
      | nil => rfl
      | cons d more =>
          rw [ih (by simp) fun e he => h e (List.mem_cons_of_mem c he)]

/-- A line end closes the line in front of it. A carriage return does so too, unless it is half of
a line end of two characters. -/
theorem lines_append_end {l : List Char} (h : ∀ c ∈ l, isLineEnd c = false) {c : Char}
    (hc : isLineEnd c = true) {rest : List Char} (hpair : c = '\r' → rest.head? ≠ some '\n') :
    lines (l ++ c :: rest) = l :: lines rest := by
  induction l with
  | nil =>
      rw [List.nil_append, lines.eq_3 c rest fun tail hcr hrest => ?_, if_pos hc]
      subst hrest
      exact hpair hcr rfl
  | cons d l ih =>
      rw [List.cons_append, lines_cons_of_neg (h d List.mem_cons_self),
        ih fun e he => h e (List.mem_cons_of_mem d he)]

theorem lines_append_return_feed {l : List Char} (h : ∀ c ∈ l, isLineEnd c = false)
    (rest : List Char) : lines (l ++ '\r' :: '\n' :: rest) = l :: lines rest := by
  induction l with
  | nil => rfl
  | cons d l ih =>
      rw [List.cons_append, lines_cons_of_neg (h d List.mem_cons_self),
        ih fun e he => h e (List.mem_cons_of_mem d he)]

/-- A line feed closes the line in front of it. -/
theorem lines_append_feed {l : List Char} (h : ∀ c ∈ l, isLineEnd c = false)
    (rest : List Char) : lines (l ++ '\n' :: rest) = l :: lines rest :=
  lines_append_end h (by decide) fun hcr => absurd hcr (by decide)

/-- Lines with line feeds between them, the last of them closed, are read back. -/
theorem lines_joinWith_append {ls : List (List Char)} (hne : ls ≠ [])
    (h : ∀ l ∈ ls, ∀ c ∈ l, isLineEnd c = false) (rest : List Char) :
    lines (joinWith ['\n'] ls ++ '\n' :: rest) = ls ++ lines rest := by
  induction ls with
  | nil => exact absurd rfl hne
  | cons l ls ih =>
      have hl := h l List.mem_cons_self
      cases ls with
      | nil =>
          rw [joinWith_singleton, lines_append_feed hl]
          rfl
      | cons m more =>
          have hjoin : joinWith ['\n'] (l :: m :: more) ++ '\n' :: rest
              = l ++ '\n' :: (joinWith ['\n'] (m :: more) ++ '\n' :: rest) := by
            rw [joinWith_cons_cons]
            simp
          rw [hjoin, lines_append_feed hl,
            ih (by simp) fun m hm => h m (List.mem_cons_of_mem l hm)]
          rfl

/-- Lines with line feeds between them are read back, when they are not empty. -/
theorem lines_joinWith {ls : List (List Char)}
    (h : ∀ l ∈ ls, l ≠ [] ∧ ∀ c ∈ l, isLineEnd c = false) : lines (joinWith ['\n'] ls) = ls := by
  induction ls with
  | nil => rfl
  | cons l ls ih =>
      obtain ⟨hne, hl⟩ := h l List.mem_cons_self
      cases ls with
      | nil =>
          rw [joinWith_singleton, lines_of_forall hne hl]
      | cons m more =>
          rw [joinWith_cons_cons]
          show lines (l ++ '\n' :: joinWith ['\n'] (m :: more)) = _
          rw [lines_append_feed hl, ih fun m hm => h m (List.mem_cons_of_mem l hm)]

/-- Every line is a stretch of the text without a line end, and the first line is at its front. -/
theorem lines_parts (cs : List Char) :
    (∀ line ∈ lines cs, line <:+: cs ∧ ∀ c ∈ line, isLineEnd c = false)
      ∧ ∀ line more, lines cs = line :: more → line <+: cs := by
  fun_induction lines cs with
  | case1 =>
      exact ⟨fun line hline => absurd hline List.not_mem_nil, fun line more h => by cases h⟩
  | case2 rest ih =>
      refine ⟨fun line hline => ?_, fun line more h => ?_⟩
      · rcases List.mem_cons.1 hline with rfl | hline
        · exact ⟨List.nil_infix, fun c hc => absurd hc List.not_mem_nil⟩
        · refine ⟨(ih.1 line hline).1.trans ?_, (ih.1 line hline).2⟩
          exact List.IsSuffix.isInfix ⟨['\r', '\n'], rfl⟩
      · obtain ⟨rfl, -⟩ := List.cons.inj h
        exact List.nil_prefix
  | case3 c rest hcr hc ih =>
      refine ⟨fun line hline => ?_, fun line more h => ?_⟩
      · rcases List.mem_cons.1 hline with rfl | hline
        · exact ⟨List.nil_infix, fun c hc => absurd hc List.not_mem_nil⟩
        · exact ⟨(ih.1 line hline).1.trans (List.suffix_cons c rest).isInfix,
            (ih.1 line hline).2⟩
      · obtain ⟨rfl, -⟩ := List.cons.inj h
        exact List.nil_prefix
  | case4 c rest hcr hc hnone ih =>
      have hpre : [c] <+: c :: rest := ⟨rest, rfl⟩
      refine ⟨fun line hline => ?_, fun line more h => ?_⟩
      · obtain rfl := List.mem_singleton.1 hline
        refine ⟨hpre.isInfix, fun d hd => ?_⟩
        obtain rfl := List.mem_singleton.1 hd
        simpa using hc
      · obtain ⟨rfl, -⟩ := List.cons.inj h
        exact hpre
  | case5 c rest hcr hc first more hsome ih =>
      have hpre : c :: first <+: c :: rest :=
        List.cons_prefix_cons.2 ⟨rfl, ih.2 first more hsome⟩
      rw [hsome] at ih
      refine ⟨fun line hline => ?_, fun line others h => ?_⟩
      · rcases List.mem_cons.1 hline with rfl | hline
        · refine ⟨hpre.isInfix, fun d hd => ?_⟩
          rcases List.mem_cons.1 hd with rfl | hd
          · simpa using hc
          · exact (ih.1 first List.mem_cons_self).2 d hd
        · have hin := ih.1 line (List.mem_cons_of_mem first hline)
          exact ⟨hin.1.trans (List.suffix_cons c rest).isInfix, hin.2⟩
      · obtain ⟨rfl, -⟩ := List.cons.inj h
        exact hpre

/-- Line ends are blanks. -/
theorem isBlank_of_isLineEnd {c : Char} (h : isLineEnd c = true) : isBlank c = true := by
  simp only [isLineEnd, isBlank, Bool.or_eq_true, Bool.and_eq_true, decide_eq_true_eq,
    beq_iff_eq] at h ⊢
  omega

-- ========================================================== trimming

theorem dropWhile_eq_self {α : Type} {p : α → Bool} {l : List α}
    (h : ∀ a, l.head? = some a → p a = false) : l.dropWhile p = l := by
  cases l with
  | nil => rfl
  | cons a rest => rw [List.dropWhile_cons, h a rfl]; rfl

theorem head?_dropWhile {α : Type} {p : α → Bool} {l : List α} {a : α}
    (h : (l.dropWhile p).head? = some a) : p a = false := by
  have hnot := List.head?_dropWhile_not p l
  rw [h] at hnot
  exact hnot

/-- A run of elements of a class in front of one that is not is what a reader takes. -/
theorem takeWhile_dropWhile_append {α : Type} {p : α → Bool} {l r : List α}
    (hl : ∀ a ∈ l, p a = true) (hr : ∀ a, r.head? = some a → p a = false) :
    (l ++ r).takeWhile p = l ∧ (l ++ r).dropWhile p = r := by
  rw [List.takeWhile_append_of_pos hl, List.dropWhile_append_of_pos hl, dropWhile_eq_self hr]
  refine ⟨?_, rfl⟩
  cases r with
  | nil => rw [List.takeWhile_nil, List.append_nil]
  | cons a r => rw [List.takeWhile_cons, hr a rfl, if_neg (by decide), List.append_nil]

theorem forall_mem_takeWhile {α : Type} {p : α → Bool} (l : List α) :
    ∀ a ∈ l.takeWhile p, p a = true := by
  have hall := List.all_takeWhile (p := p) (l := l)
  exact List.all_eq_true.1 hall

/-- A text with no character of a class at either end stays as it is. -/
theorem trimWhere_eq_self {p : Char → Bool} {cs : List Char}
    (hhead : ∀ c, cs.head? = some c → p c = false)
    (hlast : ∀ c, cs.getLast? = some c → p c = false) : trimWhere p cs = cs := by
  unfold trimWhere
  rw [dropWhile_eq_self hhead, dropWhile_eq_self (l := cs.reverse)
    (by simpa only [List.head?_reverse] using hlast), List.reverse_reverse]

/-- A text with no blank at either end stays as it is. -/
theorem trim_eq_self {cs : List Char} (hhead : ∀ c, cs.head? = some c → isBlank c = false)
    (hlast : ∀ c, cs.getLast? = some c → isBlank c = false) : trim cs = cs :=
  trimWhere_eq_self hhead hlast

/-- A trimmed text is a stretch of the text. -/
theorem trim_isInfix (cs : List Char) : trim cs <:+: cs := by
  unfold trim trimWhere
  have hdrop : cs.dropWhile isBlank <:+: cs := (List.dropWhile_suffix isBlank).isInfix
  refine List.IsInfix.trans ?_ hdrop
  rw [← List.reverse_infix, List.reverse_reverse]
  exact (List.dropWhile_suffix isBlank).isInfix

/-- A trimmed text does not end with a blank. -/
theorem isBlank_getLast?_trim {cs : List Char} {c : Char} (h : (trim cs).getLast? = some c) :
    isBlank c = false := by
  unfold trim trimWhere at h
  rw [List.getLast?_reverse] at h
  exact head?_dropWhile h

/-- A trimmed text does not start with a blank. -/
theorem isBlank_head?_trim {cs : List Char} {c : Char} (h : (trim cs).head? = some c) :
    isBlank c = false := by
  have hpre : trim cs <+: cs.dropWhile isBlank := by
    unfold trim trimWhere
    rw [← List.reverse_suffix, List.reverse_reverse]
    exact List.dropWhile_suffix isBlank
  obtain ⟨tail, htail⟩ := hpre
  refine head?_dropWhile (p := isBlank) (l := cs) ?_
  rw [← htail, List.head?_append, h]
  rfl

theorem trim_trim (cs : List Char) : trim (trim cs) = trim cs :=
  trim_eq_self (fun _ => isBlank_head?_trim) (fun _ => isBlank_getLast?_trim)

-- ========================================================= cut lines

/-- A text that is not empty starts with the line up to its first line end. -/
theorem lines_eq_takeWhile {cs : List Char} (hne : cs ≠ []) :
    ∃ more, lines cs = cs.takeWhile (fun c => !isLineEnd c) :: more := by
  fun_induction lines cs with
  | case1 => exact absurd rfl hne
  | case2 rest ih => exact ⟨lines rest, rfl⟩
  | case3 c rest hcr hc ih =>
      refine ⟨lines rest, ?_⟩
      rw [List.takeWhile_cons, if_neg (by simp [hc])]
  | case4 c rest hcr hc hnone ih =>
      have hrest : rest = [] := by
        refine Classical.byContradiction fun hrest => ?_
        obtain ⟨more, hmore⟩ := ih hrest
        rw [hnone] at hmore
        cases hmore
      refine ⟨[], ?_⟩
      rw [List.takeWhile_cons, if_pos (by simp [hc]), hrest]
      rfl
  | case5 c rest hcr hc first more hsome ih =>
      refine ⟨more, ?_⟩
      have hrest : rest ≠ [] := by
        rintro rfl
        cases hsome
      obtain ⟨others, hothers⟩ := ih hrest
      rw [hsome] at hothers
      obtain ⟨rfl, -⟩ := List.cons.inj hothers
      rw [List.takeWhile_cons, if_pos (by simp [hc])]

/-- What becomes of a text in front of a line feed: it is a line, or it loses a carriage return at
its end, or it is cut at its first line end, and the next line starts behind the cut. -/
theorem lines_append_feed_cases {l : List Char} (hfeed : '\n' ∉ l) (rest : List Char) :
    (∀ c ∈ l, isLineEnd c = false)
      ∨ (∃ line, l = line ++ ['\r'] ∧ lines (l ++ '\n' :: rest) = line :: lines rest)
      ∨ ∃ line c behind next more, l = line ++ c :: behind ∧ isLineEnd c = true ∧ next <+: behind
        ∧ lines (l ++ '\n' :: rest) = line :: next :: more := by
  obtain ⟨line, tail, hl, hline, htail⟩ : ∃ line tail, l = line ++ tail
      ∧ (∀ c ∈ line, isLineEnd c = false) ∧ ∀ c, tail.head? = some c → isLineEnd c = true := by
    refine ⟨l.takeWhile fun c => !isLineEnd c, l.dropWhile fun c => !isLineEnd c,
      List.takeWhile_append_dropWhile.symm, fun c hc => ?_, fun c hc => ?_⟩
    · simpa using forall_mem_takeWhile l c hc
    · simpa using head?_dropWhile hc
  subst hl
  cases tail with
  | nil =>
      rw [List.append_nil]
      exact Or.inl hline
  | cons c behind =>
      have hc := htail c rfl
      refine Or.inr ?_
      by_cases hpair : c = '\r' ∧ behind = []
      · obtain ⟨rfl, rfl⟩ := hpair
        refine Or.inl ⟨line, rfl, ?_⟩
        rw [List.append_assoc]
        exact lines_append_return_feed hline rest
      · have hne : behind ++ '\n' :: rest ≠ [] := by simp
        obtain ⟨more, hmore⟩ := lines_eq_takeWhile hne
        have hnext : (behind ++ '\n' :: rest).takeWhile (fun c => !isLineEnd c) <+: behind := by
          rw [List.takeWhile_append]
          split
          · refine ⟨[], ?_⟩
            rw [List.takeWhile_cons, if_neg (by decide), List.append_nil, List.append_nil]
          · exact List.takeWhile_prefix _
        refine Or.inr ⟨line, c, behind, _, more, rfl, hc, hnext, ?_⟩
        rw [List.append_assoc, List.cons_append, lines_append_end hline hc ?_, hmore]
        intro hcr hhead
        cases behind with
        | nil => exact hpair ⟨hcr, rfl⟩
        | cons d behind =>
            obtain rfl : d = '\n' := Option.some.inj hhead
            exact hfeed (by simp)

end LyricScore.Text
