/-
Laws of squeezing. A text is tight if it has no blanks but single spaces, none of them at its ends.
Squeezing keeps a tight text at the front of another as it is, so a text is squeezed piece by
piece.
-/
import LyricScore.Proofs.Text.Split

namespace LyricScore.Text

/-- Elements that are not cut at go to the front of the first part. -/
theorem splitWhere_append_of_neg {α : Type} {p : α → Bool} {l r part : List α}
    {parts : List (List α)} (hl : ∀ a ∈ l, p a = false) (h : splitWhere p r = part :: parts) :
    splitWhere p (l ++ r) = (l ++ part) :: parts := by
  induction l with
  | nil => exact h
  | cons a l ih =>
      obtain ⟨ha, hl⟩ := List.forall_mem_cons.1 hl
      exact splitWhere_cons_of_neg ha (ih hl)

theorem append_joinWith_cons (v w : List Char) (ws : List (List Char)) :
    v ++ joinWith [' '] (w :: ws) = joinWith [' '] ((v ++ w) :: ws) := by
  cases ws with
  | nil => rw [joinWith_singleton, joinWith_singleton]
  | cons u ws => rw [joinWith_cons_cons, joinWith_cons_cons, List.append_assoc]

/-- A word in front of a text grows the first word of the text. -/
theorem squeeze_word_append {w : List Char} (hw : IsWord w) {cs : List Char} {c : Char}
    (hc : cs.head? = some c) (hblank : isBlank c = false) : squeeze (w ++ cs) = w ++ squeeze cs := by
  obtain ⟨rest, rfl⟩ := List.head?_eq_some_iff.1 hc
  cases hs : splitWhere isBlank rest with
  | nil => exact absurd hs (splitWhere_ne_nil isBlank rest)
  | cons part parts =>
      have hcs := splitWhere_cons_of_neg hblank hs
      have hwords : words (c :: rest) = (c :: part) :: parts.filter fun part => !part.isEmpty := by
        unfold words partsBetween
        rw [hcs]
        exact List.filter_cons_of_pos rfl
      have hjoined : words (w ++ c :: rest)
          = (w ++ c :: part) :: parts.filter fun part => !part.isEmpty := by
        unfold words partsBetween
        rw [splitWhere_append_of_neg hw.2 hcs]
        exact List.filter_cons_of_pos (by simp)
      unfold squeeze
      rw [hwords, hjoined, append_joinWith_cons]

theorem words_append_space (cs ds : List Char) : words (cs ++ ' ' :: ds) = words cs ++ words ds :=
  partsBetween_append_cons rfl cs ds

theorem words_of_isWord {w : List Char} (hw : IsWord w) : words w = [w] :=
  partsBetween_of_forall hw.1 hw.2

theorem squeeze_space (cs : List Char) : squeeze (' ' :: cs) = squeeze cs := by
  unfold squeeze
  exact congrArg (joinWith [' ']) (words_append_space [] cs)

theorem squeeze_eq_nil_iff {cs : List Char} : squeeze cs = [] ↔ words cs = [] := by
  unfold squeeze
  constructor
  · intro h
    cases hwords : words cs with
    | nil => rfl
    | cons w ws =>
        have hw : IsWord w := isWord_of_mem_words (hwords ▸ List.mem_cons_self)
        exact absurd (hwords ▸ h) (joinWith_ne_nil hw.1 ws)
  · intro h
    rw [h]
    rfl

/-- A word, a space and a text with words. -/
theorem squeeze_word_space {w : List Char} (hw : IsWord w) {cs : List Char} (hcs : squeeze cs ≠ []) :
    squeeze (w ++ ' ' :: cs) = w ++ ' ' :: squeeze cs := by
  have hwords : words cs ≠ [] := mt squeeze_eq_nil_iff.2 hcs
  obtain ⟨v, ws, hv⟩ := List.exists_cons_of_ne_nil hwords
  unfold squeeze
  rw [words_append_space, words_of_isWord hw, hv, List.singleton_append, joinWith_cons_cons]
  rfl

/-- A text that squeezing keeps, not empty. -/
def Tight (cs : List Char) : Prop :=
  cs ≠ [] ∧ squeeze cs = cs

namespace Tight

theorem of_isWord {w : List Char} (hw : IsWord w) : Tight w := by
  refine ⟨hw.1, ?_⟩
  unfold squeeze
  rw [words_of_isWord hw, joinWith_singleton]

theorem exists_words {cs : List Char} (h : Tight cs) :
    ∃ w ws, (∀ v ∈ w :: ws, IsWord v) ∧ cs = joinWith [' '] (w :: ws) := by
  obtain ⟨hne, hsqueeze⟩ := h
  cases hwords : words cs with
  | nil => exact absurd (hsqueeze ▸ squeeze_eq_nil_iff.2 hwords) hne
  | cons w ws =>
      refine ⟨w, ws, fun v hv => isWord_of_mem_words (hwords ▸ hv), ?_⟩
      rw [← hwords]
      exact hsqueeze.symm

/-- What is squeezed behind a tight text without a space between them. -/
theorem squeeze_append {cs : List Char} (h : Tight cs) {ds : List Char} {d : Char}
    (hd : ds.head? = some d) (hblank : isBlank d = false) :
    squeeze (cs ++ ds) = cs ++ squeeze ds := by
  obtain ⟨w, ws, hws, rfl⟩ := h.exists_words
  clear h
  induction ws generalizing w with
  | nil =>
      rw [joinWith_singleton]
      exact squeeze_word_append (hws w List.mem_cons_self) hd hblank
  | cons v ws ih =>
      obtain ⟨hw, hws⟩ := List.forall_mem_cons.1 hws
      have hrest := ih v hws
      have hne : squeeze (joinWith [' '] (v :: ws) ++ ds) ≠ [] := by
        rw [hrest]
        intro hnil
        exact joinWith_ne_nil (hws v List.mem_cons_self).1 ws (List.append_eq_nil_iff.1 hnil).1
      rw [joinWith_cons_cons, List.append_assoc, List.append_assoc]
      show squeeze (w ++ ' ' :: (joinWith [' '] (v :: ws) ++ ds)) = _
      rw [squeeze_word_space hw hne, hrest, List.append_assoc]
      rfl

/-- What is squeezed behind a tight text and a space. -/
theorem squeeze_append_space {cs : List Char} (h : Tight cs) (ds : List Char) :
    squeeze (cs ++ ' ' :: ds) = cs ++ if squeeze ds = [] then [] else ' ' :: squeeze ds := by
  obtain ⟨w, ws, hws, rfl⟩ := h.exists_words
  have hjoined : squeeze (joinWith [' '] (w :: ws) ++ ' ' :: ds)
      = joinWith [' '] (w :: ws ++ words ds) := by
    unfold squeeze
    rw [words_append_space, words_joinWith hws]
  rw [hjoined]
  split
  · next hnil =>
    rw [squeeze_eq_nil_iff.1 hnil, List.append_nil, List.append_nil]
  · next hne =>
    obtain ⟨v, vs, hv⟩ := List.exists_cons_of_ne_nil (mt squeeze_eq_nil_iff.2 hne)
    unfold squeeze
    rw [hv]
    clear hjoined h hws
    induction ws generalizing w with
    | nil => rw [joinWith_singleton]; exact joinWith_cons_cons [' '] w v vs
    | cons u ws ih =>
        rw [List.cons_append, List.cons_append, joinWith_cons_cons, joinWith_cons_cons]
        have hrest := ih u
        rw [List.cons_append] at hrest
        rw [hrest, List.append_assoc, List.append_assoc]

theorem head?_isBlank {cs : List Char} (h : Tight cs) {c : Char} (hc : cs.head? = some c) :
    isBlank c = false := by
  obtain ⟨w, ws, hws, rfl⟩ := h.exists_words
  obtain ⟨v, hv, hcv⟩ := mem_of_ends_joinWith (fun v hv => (hws v hv).1) (Or.inl hc)
  exact (hws v hv).2 c hcv

theorem getLast?_isBlank {cs : List Char} (h : Tight cs) {c : Char} (hc : cs.getLast? = some c) :
    isBlank c = false := by
  obtain ⟨w, ws, hws, rfl⟩ := h.exists_words
  obtain ⟨v, hv, hcv⟩ := mem_of_ends_joinWith (fun v hv => (hws v hv).1) (Or.inr hc)
  exact (hws v hv).2 c hcv

protected theorem append {cs ds : List Char} (h : Tight cs) (h' : Tight ds) : Tight (cs ++ ds) := by
  refine ⟨fun hnil => h.1 (List.append_eq_nil_iff.1 hnil).1, ?_⟩
  obtain ⟨d, rest, rfl⟩ := List.exists_cons_of_ne_nil h'.1
  rw [h.squeeze_append rfl (h'.head?_isBlank rfl), h'.2]

end Tight

end LyricScore.Text
