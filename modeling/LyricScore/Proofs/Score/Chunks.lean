/-
The lines and chunks of a text. A chunk is a run of lines that are not blank, as long as it can
be; each of its lines is a line of the text at its number, without the blanks around it. Lines
that are not blank and have no line end in them make up such chunks again when they are written
with blank lines between.
-/
import LyricScore.Proofs.Score.Words

namespace LyricScore

open Text

namespace Reader

-- ============================================================= lines

/-- A line that stays as it is: not blank, in one piece, without blanks around it. -/
def IsLine (l : List Char) : Prop :=
  l ≠ [] ∧ (∀ c ∈ l, isLineEnd c = false) ∧ trim l = l

theorem isLineEnd_of_isBlank_eq_false {c : Char} (h : isBlank c = false) :
    isLineEnd c = false := by
  cases hc : isLineEnd c with
  | false => rfl
  | true => rw [isBlank_of_isLineEnd hc] at h; cases h

/-- Words with spaces between them make a line. -/
theorem isLine_joinWith {ws : List (List Char)} (hne : ws ≠ [])
    (h : ∀ w ∈ ws, w = ['|'] ∨ IsPlainWord w) : IsLine (joinWith [' '] ws) := by
  have hword : ∀ w ∈ ws, IsWord w := by
    intro w hw
    rcases h w hw with rfl | hplain
    · exact ⟨by simp, forall_mem_of_all (by decide)⟩
    · exact hplain.1
  have hends : ∀ c, (joinWith [' '] ws).head? = some c
      ∨ (joinWith [' '] ws).getLast? = some c → isBlank c = false := by
    intro c hc
    obtain ⟨w, hw, hcw⟩ := mem_of_ends_joinWith (fun w hw => (hword w hw).1) hc
    exact (hword w hw).2 c hcw
  refine ⟨?_, fun c hc => ?_, trim_eq_self (fun c hc => hends c (Or.inl hc))
    (fun c hc => hends c (Or.inr hc))⟩
  · cases ws with
    | nil => exact absurd rfl hne
    | cons w ws => exact joinWith_ne_nil (hword w List.mem_cons_self).1 ws
  · rcases mem_joinWith hc with hc | ⟨w, hw, hcw⟩
    · obtain rfl := List.mem_singleton.1 hc
      decide
    · exact isLineEnd_of_isBlank_eq_false ((hword w hw).2 c hcw)

theorem lineWords_ne_nil_of_isLine {l : List Char} (h : IsLine l) : lineWords l ≠ [] := by
  obtain ⟨hne, -, htrim⟩ := h
  cases l with
  | nil => exact absurd rfl hne
  | cons c l =>
      have hhead : (trim (c :: l)).head? = some c := by rw [htrim]; rfl
      have hc : isBlank c = false := isBlank_head?_trim hhead
      exact lineWords_ne_nil List.mem_cons_self hc

-- ============================================================ chunks

/-- The lines of a text with their numbers, without the blanks around them. -/
def numberedLines (text : List Char) : List NumberedLine :=
  ((lines text).zipIdx 1).map fun l => (l.2, trim l.1)

/-- The runs of lines that are not blank, each as long as it can be. -/
inductive Runs : List NumberedLine → List (List NumberedLine) → Prop
  | done : Runs [] []
  | blank {l : NumberedLine} {rest : List NumberedLine} {cs : List (List NumberedLine)}
      (hblank : l.2 = []) (hrest : Runs rest cs) : Runs (l :: rest) cs
  | run {c rest : List NumberedLine} {cs : List (List NumberedLine)} (hne : c ≠ [])
      (hfull : ∀ l ∈ c, l.2 ≠ []) (hend : ∀ l ∈ rest.head?, l.2 = []) (hrest : Runs rest cs) :
      Runs (c ++ rest) (c :: cs)

/-- The chunks of a text are the runs of its lines. -/
theorem runs_chunks (text : List Char) : Runs (numberedLines text) (chunks text) := by
  suffices key : ∀ (n : Nat) (ls : List NumberedLine), ls.length ≤ n →
      Runs ls (partsBetween (fun l => l.2.isEmpty) ls) from key _ _ (Nat.le_refl _)
  -- each step takes a blank line or a whole run, so what is left gets shorter
  intro n
  induction n with
  | zero =>
      intro ls hn
      obtain rfl := List.length_eq_zero_iff.1 (Nat.le_zero.1 hn)
      exact Runs.done
  | succ n ih =>
      intro ls hn
      let full : NumberedLine → Bool := fun l => !l.2.isEmpty
      have hcut : ls.takeWhile full ++ ls.dropWhile full = ls := List.takeWhile_append_dropWhile
      have hfull : ∀ l ∈ ls.takeWhile full, l.2.isEmpty = false := fun l hl => by
        simpa [full] using List.all_eq_true.1 List.all_takeWhile l hl
      have hend : ∀ l, (ls.dropWhile full).head? = some l → l.2.isEmpty = true := fun l hl => by
        simpa [full] using head?_dropWhile hl
      generalize ls.takeWhile full = c at hcut hfull
      generalize ls.dropWhile full = rest at hcut hend
      subst hcut
      cases c with
      | cons l c =>
          rw [partsBetween_run (by simp) hfull hend]
          refine Runs.run (by simp) (fun l hl => ?_) (fun l hl => ?_) (ih rest ?_)
          · simpa using hfull l hl
          · simpa using hend l hl
          · simp at hn
            omega
      | nil =>
          cases rest with
          | nil => exact Runs.done
          | cons l rest =>
              rw [List.nil_append, partsBetween_cons_of_pos
                (p := fun l : NumberedLine => l.2.isEmpty) (hend l rfl)]
              exact Runs.blank (List.isEmpty_iff.1 (hend l rfl)) (ih rest (by simpa using hn))

/-- Without their numbers, chunks are the runs of lines between blank lines. -/
theorem map_chunks (text : List Char) :
    (chunks text).map (List.map (·.2)) = partsBetween List.isEmpty ((lines text).map trim) := by
  unfold chunks
  rw [← partsBetween_map List.isEmpty (fun l : NumberedLine => l.2), List.map_map]
  have hnumbers : (lines text).map trim = (((lines text).zipIdx 1).map Prod.fst).map trim := by
    rw [List.zipIdx_map_fst]
  rw [hnumbers, List.map_map]
  rfl

/-- Chunks of lines with a blank line between each two are read back. -/
theorem map_chunks_joinWith {cs : List (List (List Char))}
    (h : ∀ c ∈ cs, c ≠ [] ∧ ∀ l ∈ c, IsLine l) :
    (chunks (joinWith ['\n', '\n'] (cs.map (joinWith ['\n'])))).map (List.map (·.2)) = cs := by
  rw [map_chunks]
  induction cs with
  | nil => rfl
  | cons c cs ih =>
      obtain ⟨hne, hlines⟩ := h c List.mem_cons_self
      have htrim : c.map trim = c := by
        rw [List.map_congr_left (g := id) fun l hl => (hlines l hl).2.2, List.map_id]
      have hone : partsBetween List.isEmpty c = [c] :=
        partsBetween_of_forall hne fun l hl => by simpa using (hlines l hl).1
      have hmore := ih fun d hd => h d (List.mem_cons_of_mem c hd)
      cases cs with
      | nil =>
          rw [List.map_cons, List.map_nil, joinWith_singleton,
            lines_joinWith fun l hl => ⟨(hlines l hl).1, (hlines l hl).2.1⟩, htrim, hone]
      | cons d cs =>
          have htext : joinWith ['\n', '\n'] ((c :: d :: cs).map (joinWith ['\n']))
              = joinWith ['\n'] c ++ '\n'
                :: ([] ++ '\n' :: joinWith ['\n', '\n'] ((d :: cs).map (joinWith ['\n']))) := by
            rw [List.map_cons, List.map_cons, joinWith_cons_cons]
            rfl
          rw [htext, lines_joinWith_append hne fun l hl => (hlines l hl).2.1,
            lines_append_feed (by simp), List.map_append, List.map_cons, htrim,
            partsBetween_append_cons (by rfl), hone, hmore]
          rfl

/-- A chunk is not empty, and its lines are the lines of the text at their numbers, without the
blanks around them. -/
theorem mem_chunks {text : List Char} {chunk : List NumberedLine} (h : chunk ∈ chunks text) :
    chunk ≠ [] ∧ ∀ l ∈ chunk, l.2 ≠ [] ∧ 1 ≤ l.1
      ∧ ∃ raw, (lines text)[l.1 - 1]? = some raw ∧ l.2 = trim raw := by
  obtain ⟨hin, hne, hfull⟩ := mem_partsBetween h
  refine ⟨hne, fun l hl => ?_⟩
  obtain ⟨⟨raw, n⟩, hraw, rfl⟩ := List.mem_map.1 (hin.subset hl)
  obtain ⟨hn, hget⟩ := List.mk_mem_zipIdx_iff_le_and_getElem?_sub.1 hraw
  exact ⟨by simpa using hfull _ hl, hn, raw, hget, rfl⟩

theorem isLine_of_mem_chunks {text : List Char} {chunk : List NumberedLine}
    (h : chunk ∈ chunks text) : ∀ l ∈ chunk, IsLine l.2 := by
  intro l hl
  obtain ⟨hne, -, raw, hget, htrim⟩ := (mem_chunks h).2 l hl
  refine ⟨hne, fun c hc => ?_, ?_⟩
  · have hmem : raw ∈ lines text := List.mem_of_getElem? hget
    exact ((lines_parts text).1 raw hmem).2 c ((trim_isInfix raw).subset (htrim ▸ hc))
  · rw [htrim, trim_trim]

end Reader

end LyricScore
