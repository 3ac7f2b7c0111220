/-
Numbers read back. An integer or a fraction that is written in decimal, with its sign and its
denominator, is read as the number it was, as long as it is short enough to be written at all.
-/
import LyricScore.Proofs.Sequence
import LyricScore.Proofs.Text.Decimal
import LyricScore.Proofs.Text.Split

namespace LyricScore.Text

-- ============================================================= digits

theorem ne_of_mem_toDigits {n : Nat} {c : Char} (h : c ∈ Nat.toDigits 10 n) {d : Char}
    (hd : d.isDigit = false) : c ≠ d := by
  rintro rfl
  have hdigit := Nat.isDigit_of_mem_toDigits (by decide) (by decide) h
  rw [hd] at hdigit
  cases hdigit

theorem isNumeralChar_of_mem_toDigits {n : Nat} {c : Char} (h : c ∈ Nat.toDigits 10 n) :
    isNumeralChar c = true := by
  unfold isNumeralChar
  rw [isDigit_of_mem_toDigits h]
  rfl

theorem groupedDigits?_toDigits (n : Nat) :
    groupedDigits? (Nat.toDigits 10 n) = some (Nat.toDigits 10 n) := by
  have hgroups : splitWhere (· == '_') (Nat.toDigits 10 n) = [Nat.toDigits 10 n] :=
    splitWhere_of_forall fun c hc => beq_false_of_ne (ne_of_mem_toDigits hc (by decide))
  have hdigits : (Nat.toDigits 10 n).all isDigit = true :=
    List.all_eq_true.2 fun c hc => isDigit_of_mem_toDigits hc
  have hne : (Nat.toDigits 10 n).isEmpty = false := by
    rw [List.isEmpty_eq_false_iff]
    exact Nat.toDigits_ne_nil
  unfold groupedDigits?
  simp [hgroups, hdigits, hne]

/-- Digits in front of something else are what a reader takes for a numeral. -/
theorem numeral_toDigits (n : Nat) (rest : List Char)
    (hrest : ∀ c, rest.head? = some c → isNumeralChar c = false) :
    (Nat.toDigits 10 n ++ rest).takeWhile isNumeralChar = Nat.toDigits 10 n
      ∧ (Nat.toDigits 10 n ++ rest).dropWhile isNumeralChar = rest :=
  takeWhile_dropWhile_append (fun _ hc => isNumeralChar_of_mem_toDigits hc) hrest

-- ============================================================== signs

/-- A number as a sign and digits. -/
theorem toList_decimal_eq (n : Int) :
    (decimal n).toList = (if n < 0 then ['-'] else []) ++ Nat.toDigits 10 n.natAbs := by
  cases n with
  | ofNat m => exact toList_decimal m
  | negSucc m =>
      rw [if_pos (Int.negSucc_lt_zero m), Int.natAbs_negSucc, ← toList_decimal]
      exact String.toList_append

/-- The sign is read off a number, whatever follows its digits. -/
theorem splitSign_decimal (n : Int) (rest : List Char) :
    splitSign ((decimal n).toList ++ rest) = (decide (n < 0), Nat.toDigits 10 n.natAbs ++ rest) := by
  rw [toList_decimal_eq]
  by_cases hn : n < 0
  · simp [hn, splitSign]
  · cases hdigits : Nat.toDigits 10 n.natAbs with
    | nil => exact absurd hdigits Nat.toDigits_ne_nil
    | cons c ds =>
        have hc : c ∈ Nat.toDigits 10 n.natAbs := by
          rw [hdigits]
          exact List.mem_cons_self
        have hminus := ne_of_mem_toDigits hc (d := '-') (by decide)
        have hplus := ne_of_mem_toDigits hc (d := '+') (by decide)
        simp [hn, splitSign, hminus, hplus]

theorem withSign_natAbs (n : Int) : withSign (decide (n < 0)) n.natAbs = n := by
  unfold withSign
  by_cases hn : n < 0
  · rw [decide_eq_true hn, if_pos rfl]
    omega
  · rw [decide_eq_false hn, if_neg Bool.false_ne_true]
    omega

theorem isBlank_of_mem_decimal {n : Int} {c : Char} (h : c ∈ (decimal n).toList) :
    isBlank c = false := by
  have hrange : c.toNat = 45 ∨ 48 ≤ c.toNat ∧ c.toNat ≤ 57 := by
    rcases mem_decimal h with hdigit | rfl
    · simp only [Char.isDigit, Bool.and_eq_true, decide_eq_true_eq] at hdigit
      exact Or.inr ⟨UInt32.le_iff_toNat_le.1 hdigit.1, UInt32.le_iff_toNat_le.1 hdigit.2⟩
    · exact Or.inl rfl
  rw [← Bool.not_eq_true]
  intro hblank
  simp only [isBlank, Bool.or_eq_true, Bool.and_eq_true, decide_eq_true_eq, beq_iff_eq] at hblank
  omega

theorem isMargin_of_isBlank {c : Char} (h : isBlank c = false) : isMargin c = false := by
  unfold isMargin
  rw [h]
  rfl

-- ============================================================ numbers

/-- An integer that is short enough is read back. -/
theorem readInteger_decimal {n : Int} (h : fits n = true) : readInteger (decimal n) = .ok n := by
  have hmargin : ∀ c ∈ (decimal n).toList, isMargin c = false := fun c hc =>
    isMargin_of_isBlank (isBlank_of_mem_decimal hc)
  have htrim : trimWhere isMargin (decimal n).toList = (decimal n).toList :=
    trimWhere_eq_self (fun c hc => hmargin c (List.mem_of_head? hc))
      fun c hc => hmargin c (List.mem_of_getLast? hc)
  have hsign := splitSign_decimal n []
  obtain ⟨htake, hdrop⟩ := numeral_toDigits n.natAbs [] (by simp)
  simp only [List.append_nil] at hsign htake hdrop
  unfold readInteger
  rw [htrim, hsign]
  dsimp only
  rw [htake, hdrop, groupedDigits?_toDigits]
  dsimp only
  rw [natural_toDigits (of_decide_eq_true h)]
  exact congrArg Except.ok (withSign_natAbs n)

theorem startsFraction_toDigits (n : Nat) (rest : List Char) :
    startsFraction (Nat.toDigits 10 n ++ rest) = true := by
  cases hdigits : Nat.toDigits 10 n with
  | nil => exact absurd hdigits Nat.toDigits_ne_nil
  | cons c ds =>
      have hc : c ∈ Nat.toDigits 10 n := by
        rw [hdigits]
        exact List.mem_cons_self
      have hpoint := ne_of_mem_toDigits hc (d := '.') (by decide)
      have hdigit := isDigit_of_mem_toDigits hc
      unfold startsFraction
      split
      · next heq => exact absurd (List.cons.inj heq).1 hpoint
      · next heq => rwa [← (List.cons.inj heq).1]
      · next heq => cases heq

/-- The digits in front of a fraction are its whole part. -/
theorem fractionParts?_toDigits (a : Nat) {rest : List Char}
    (hrest : ∀ c, rest.head? = some c → isNumeralChar c = false) :
    fractionParts? (Nat.toDigits 10 a ++ rest) = fractionTail? (Nat.toDigits 10 a) rest := by
  obtain ⟨htake, hdrop⟩ := numeral_toDigits a rest hrest
  have hwhole : optionalDigits? (Nat.toDigits 10 a) = some (Nat.toDigits 10 a) := by
    unfold optionalDigits?
    rw [if_neg (by simp [Nat.toDigits_ne_nil]), groupedDigits?_toDigits]
  unfold fractionParts?
  rw [if_pos (startsFraction_toDigits a rest), htake, hdrop, hwhole]
  rfl

/-- A whole number is a fraction over one. -/
theorem fraction_whole {a : Nat} (ha : a < Nat.pow 10 maxDigits) :
    ∃ parts, fractionParts? (Nat.toDigits 10 a ++ []) = some parts ∧ parts.value = .ok (a, 1) := by
  refine ⟨⟨Nat.toDigits 10 a, none, [], none⟩, fractionParts?_toDigits a (by simp), ?_⟩
  refine bind_eq_ok.2 ⟨a, natural_toDigits ha, ?_⟩
  refine bind_eq_ok.2 ⟨0, rfl, ?_⟩
  exact congrArg (fun n => Except.ok (n, 1)) (Nat.mul_one a)

theorem fraction_quotient {a b : Nat} (ha : a < Nat.pow 10 maxDigits)
    (hb : b < Nat.pow 10 maxDigits) :
    ∃ parts, fractionParts? (Nat.toDigits 10 a ++ '/' :: Nat.toDigits 10 b) = some parts
      ∧ parts.value = .ok (a, b) := by
  refine ⟨⟨Nat.toDigits 10 a, some (Nat.toDigits 10 b), [], none⟩, ?_, ?_⟩
  · rw [fractionParts?_toDigits a fun c hc => ?_]
    · exact Option.map_eq_some_iff.2 ⟨_, groupedDigits?_toDigits b, rfl⟩
    · obtain rfl : '/' = c := Option.some.inj hc
      decide
  · exact bind_eq_ok.2 ⟨a, natural_toDigits ha, bind_eq_ok.2 ⟨b, natural_toDigits hb, rfl⟩⟩

/-- A fraction is read from its signed numerator and the rest of its text. -/
theorem readFraction_of_parts {q : Rat} {s : String} (rest : List Char)
    (hs : s.toList = (decimal q.num).toList ++ rest) (hrest : ∀ c ∈ rest, isBlank c = false)
    (hparts : ∃ parts, fractionParts? (Nat.toDigits 10 q.num.natAbs ++ rest) = some parts
      ∧ parts.value = .ok (q.num.natAbs, q.den)) : readFraction s = .ok q := by
  obtain ⟨parts, hparts, hvalue⟩ := hparts
  have hblank : ∀ c ∈ s.toList, isBlank c = false := by
    rw [hs]
    exact List.forall_mem_append.2 ⟨fun c hc => isBlank_of_mem_decimal hc, hrest⟩
  have htrim : trim s.toList = s.toList :=
    trim_eq_self (fun c hc => hblank c (List.mem_of_head? hc))
      fun c hc => hblank c (List.mem_of_getLast? hc)
  obtain ⟨k, hk⟩ := Nat.exists_eq_succ_of_ne_zero q.den_nz
  have hq : mkRat (withSign (decide (q.num < 0)) q.num.natAbs) k.succ = q := by
    rw [withSign_natAbs, ← hk]
    exact Rat.mkRat_self q
  unfold readFraction
  rw [htrim, hs, splitSign_decimal]
  dsimp only
  rw [hparts]
  dsimp only
  rw [hvalue, hk]
  exact congrArg Except.ok hq

/-- A fraction whose numerator and denominator are short enough is read back. -/
theorem readFraction_ratText {q : Rat} (h : ratFits q = true) :
    readFraction (ratText q) = .ok q := by
  obtain ⟨hnum, hden⟩ := Bool.and_eq_true_iff.1 h
  have ha : q.num.natAbs < Nat.pow 10 maxDigits := of_decide_eq_true hnum
  have hb : q.den < Nat.pow 10 maxDigits := of_decide_eq_true hden
  unfold ratText
  split
  · next hone =>
    refine readFraction_of_parts [] (List.append_nil _).symm (by simp) ?_
    rw [hone]
    exact fraction_whole ha
  · refine readFraction_of_parts ('/' :: Nat.toDigits 10 q.den) ?_ ?_ (fraction_quotient ha hb)
    · rw [String.toList_append, String.toList_append, toList_decimal, List.append_assoc]
      rfl
    · refine List.forall_mem_cons.2 ⟨by decide, fun c hc => ?_⟩
      exact isBlank_of_mem_decimal (n := q.den) (toList_decimal q.den ▸ hc)

end LyricScore.Text
