/-
Decimals read back. A number that is written in decimal is a run of digits with that value, so
reading it gives the number again, as long as it is short enough to be read at all. A run of
digits never writes a number longer than itself.
-/
import LyricScore.Text.Numeral

namespace LyricScore.Text

-- ============================================================ digits

/-- The ASCII digits have the value that their place behind zero gives. -/
theorem digitValue?_of_isDigit {c : Char} (h : c.isDigit = true) :
    digitValue? c = some (c.toNat - 48) := by
  have hrange : 48 ≤ c.toNat ∧ c.toNat ≤ 57 := by
    simp only [Char.isDigit, Bool.and_eq_true, decide_eq_true_eq] at h
    exact ⟨UInt32.le_iff_toNat_le.1 h.1, UInt32.le_iff_toNat_le.1 h.2⟩
  unfold digitValue? zeroDigits
  rw [List.find?_cons_of_pos (by
    simp only [Bool.and_eq_true, decide_eq_true_eq]
    omega)]
  rfl

theorem isDigit_of_isDigit {c : Char} (h : c.isDigit = true) : isDigit c = true := by
  unfold isDigit
  rw [digitValue?_of_isDigit h]
  rfl

/-- A digit is worth less than ten. -/
theorem digitValue?_lt (c : Char) : (digitValue? c).getD 0 < 10 := by
  unfold digitValue?
  cases hz : zeroDigits.find? fun z => z ≤ c.toNat && c.toNat < z + 10 with
  | none => simp
  | some z =>
      have hrange := List.find?_some hz
      simp only [Bool.and_eq_true, decide_eq_true_eq] at hrange
      simp only [Option.map_some, Option.getD_some]
      omega

/-- Digits at the front count ten times more for each digit behind them. -/
theorem digitsValue_append (cs : List Char) (c : Char) :
    digitsValue (cs ++ [c]) = 10 * digitsValue cs + (digitValue? c).getD 0 := by
  simp [digitsValue, List.foldl_append]

/-- A run of digits writes a number with at most as many digits. -/
theorem digitsValue_lt (cs : List Char) : digitsValue cs < Nat.pow 10 cs.length := by
  suffices key : ∀ r : List Char, digitsValue r.reverse < Nat.pow 10 r.length by
    simpa only [List.reverse_reverse, List.length_reverse] using key cs.reverse
  intro r
  induction r with
  | nil => exact Nat.one_pos
  | cons c r ih =>
      have hc := digitValue?_lt c
      have hpow : Nat.pow 10 (c :: r).length = Nat.pow 10 r.length * 10 := rfl
      rw [List.reverse_cons, digitsValue_append, hpow]
      omega

-- ========================================================== decimals

theorem toList_decimal (n : Nat) : (decimal n).toList = Nat.toDigits 10 n :=
  Nat.toList_repr

/-- A number without a sign is written as its digits. -/
theorem toList_decimal_of_nonneg {n : Int} (h : 0 ≤ n) :
    (decimal n).toList = Nat.toDigits 10 n.toNat := by
  obtain ⟨k, rfl⟩ := Int.eq_ofNat_of_zero_le h
  exact toList_decimal k

/-- A number is written with digits and a sign. -/
theorem mem_decimal {n : Int} {c : Char} (h : c ∈ (decimal n).toList) :
    c.isDigit = true ∨ c = '-' := by
  have hdigits : ∀ m : Nat, c ∈ (decimal m).toList → c.isDigit = true := fun m hc =>
    Nat.isDigit_of_mem_toDigits (by decide) (by decide) (toList_decimal m ▸ hc)
  cases n with
  | ofNat m => exact Or.inl (hdigits m h)
  | negSucc m =>
      have hsign : (decimal (Int.negSucc m)).toList = '-' :: (decimal (m + 1 : Nat)).toList :=
        String.toList_append
      rw [hsign] at h
      rcases List.mem_cons.1 h with rfl | h
      · exact Or.inr rfl
      · exact Or.inl (hdigits _ h)

theorem isDigit_of_mem_toDigits {n : Nat} {c : Char} (h : c ∈ Nat.toDigits 10 n) :
    isDigit c = true :=
  isDigit_of_isDigit (Nat.isDigit_of_mem_toDigits (by decide) (by decide) h)

/-- The digits of a number write it. -/
theorem digitsValue_toDigits (n : Nat) : digitsValue (Nat.toDigits 10 n) = n := by
  have hfold : ∀ (cs : List Char) (m : Nat), (∀ c ∈ cs, c.isDigit = true) →
      cs.foldl (fun n c => 10 * n + (digitValue? c).getD 0) m = Nat.ofDigitChars 10 cs m := by
    intro cs
    induction cs with
    | nil => intro m _; rfl
    | cons c rest ih =>
        intro m h
        have hstep := ih (10 * m + (c.toNat - 48)) fun d hd => h d (List.mem_cons_of_mem c hd)
        rw [List.foldl_cons, digitValue?_of_isDigit (h c List.mem_cons_self)]
        exact hstep
  unfold digitsValue
  rw [hfold _ 0 fun c hc => Nat.isDigit_of_mem_toDigits (by decide) (by decide) hc,
    Nat.ofDigitChars_ten_toDigits]

/-- A number below a power of ten has as many digits as the power, or fewer. -/
theorem length_toDigits_le {n k : Nat} (hk : 0 < k) (h : n < Nat.pow 10 k) :
    (Nat.toDigits 10 n).length ≤ k :=
  (Nat.length_toDigits_le_iff (by decide) hk).2 h

/-- A run of at most `k` digits writes a number below the power of ten. -/
theorem digitsValue_lt_of_length_le {cs : List Char} {k : Nat} (h : cs.length ≤ k) :
    digitsValue cs < Nat.pow 10 k :=
  Nat.lt_of_lt_of_le (digitsValue_lt cs) (Nat.pow_le_pow_right (by decide) h)

/-- A number that is short enough is read back from its digits. -/
theorem natural_toDigits {n : Nat} (h : n < Nat.pow 10 maxDigits) :
    natural (Nat.toDigits 10 n) = .ok n := by
  have hlength := length_toDigits_le (by decide) h
  unfold natural
  rw [if_neg (by omega), digitsValue_toDigits]

/-- What is read from digits is short enough to be written again. -/
theorem lt_of_natural {cs : List Char} {n : Nat} (h : natural cs = .ok n) :
    n < Nat.pow 10 maxDigits := by
  unfold natural at h
  split at h
  · cases h
  · next hlength =>
    obtain rfl := Except.ok.inj h
    exact digitsValue_lt_of_length_le (by omega)

end LyricScore.Text
