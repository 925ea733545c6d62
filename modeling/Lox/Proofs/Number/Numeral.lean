import Lox.Proofs.Number.Shortest
import Lox.Proofs.Token.Lines

/-! Written numbers.

A decimal that is written out in place is one numeral, and the numeral stands for the same rational;
so are the digits of a natural, with or without `.0` behind them. What is written of a finite number
is such a numeral, behind a minus if the number has a sign, and the numeral is read as the number
without its sign. -/

namespace Lox

section Digits

variable {cs ds : List Char}

theorem digitsValue_eq (cs : List Char) : digitsValue cs = Nat.ofDigitChars 10 cs 0 := by
  rw [Nat.ofDigitChars_eq_foldl]
  rfl

theorem ofDigitChars_zeros (n count : ℕ) :
    Nat.ofDigitChars 10 (Nat.toDigits 10 n ++ List.replicate count '0') 0 = n * 10 ^ count := by
  rw [Nat.ofDigitChars_append, Nat.ofDigitChars_ten_toDigits, Nat.ofDigitChars_replicate_zero,
    Nat.mul_comm]

theorem isDigit_of_mem_toDigits {c : Char} {n : ℕ} (h : c ∈ Nat.toDigits 10 n) :
    isDigit c = true := by
  have hdigit := Nat.isDigit_of_mem_toDigits (by norm_num) (by norm_num) h
  simpa [isDigit, Char.isDigit, Char.le_def] using hdigit

theorem isDigit_of_mem_zeros {c : Char} {count : ℕ} (h : c ∈ List.replicate count '0') :
    isDigit c = true := by
  rw [List.eq_of_mem_replicate h]
  decide

theorem ne_point_of_isDigit {c : Char} (h : isDigit c = true) : c ≠ '.' := by
  rintro rfl
  cases h

theorem pointless_of_digits (h : ∀ c ∈ cs, isDigit c = true) : ∀ c ∈ cs, (c != '.') = true :=
  fun c hc => by simpa using ne_point_of_isDigit (h c hc)

theorem isDigits_of_digits (hne : cs ≠ []) (h : ∀ c ∈ cs, isDigit c = true) :
    isDigits cs = true := by
  have hall : ∀ c ∈ cs, c.isDigit = true := by
    intro c hc
    simpa [isDigit, Char.isDigit, Char.le_def] using h c hc
  simpa [isDigits, hne] using hall

/-- A numeral that stands for a rational: its digits as a natural, with a shift by the places behind
its point. -/
inductive StandsFor : List Char → ℚ → Prop where
  | digits (cs : List Char) : cs ≠ [] → (∀ c ∈ cs, isDigit c = true) →
    StandsFor cs (Nat.ofDigitChars 10 cs 0)
  | point (cs ds : List Char) : cs ≠ [] → (∀ c ∈ cs, isDigit c = true) → ds ≠ [] →
    (∀ d ∈ ds, isDigit d = true) →
    StandsFor (cs ++ '.' :: ds) (Nat.ofDigitChars 10 (cs ++ ds) 0 * 10 ^ (-(ds.length : ℤ)))

end Digits

namespace StandsFor

variable {cs : List Char} {q : ℚ}

theorem lexeme (h : StandsFor cs q) : Lexeme .numeral cs := by
  cases h with
  | digits cs hne hcs =>
    obtain ⟨c, cs, rfl⟩ := List.exists_cons_of_ne_nil hne
    obtain ⟨hc, hcs⟩ := List.forall_mem_cons.mp hcs
    exact .integer hc hcs
  | point cs ds hne hcs hne' hds =>
    obtain ⟨c, cs, rfl⟩ := List.exists_cons_of_ne_nil hne
    obtain ⟨d, ds, rfl⟩ := List.exists_cons_of_ne_nil hne'
    obtain ⟨hc, hcs⟩ := List.forall_mem_cons.mp hcs
    obtain ⟨hd, hds⟩ := List.forall_mem_cons.mp hds
    exact .decimal hc hcs hd hds

theorem of_lexeme (h : Lexeme .numeral cs) : ∃ q, StandsFor cs q := by
  cases h with
  | integer hc hcs =>
    exact ⟨_, .digits _ (List.cons_ne_nil _ _) (List.forall_mem_cons.mpr ⟨hc, hcs⟩)⟩
  | decimal hc hcs hd hds =>
    exact ⟨_, .point (_ :: _) (_ :: _) (List.cons_ne_nil _ _) (List.forall_mem_cons.mpr ⟨hc, hcs⟩)
      (List.cons_ne_nil _ _) (List.forall_mem_cons.mpr ⟨hd, hds⟩)⟩

theorem value (h : StandsFor cs q) : (Decimal.ofNumeral cs).value = q := by
  cases h with
  | digits cs _ hcs =>
    have hfraction : cs.dropWhile (· != '.') = [] :=
      List.dropWhile_eq_nil_iff.mpr (pointless_of_digits hcs)
    have hfilter : cs.filter (· != '.') = cs := List.filter_eq_self.mpr (pointless_of_digits hcs)
    simp [Decimal.ofNumeral, Decimal.value, hfraction, hfilter, digitsValue_eq]
  | point cs ds _ hcs _ hds =>
    have hfraction : (cs ++ '.' :: ds).dropWhile (· != '.') = '.' :: ds := by
      rw [List.dropWhile_append_of_pos (pointless_of_digits hcs)]
      simp
    have hfilter : (cs ++ '.' :: ds).filter (· != '.') = cs ++ ds := by
      rw [List.filter_append, List.filter_cons_of_neg (by simp),
        List.filter_eq_self.mpr (pointless_of_digits hcs),
        List.filter_eq_self.mpr (pointless_of_digits hds)]
    simp [Decimal.ofNumeral, Decimal.value, hfraction, hfilter, digitsValue_eq]

theorem isNumeral (h : StandsFor cs q) : isNumeral cs = true := by
  cases h with
  | digits cs hne hcs =>
    have hwhole : cs.takeWhile (· != '.') = cs :=
      List.takeWhile_eq_self_iff.mpr (pointless_of_digits hcs)
    have hfraction : cs.dropWhile (· != '.') = [] :=
      List.dropWhile_eq_nil_iff.mpr (pointless_of_digits hcs)
    simp only [Lox.isNumeral, hwhole, hfraction, isDigits_of_digits hne hcs, Bool.and_self]
  | point cs ds hne hcs hne' hds =>
    have hwhole : (cs ++ '.' :: ds).takeWhile (· != '.') = cs := by
      rw [List.takeWhile_append_of_pos (pointless_of_digits hcs)]
      simp
    have hfraction : (cs ++ '.' :: ds).dropWhile (· != '.') = '.' :: ds := by
      rw [List.dropWhile_append_of_pos (pointless_of_digits hcs)]
      simp
    simp only [Lox.isNumeral, hwhole, hfraction, isDigits_of_digits hne hcs,
      isDigits_of_digits hne' hds, Bool.and_self]

/-- A numeral is read as its own decimal. -/
theorem read (h : StandsFor cs q) :
    Number.ofNumeral? cs = some (Decimal.ofNumeral cs).nearest := by
  rw [Number.ofNumeral?, if_pos h.isNumeral]

theorem ofNumeral (h : StandsFor cs q) :
    Number.ofNumeral cs = (Decimal.ofNumeral cs).nearest := by
  rw [Number.ofNumeral, h.read, Option.getD_some]

end StandsFor

/-- The digits of a natural stand for it. -/
theorem standsFor_toDigits (n : ℕ) : StandsFor (Nat.toDigits 10 n) n := by
  have h := StandsFor.digits (Nat.toDigits 10 n) Nat.toDigits_ne_nil
    fun _ => isDigit_of_mem_toDigits
  rwa [Nat.ofDigitChars_ten_toDigits] at h

/-- So they do with `.0` behind them. -/
theorem standsFor_toDigits_point (n : ℕ) : StandsFor (Nat.toDigits 10 n ++ ['.', '0']) n := by
  have hzero : Nat.ofDigitChars 10 (Nat.toDigits 10 n ++ ['0']) 0 = n * 10 :=
    ofDigitChars_zeros n 1
  have h := StandsFor.point (Nat.toDigits 10 n) ['0'] Nat.toDigits_ne_nil
    (fun _ => isDigit_of_mem_toDigits) (List.cons_ne_nil _ _) (List.forall_mem_singleton.mpr rfl)
  rw [hzero] at h
  simpa using h

section Places

variable {digits : List Char} {places : ℕ}

/-- A point among digits shifts their value by the places behind it. -/
theorem standsFor_split (h : ∀ c ∈ digits, isDigit c = true) (hpos : 0 < places)
    (hlt : places < digits.length) :
    StandsFor (digits.take (digits.length - places) ++ '.' :: digits.drop (digits.length - places))
      (Nat.ofDigitChars 10 digits 0 * 10 ^ (-(places : ℤ))) := by
  have hbefore : digits.take (digits.length - places) ≠ [] := by
    rw [← List.length_pos_iff, List.length_take]
    omega
  have hbehind : digits.drop (digits.length - places) ≠ [] := by
    rw [← List.length_pos_iff, List.length_drop]
    omega
  have hlength : digits.length - (digits.length - places) = places := by omega
  have hpoint := StandsFor.point _ _ hbefore (fun c hc => h c (List.mem_of_mem_take hc)) hbehind
    fun c hc => h c (List.mem_of_mem_drop hc)
  rwa [List.take_append_drop, List.length_drop, hlength] at hpoint

/-- Zeros in front of digits add nothing to their value. -/
theorem standsFor_leading_zeros (h : ∀ c ∈ digits, isDigit c = true) (hne : digits ≠ [])
    (hle : digits.length ≤ places) :
    StandsFor ('0' :: '.' :: List.replicate (places - digits.length) '0' ++ digits)
      (Nat.ofDigitChars 10 digits 0 * 10 ^ (-(places : ℤ))) := by
  obtain ⟨ds, hds⟩ : ∃ ds, ds = List.replicate (places - digits.length) '0' ++ digits := ⟨_, rfl⟩
  have hall : ∀ d ∈ ds, isDigit d = true := by
    intro d hd
    rw [hds] at hd
    rcases List.mem_append.mp hd with hd | hd
    · exact isDigit_of_mem_zeros hd
    · exact h d hd
  have hvalue : Nat.ofDigitChars 10 (['0'] ++ ds) 0 = Nat.ofDigitChars 10 digits 0 := by
    rw [hds, List.singleton_append, Nat.ofDigitChars_cons, Nat.ofDigitChars_append]
    simp
  have hlength : ds.length = places := by
    rw [hds, List.length_append, List.length_replicate]
    omega
  have hpoint := StandsFor.point ['0'] ds (List.cons_ne_nil _ _)
    (List.forall_mem_singleton.mpr rfl) (by simp [hds, hne]) hall
  rw [hvalue, hlength] at hpoint
  simpa [hds] using hpoint

end Places

/-- What is written of a decimal stands for it. -/
theorem Decimal.standsFor_text (d : Decimal) : StandsFor d.text d.value := by
  have hdigits : ∀ c ∈ Nat.toDigits 10 d.digits, isDigit c = true :=
    fun _ => isDigit_of_mem_toDigits
  unfold text value
  cases d.exponent with
  | ofNat zeros =>
    have hall : ∀ c ∈ Nat.toDigits 10 d.digits ++ List.replicate zeros '0', isDigit c = true := by
      intro c hc
      rcases List.mem_append.mp hc with hc | hc
      · exact hdigits c hc
      · exact isDigit_of_mem_zeros hc
    have h := StandsFor.digits _ (by simp) hall
    rw [ofDigitChars_zeros] at h
    simpa using h
  | negSucc n =>
    have hexp : -((n + 1 : ℕ) : ℤ) = Int.negSucc n := by omega
    simp only
    split
    · rename_i hlt
      have h := standsFor_split hdigits (Nat.succ_pos n) hlt
      rwa [Nat.ofDigitChars_ten_toDigits, hexp] at h
    · rename_i hnot
      have h := standsFor_leading_zeros hdigits Nat.toDigits_ne_nil (not_lt.mp hnot)
      rwa [Nat.ofDigitChars_ten_toDigits, hexp] at h

namespace Number

variable {x : Number}

/-- A numeral that is read as a number. -/
structure ReadAs (cs : List Char) (x : Number) : Prop where
  lexeme : Lexeme .numeral cs
  read : Number.ofNumeral cs = x

theorem readAs_of_holds {cs : List Char} {q : ℚ} (hfinite : x.isFinite = true)
    (hs : x.significand ≠ 0) (h : StandsFor cs q) (hq : x.roundingInterval.Holds q) :
    ReadAs cs x.unsigned := by
  refine ⟨h.lexeme, h.ofNumeral.trans (Decimal.nearest_of_holds hfinite hs ?_)⟩
  rwa [h.value]

theorem readAs_of_absolute {cs : List Char} (hfinite : x.isFinite = true)
    (h : StandsFor cs x.absolute) : ReadAs cs x.unsigned :=
  ⟨h.lexeme, h.ofNumeral.trans (Decimal.nearest_of_absolute hfinite h.value)⟩

/-- No numeral is read with a sign. -/
theorem negative_ofNumeral (cs : List Char) : (Number.ofNumeral cs).negative = false := by
  unfold ofNumeral ofNumeral?
  split
  · exact negative_ofRatio _ _
  · rfl

/-- The sign that is written of a number. -/
def signText (x : Number) : String := if x.negative then "-" else ""

theorem isNaN_of_isFinite (h : x.isFinite = true) : x.isNaN = false := by
  simp only [isFinite, decide_eq_true_eq] at h
  simp only [isNaN, decide_eq_false_iff_not]
  omega

theorem shortestText_reads (hfinite : x.isFinite = true) :
    ∃ cs, x.shortestText = x.signText ++ String.ofList cs ∧ ReadAs cs x.unsigned := by
  have htext : x.shortestText = x.signText ++
      String.ofList (if x.significand = 0 then ['0'] else x.shortestDecimal.text) := by
    simp only [shortestText, signText, isNaN_of_isFinite hfinite, hfinite, Bool.false_eq_true,
      if_false, if_true]
    cases x.negative with
    | true => rfl
    | false => exact String.empty_append.symm
  refine ⟨_, htext, ?_⟩
  split
  · rename_i hs
    apply readAs_of_absolute hfinite
    have hzero : x.absolute = (0 : ℕ) := by simp [absolute, hs]
    rw [hzero]
    exact standsFor_toDigits 0
  · rename_i hs
    exact readAs_of_holds hfinite hs (Decimal.standsFor_text _) (holds_shortestDecimal hs)

/-- What is written of a finite number is a numeral behind its sign, and the numeral is read as the
number without the sign. -/
theorem text_reads (hfinite : x.isFinite = true) :
    ∃ cs, x.text = x.signText ++ String.ofList cs ∧ ReadAs cs x.unsigned := by
  unfold text
  split
  · rename_i hintegral
    refine ⟨_, rfl, readAs_of_absolute hfinite ?_⟩
    rw [absolute_of_isIntegral hintegral]
    exact standsFor_toDigits _
  · exact shortestText_reads hfinite

/-- So is what a listing shows of a number without a sign. -/
theorem literalText_reads (hfinite : x.isFinite = true) (hsign : x.negative = false) :
    ∃ cs, x.literalText = String.ofList cs ∧ ReadAs cs x.unsigned := by
  unfold literalText
  split
  · rename_i hintegral
    rw [Bool.and_eq_true] at hintegral
    refine ⟨Nat.toDigits 10 x.whole ++ ['.', '0'], ?_, readAs_of_absolute hfinite ?_⟩
    · rw [hsign, String.ofList_append]
      rfl
    · rw [absolute_of_isIntegral hintegral.1]
      exact standsFor_toDigits_point _
  · obtain ⟨cs, htext, hcs⟩ := shortestText_reads hfinite
    refine ⟨cs, ?_, hcs⟩
    rw [htext, signText, hsign]
    rfl

end Number

end Lox
