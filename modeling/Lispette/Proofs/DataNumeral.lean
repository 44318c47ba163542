import Lispette.Proofs.Delimited
import Lispette.Proofs.Numeral

/-!
# Numbers in data files

A finite number has a text of its own in data files. Positional texts are read back as the number
they were written for, and texts with an exponent hold the very digits and exponent of the decimal.
The two forms cannot be confused, since only one of them has an exponent mark, and neither can be
confused with a whole number, since each has a mark that is not a digit.
-/

namespace Lispette

namespace Decimal

/-! ## Texts with an exponent -/

/-- A point after the first digit, if there are more. -/
def pointed : List Char → List Char
  | lead :: c :: cs => lead :: '.' :: c :: cs
  | digits => digits

theorem scientific_eq (d : Decimal) :
    d.scientific = pointed (Nat.toDigits 10 d.digits) ++
      'e' :: (if d.scientificExponent < 0 then '-' else '+') ::
        Nat.toDigits 10 d.scientificExponent.natAbs := by
  unfold scientific
  cases Nat.toDigits 10 d.digits with
  | nil => rfl
  | cons lead cs => cases cs <;> rfl

/-- The digits of a mantissa are the digits of the number; the point is put between them. -/
theorem filter_pointed {digits : List Char} (h : ∀ c ∈ digits, c.isDigit = true) :
    (pointed digits).filter Char.isDigit = digits := by
  unfold pointed
  split
  · rename_i lead c cs
    obtain ⟨hlead, hrest⟩ := List.forall_mem_cons.1 h
    rw [List.filter_cons_of_pos hlead, List.filter_cons_of_neg (by decide),
      List.filter_eq_self.2 hrest]
  · exact List.filter_eq_self.2 h

theorem mem_pointed {digits : List Char} {c : Char} (h : c ∈ pointed digits) :
    c ∈ digits ∨ c = '.' := by
  unfold pointed at h
  split at h
  · simp only [List.mem_cons] at h ⊢
    tauto
  · exact .inl h

theorem exponent_mark_not_mem_digits {digits : List Char} (h : ∀ c ∈ digits, c.isDigit = true) :
    'e' ∉ digits := by
  intro hmem
  exact absurd (h 'e' hmem) (by decide)

/-- The first mark of an exponent is therefore the end of the mantissa. -/
theorem exponent_mark_not_mem_pointed {digits : List Char}
    (h : ∀ c ∈ digits, c.isDigit = true) : 'e' ∉ pointed digits := by
  intro hmem
  rcases mem_pointed hmem with hmem | hmark
  · exact exponent_mark_not_mem_digits h hmem
  · exact absurd hmark (by decide)

/-- Digits and exponent stand in the text. -/
theorem scientific_inj {d d' : Decimal} (h : d.scientific = d'.scientific) : d = d' := by
  rw [scientific_eq, scientific_eq] at h
  obtain ⟨hmantissa, htail⟩ := Text.append_cons_inj
    (exponent_mark_not_mem_pointed isDigit_of_mem_toDigits)
    (exponent_mark_not_mem_pointed isDigit_of_mem_toDigits) h
  obtain ⟨hsign, hexponent⟩ := List.cons.inj htail
  have htext : Nat.toDigits 10 d.digits = Nat.toDigits 10 d'.digits := by
    rw [← filter_pointed (isDigit_of_mem_toDigits (n := d.digits)), hmantissa,
      filter_pointed isDigit_of_mem_toDigits]
  have hmagnitude : d.scientificExponent.natAbs = d'.scientificExponent.natAbs :=
    Text.toDigits_inj hexponent
  have hminus (e : Int) : (if e < 0 then '-' else '+') = '-' ↔ e < 0 := by
    by_cases he : e < 0 <;> simp [he]
  have hnegative : d.scientificExponent < 0 ↔ d'.scientificExponent < 0 := by
    rw [← hminus, hsign, hminus]
  have hscientific : d.scientificExponent = d'.scientificExponent := by omega
  have hdigits : d.digits = d'.digits := Text.toDigits_inj htext
  have hexp : d.exponent = d'.exponent := by
    unfold scientificExponent at hscientific
    rw [htext] at hscientific
    omega
  cases d
  cases d'
  exact congrArg₂ Decimal.mk hdigits hexp

/-! ## Both forms -/

/-- A text without an exponent has digits on both sides of a point, and is read back. -/
theorem dataText_cases (d : Decimal) :
    (∃ whole places : List Char, d.dataText = whole ++ '.' :: places ∧
      (∀ c ∈ whole, c.isDigit = true) ∧ whole ≠ [] ∧ (∀ c ∈ places, c.isDigit = true) ∧
      (ofNumeral d.dataText).code = d.code) ∨
    d.dataText = d.scientific := by
  unfold dataText
  by_cases hrange : -5 ≤ d.scientificExponent ∧ d.scientificExponent ≤ 15
  · left
    rw [if_pos hrange]
    rcases d.positional_cases with ⟨e, he, hdigits, hne, hvalue⟩ |
      ⟨whole, places, htext, hwhole, hne, hplaces, hpne, he, -⟩
    · have hzero : ∀ c ∈ ['0'], c.isDigit = true := List.forall_mem_singleton.2 (by decide)
      rw [if_pos (by omega)]
      refine ⟨d.positional, ['0'], rfl, hdigits, hne, hzero, ?_⟩
      rw [ofNumeral_point hdigits hzero, Nat.ofDigitChars_append, hvalue]
      -- The zero behind the point is one digit and one place more.
      refine code_congr 1 (Int.le_refl 0) (by rw [he]; omega) ?_
      have hshift : (d.exponent + ((1 : Nat) : Int)).toNat = e + 1 := by omega
      rw [hshift, Nat.pow_succ]
      change (10 * (d.digits * 10 ^ e) + 0) * 10 ^ 0 = _
      ring
    · have hpos := List.length_pos_iff.2 hpne
      rw [if_neg (by omega)]
      exact ⟨whole, places, htext, hwhole, hne, hplaces, code_ofNumeral_positional d⟩
  · right
    rw [if_neg hrange]

theorem exponent_mark_mem_scientific (d : Decimal) : 'e' ∈ d.scientific := by
  rw [scientific_eq]
  simp

theorem exponent_mark_not_mem_point {whole places : List Char}
    (hwhole : ∀ c ∈ whole, c.isDigit = true) (hplaces : ∀ c ∈ places, c.isDigit = true) :
    'e' ∉ whole ++ '.' :: places := by
  intro hmem
  rcases List.mem_append.1 hmem with hmem | hmem
  · exact exponent_mark_not_mem_digits hwhole hmem
  · rcases List.mem_cons.1 hmem with hmark | hmem
    · exact absurd hmark (by decide)
    · exact exponent_mark_not_mem_digits hplaces hmem

/-- Decimals with one text are read as one number. -/
theorem code_eq_of_dataText_eq {d d' : Decimal} (h : d.dataText = d'.dataText) :
    d.code = d'.code := by
  have hmark := exponent_mark_mem_scientific
  rcases d.dataText_cases with ⟨whole, places, htext, hwhole, -, hplaces, hcode⟩ | htext <;>
    rcases d'.dataText_cases with ⟨whole', places', htext', hwhole', -, hplaces', hcode'⟩ | htext'
  · rw [← hcode, h, hcode']
  · refine absurd (hmark d') ?_
    rw [← htext', ← h, htext]
    exact exponent_mark_not_mem_point hwhole hplaces
  · refine absurd (hmark d) ?_
    rw [← htext, h, htext']
    exact exponent_mark_not_mem_point hwhole' hplaces'
  · rw [htext, htext'] at h
    rw [scientific_inj h]

/-! ## The characters of a text -/

/-- The characters of which the texts of numbers consist. -/
def isNumberChar (c : Char) : Bool := c.isDigit || c = '-' || c = '+' || c = '.' || c = 'e'

theorem isNumberChar_of_isDigit {c : Char} (h : c.isDigit = true) : isNumberChar c = true := by
  simp [isNumberChar, h]

theorem isNumberChar_scientific (d : Decimal) : ∀ c ∈ d.scientific, isNumberChar c = true := by
  intro c hc
  rw [scientific_eq] at hc
  simp only [List.mem_append, List.mem_cons] at hc
  rcases hc with hc | rfl | rfl | hc
  · rcases mem_pointed hc with hc | rfl
    · exact isNumberChar_of_isDigit (isDigit_of_mem_toDigits c hc)
    · decide
  · decide
  · split <;> decide
  · exact isNumberChar_of_isDigit (isDigit_of_mem_toDigits c hc)

/-- Both forms are made of digits, signs, points and the mark of the exponent. -/
theorem isNumberChar_dataText (d : Decimal) : ∀ c ∈ d.dataText, isNumberChar c = true := by
  rcases d.dataText_cases with ⟨whole, places, htext, hwhole, -, hplaces, -⟩ | htext
  · rw [htext]
    intro c hc
    simp only [List.mem_append, List.mem_cons] at hc
    rcases hc with hc | rfl | hc
    · exact isNumberChar_of_isDigit (hwhole c hc)
    · decide
    · exact isNumberChar_of_isDigit (hplaces c hc)
  · rw [htext]
    exact d.isNumberChar_scientific

/-- No text of a number looks like a whole number. -/
theorem exists_mark_dataText (d : Decimal) : ∃ c ∈ d.dataText, c.isDigit = false := by
  rcases d.dataText_cases with ⟨whole, places, htext, -⟩ | htext
  · exact ⟨'.', by simp [htext], by decide⟩
  · exact ⟨'e', htext ▸ d.exponent_mark_mem_scientific, by decide⟩

theorem head_dataText (d : Decimal) : ∃ c cs, d.dataText = c :: cs ∧ c.isDigit = true := by
  rcases d.dataText_cases with ⟨whole, places, htext, hwhole, hne, -⟩ | htext
  · cases whole with
    | nil => exact absurd rfl hne
    | cons c cs => exact ⟨c, cs ++ '.' :: places, htext, hwhole c (by simp)⟩
  · have hdigits := isDigit_of_mem_toDigits (n := d.digits)
    rw [htext, scientific_eq]
    cases hlead : Nat.toDigits 10 d.digits with
    | nil => exact absurd hlead Nat.toDigits_ne_nil
    | cons c cs =>
      rw [hlead] at hdigits
      cases cs with
      | nil => exact ⟨c, _, rfl, hdigits c (by simp)⟩
      | cons c' cs => exact ⟨c, _, rfl, hdigits c (by simp)⟩

end Decimal

end Lispette
