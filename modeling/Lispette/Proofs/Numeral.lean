import Mathlib.Data.List.TakeWhile
import Mathlib.Tactic.Ring
import Lispette.Number.Numeral
import Lispette.Text.Lexeme

/-!
# Numerals are read back

The numeral that is written for a number is read as that number again. Three facts lie behind this:
the code nearest to a quotient does not depend on how the quotient is written, so that shifting the
point or dropping zeros changes nothing; every magnitude is nearest to itself; and the search for
few digits keeps only what is read as the given code.
-/

namespace Lispette

namespace Binary64

/-! ## Rounding -/

theorem roundDiv_mul_left {k : Nat} (hk : 0 < k) (n d : Nat) :
    roundDiv (k * n) (k * d) = roundDiv n d := by
  have hdiv : k * n / (k * d) = n / d := Nat.mul_div_mul_left n d hk
  have hmod : 2 * (k * n % (k * d)) = k * (2 * (n % d)) := by
    rw [Nat.mul_mod_mul_left, Nat.mul_left_comm]
  unfold roundDiv
  rw [hdiv, hmod]
  simp only [Nat.mul_lt_mul_left hk]

/-- The nearest double depends on the quotient only. -/
theorem nearestCode_mul_left {k : Nat} (hk : 0 < k) (n d : Nat) :
    nearestCode (k * n) (k * d) = nearestCode n d := by
  unfold nearestCode
  rw [Nat.mul_div_mul_left n d hk]
  dsimp only
  rw [Nat.mul_assoc, roundDiv_mul_left hk]

theorem roundDiv_mul_self (n : Nat) {d : Nat} (hd : 0 < d) : roundDiv (n * d) d = n := by
  unfold roundDiv
  rw [Nat.mul_mod_left, Nat.mul_div_cancel n hd, if_pos (by omega)]

/-- The leading bit of a full significand, once it is shifted. -/
theorem log2_mul_two_pow {m : Nat} (hlow : 2 ^ 52 ≤ m) (hhigh : m < 2 ^ 53) (e : Nat) :
    (m * 2 ^ e).log2 = 52 + e := by
  have hpow : 0 < 2 ^ e := Nat.two_pow_pos e
  have hne : m * 2 ^ e ≠ 0 := Nat.mul_ne_zero (by omega) (Nat.ne_of_gt hpow)
  rw [Nat.log2_eq_iff hne]
  constructor
  · rw [Nat.pow_add]
    exact Nat.mul_le_mul_right _ hlow
  · rw [Nat.add_right_comm, Nat.pow_add]
    exact Nat.mul_lt_mul_of_pos_right hhigh hpow

/-- Every magnitude is nearest to itself. -/
theorem nearestCode_units (code : Nat) : nearestCode (units code) 1 = code := by
  have hcodes : fractionCodes = 2 ^ 52 := by decide
  unfold units
  -- The smallest magnitudes are their own codes; above them, the shift undoes the exponent.
  by_cases hsmall : code < fractionCodes
  · have hshift : code.log2 - 52 = 0 := by
      by_cases hzero : code = 0
      · simp [hzero]
      · have hlog := (Nat.log2_lt hzero).2 (hcodes ▸ hsmall)
        omega
    have hself : roundDiv code 1 = code := by
      have hround := roundDiv_mul_self code Nat.one_pos
      rwa [Nat.mul_one] at hround
    rw [if_pos hsmall, nearestCode, Nat.div_one, hshift]
    simpa using hself
  · have hrest : code % fractionCodes < fractionCodes := Nat.mod_lt _ (by decide)
    have hlog := log2_mul_two_pow (m := fractionCodes + code % fractionCodes)
      (by omega) (by omega) (code / fractionCodes - 1)
    have hexponent : 0 < code / fractionCodes := Nat.div_pos (by omega) (by decide)
    have hparts := Nat.div_add_mod code fractionCodes
    rw [if_neg hsmall, nearestCode, Nat.div_one, Nat.pow_eq, hlog, Nat.add_sub_cancel_left,
      Nat.one_mul, Nat.pow_eq, roundDiv_mul_self _ (Nat.two_pow_pos _)]
    calc
      (code / fractionCodes - 1) * fractionCodes + (fractionCodes + code % fractionCodes) =
          (code / fractionCodes - 1 + 1) * fractionCodes + code % fractionCodes := by
        rw [Nat.add_mul, Nat.one_mul, Nat.add_assoc]
      _ = fractionCodes * (code / fractionCodes) + code % fractionCodes := by
        rw [Nat.sub_add_cancel hexponent, Nat.mul_comm]
      _ = code := hparts

end Binary64

namespace Decimal

open Binary64

/-! ## The code of a decimal -/

/-- The code, with the point moved as far to the right as needed. -/
theorem code_eq (d : Decimal) (k : Nat) (hk : 0 ≤ d.exponent + k) :
    d.code =
      nearestCode (d.digits * 10 ^ (d.exponent + k).toNat * Nat.pow 2 1074) (10 ^ k) := by
  rcases d with ⟨digits, exponent⟩
  unfold code
  generalize Nat.pow 2 1074 = unit
  cases exponent with
  | ofNat e =>
    have hshift : (Int.ofNat e + (k : Int)).toNat = k + e := by
      change (((e : Nat) : Int) + (k : Int)).toNat = k + e
      omega
    have hscaled := nearestCode_mul_left (Nat.pow_pos (by decide : 0 < 10) : 0 < 10 ^ k)
      (digits * 10 ^ e * unit) 1
    dsimp only
    rw [hshift, Nat.pow_eq, ← hscaled, Nat.mul_one, Nat.pow_add]
    congr 1
    ring
  | negSucc e =>
    have hle : e + 1 ≤ k := by
      change 0 ≤ Int.negSucc e + (k : Int) at hk
      omega
    have hshift : (Int.negSucc e + (k : Int)).toNat = k - (e + 1) := by omega
    have hscaled := nearestCode_mul_left
      (Nat.pow_pos (by decide : 0 < 10) : 0 < 10 ^ (k - (e + 1))) (digits * unit) (10 ^ (e + 1))
    dsimp only
    rw [hshift, Nat.pow_eq, ← hscaled, ← Nat.pow_add, Nat.sub_add_cancel hle]
    congr 1
    ac_rfl

/-- Two ways to write one number have one code. -/
theorem code_congr {c d : Decimal} (k : Nat) (hc : 0 ≤ c.exponent + k) (hd : 0 ≤ d.exponent + k)
    (h : c.digits * 10 ^ (c.exponent + k).toNat = d.digits * 10 ^ (d.exponent + k).toNat) :
    c.code = d.code := by
  rw [code_eq c k hc, code_eq d k hd, h]

theorem code_trim (d : Decimal) : d.trim.code = d.code := by
  induction d using trim.induct with
  | case1 d h ih =>
    rw [trim, dif_pos h, ih]
    have hshift : (d.exponent + 1 + (d.exponent.natAbs : Int)).toNat =
        (d.exponent + (d.exponent.natAbs : Int)).toNat + 1 := by
      omega
    refine code_congr d.exponent.natAbs (by dsimp only; omega) (by omega) ?_
    dsimp only
    rw [hshift, Nat.pow_succ, Nat.mul_comm (10 ^ _) 10, ← Nat.mul_assoc,
      Nat.div_mul_cancel (Nat.dvd_of_mod_eq_zero h.2)]
  | case2 d h => rw [trim, dif_neg h]

/-- A neighbour is taken only if it is read back as the number. -/
theorem code_of_neighbour {tie : Tie} {code n places : Nat} {d : Decimal}
    (h : neighbour? tie code n places = some d) : d.code = code := by
  unfold neighbour? at h
  have hfound := List.find?_some h
  simpa using hfound

theorem nearestCode_expansion (code places : Nat) :
    nearestCode (units code * Nat.pow 5 places * Nat.pow 2 places) (10 ^ places) = code := by
  have hten : 10 ^ places = 5 ^ places * 2 ^ places := Nat.mul_pow 5 2 places
  have hpos : 0 < 10 ^ places := Nat.pow_pos (by decide)
  calc
    nearestCode (units code * Nat.pow 5 places * Nat.pow 2 places) (10 ^ places) =
        nearestCode (10 ^ places * units code) (10 ^ places * 1) := by
      rw [Nat.pow_eq, Nat.pow_eq, Nat.mul_assoc, ← hten, Nat.mul_one, Nat.mul_comm]
    _ = nearestCode (units code) 1 := nearestCode_mul_left hpos _ _
    _ = code := nearestCode_units code

/-- All digits of a magnitude are read as that magnitude. -/
theorem code_expansion (code : Nat) :
    (⟨units code * Nat.pow 5 1074, -1074⟩ : Decimal).code = code := by
  have hplaces : ((-1074 : Int) + ((1074 : Nat) : Int)).toNat = 0 := by decide
  rw [code_eq _ 1074 (by dsimp only; omega)]
  dsimp only
  rw [hplaces, Nat.pow_zero, Nat.mul_one]
  generalize 1074 = places
  exact nearestCode_expansion code places

/-- Whatever digits are found, they are read as the number; and if none are found, the full
expansion is. -/
theorem code_shortest (tie : Tie) (code : Nat) : (shortest tie code).code = code := by
  unfold shortest
  by_cases hzero : code = 0
  · rw [if_pos hzero, hzero]
    decide +kernel
  · rw [if_neg hzero, code_trim]
    generalize hfound : (List.range 17).findSome? _ = found
    cases found with
    | none => exact code_expansion code
    | some d =>
      obtain ⟨n, -, hn⟩ := List.exists_of_findSome?_eq_some hfound
      exact code_of_neighbour hn

/-! ## The value of a numeral -/

/-- A numeral without a point. -/
theorem ofNumeral_of_digits {text : List Char} (h : ∀ c ∈ text, c.isDigit = true) :
    ofNumeral text = ⟨Nat.ofDigitChars 10 text 0, 0⟩ := by
  have hpoint : text.dropWhile (· ≠ '.') = [] := by
    rw [List.dropWhile_eq_nil_iff]
    intro c hc
    have hdigit := h c hc
    by_cases hdot : c = '.'
    · rw [hdot] at hdigit
      exact absurd hdigit (by decide)
    · simpa using hdot
  rw [ofNumeral, digitsValue, List.filter_eq_self.2 h, hpoint]
  rfl

/-- A numeral with a point: its value has as many places as digits follow the point. -/
theorem ofNumeral_point {whole places : List Char} (hwhole : ∀ c ∈ whole, c.isDigit = true)
    (hplaces : ∀ c ∈ places, c.isDigit = true) :
    ofNumeral (whole ++ '.' :: places) =
      ⟨Nat.ofDigitChars 10 (whole ++ places) 0, -(places.length : Int)⟩ := by
  have hkept : (whole ++ '.' :: places).filter Char.isDigit = whole ++ places := by
    rw [List.filter_append, List.filter_cons_of_neg (by decide), List.filter_eq_self.2 hwhole,
      List.filter_eq_self.2 hplaces]
  have hpoint : (whole ++ '.' :: places).dropWhile (· ≠ '.') = '.' :: places := by
    rw [List.dropWhile_append_of_pos]
    · simp
    · rintro c hc
      have hdigit := hwhole c hc
      by_cases hdot : c = '.'
      · rw [hdot] at hdigit
        exact absurd hdigit (by decide)
      · simpa using hdot
  rw [ofNumeral, digitsValue, hkept, hpoint, List.filter_cons_of_neg (by decide),
    List.filter_eq_self.2 hplaces]
  rfl

theorem ofDigitChars_zeros (n value : Nat) :
    Nat.ofDigitChars 10 (List.replicate n '0') value = value * 10 ^ n := by
  induction n generalizing value with
  | zero => rw [Nat.pow_zero, Nat.mul_one]; rfl
  | succ n ih =>
    rw [List.replicate_succ, Nat.ofDigitChars_cons, ih, Nat.sub_self, Nat.add_zero, Nat.pow_succ]
    ac_rfl

theorem isDigit_of_mem_toDigits {n : Nat} : ∀ c ∈ Nat.toDigits 10 n, c.isDigit = true :=
  fun _ hc ↦ Nat.isDigit_of_mem_toDigits (by decide) (by decide) hc

theorem isDigit_of_mem_zeros {n : Nat} : ∀ c ∈ List.replicate n '0', c.isDigit = true := by
  intro c hc
  rw [List.eq_of_mem_replicate hc]
  decide

/-- Digits, with zeros in front of them where they are too few to leave one before the point. -/
def padded (digits places : Nat) : List Char :=
  List.replicate (places + 1 - (Nat.toDigits 10 digits).length) '0' ++ Nat.toDigits 10 digits

theorem isDigit_of_mem_padded {digits places : Nat} :
    ∀ c ∈ padded digits places, c.isDigit = true :=
  List.forall_mem_append.2 ⟨isDigit_of_mem_zeros, isDigit_of_mem_toDigits⟩

theorem lt_length_padded (digits places : Nat) : places < (padded digits places).length := by
  rw [padded, List.length_append, List.length_replicate]
  omega

/-- Zeros in front do not change the value. -/
theorem ofDigitChars_padded (digits places : Nat) :
    Nat.ofDigitChars 10 (padded digits places) 0 = digits := by
  rw [padded, Nat.ofDigitChars_append, ofDigitChars_zeros, Nat.zero_mul,
    Nat.ofDigitChars_toDigits (by decide) (by decide)]

/-- The two forms of a numeral, with what its digits say. -/
theorem positional_cases (d : Decimal) :
    (∃ e : Nat, d.exponent = e ∧ (∀ c ∈ d.positional, c.isDigit = true) ∧ d.positional ≠ [] ∧
      Nat.ofDigitChars 10 d.positional 0 = d.digits * 10 ^ e) ∨
    ∃ whole places : List Char, d.positional = whole ++ '.' :: places ∧
      (∀ c ∈ whole, c.isDigit = true) ∧ whole ≠ [] ∧
      (∀ c ∈ places, c.isDigit = true) ∧ places ≠ [] ∧
      d.exponent = -(places.length : Int) ∧ Nat.ofDigitChars 10 (whole ++ places) 0 = d.digits := by
  rcases d with ⟨digits, exponent⟩
  cases exponent with
  | ofNat e =>
    refine .inl ⟨e, rfl, List.forall_mem_append.2 ⟨isDigit_of_mem_toDigits, isDigit_of_mem_zeros⟩,
      ?_, ?_⟩
    · intro h
      have hpos := Nat.length_toDigits_pos (b := 10) (n := digits)
      rw [(List.append_eq_nil_iff.1 h).1] at hpos
      simp at hpos
    · change Nat.ofDigitChars 10 (Nat.toDigits 10 digits ++ List.replicate e '0') 0 =
        digits * 10 ^ e
      rw [Nat.ofDigitChars_append, Nat.ofDigitChars_toDigits (by decide) (by decide),
        ofDigitChars_zeros]
  | negSucc e =>
    let text := padded digits (e + 1)
    have hlength : e + 1 < text.length := lt_length_padded digits (e + 1)
    have hdigits : ∀ c ∈ text, c.isDigit = true := isDigit_of_mem_padded
    have hplaces : (text.drop (text.length - (e + 1))).length = e + 1 := by
      rw [List.length_drop]
      omega
    refine .inr ⟨text.take (text.length - (e + 1)), text.drop (text.length - (e + 1)), rfl,
      fun c hc ↦ hdigits c (List.mem_of_mem_take hc), ?_,
      fun c hc ↦ hdigits c (List.mem_of_mem_drop hc), ?_, ?_, ?_⟩
    · intro h
      have hzero := congrArg List.length h
      rw [List.length_take, List.length_nil] at hzero
      omega
    · intro h
      rw [h] at hplaces
      simp at hplaces
    · rw [hplaces]
      rfl
    · rw [List.take_append_drop]
      exact ofDigitChars_padded digits (e + 1)

/-- A numeral begins with a digit. -/
theorem positional_head (d : Decimal) : ∃ c cs, d.positional = c :: cs ∧ c.isDigit = true := by
  rcases d.positional_cases with ⟨e, -, hdigits, hne, -⟩ |
    ⟨whole, places, htext, hwhole, hne, -, -, -, -⟩
  · cases htext : d.positional with
    | nil => exact absurd htext hne
    | cons c cs => exact ⟨c, cs, rfl, hdigits c (by simp [htext])⟩
  · cases whole with
    | nil => exact absurd rfl hne
    | cons c cs => exact ⟨c, cs ++ '.' :: places, htext, hwhole c (by simp)⟩

/-- The numeral is read as the same number. -/
theorem code_ofNumeral_positional (d : Decimal) : (ofNumeral d.positional).code = d.code := by
  rcases d.positional_cases with ⟨e, he, hdigits, -, hvalue⟩ |
    ⟨whole, places, htext, hwhole, -, hplaces, -, he, hvalue⟩
  · rw [ofNumeral_of_digits hdigits, hvalue]
    refine code_congr 0 (Int.le_refl 0) (by rw [he]; omega) ?_
    have hshift : (d.exponent + ((0 : Nat) : Int)).toNat = e := by omega
    rw [hshift]
    exact Nat.mul_one _
  · rw [htext, ofNumeral_point hwhole hplaces, hvalue, ← he]

end Decimal

/-- A number that is not negative is read back from its text. -/
theorem Binary64.ofDecimal_display (code : Fin Binary64.finiteCodes) :
    Binary64.ofDecimal false (Decimal.ofNumeral (Binary64.finite false code).display.toList) =
      .finite false code := by
  have hcode : (Decimal.ofNumeral (Binary64.finite false code).display.toList).code = code := by
    rw [display, signed, String.toList_ofList]
    exact (Decimal.code_ofNumeral_positional _).trans (Decimal.code_shortest _ _)
  rw [ofDecimal, ofCode, hcode, dif_pos code.isLt]

theorem Binary64.isDigit_or_point_of_mem_display (code : Fin finiteCodes) :
    ∀ c ∈ (finite false code).display.toList, c.isDigit = true ∨ c = '.' := by
  intro c hc
  rw [display, signed, String.toList_ofList, if_neg (by decide)] at hc
  rcases (Decimal.shortest .awayFromZero code).positional_cases with ⟨_, -, hdigits, -⟩ |
    ⟨whole, places, htext, hwhole, -, hplaces, -⟩
  · exact .inl (hdigits c hc)
  · rw [htext, List.mem_append, List.mem_cons] at hc
    rcases hc with hc | hc | hc
    · exact .inl (hwhole c hc)
    · exact .inr hc
    · exact .inl (hplaces c hc)

theorem Binary64.display_inj {code code' : Fin finiteCodes}
    (h : (finite false code).display = (finite false code').display) :
    finite false code = finite false code' := by
  calc
    finite false code = ofDecimal false (Decimal.ofNumeral (finite false code).display.toList) :=
      (ofDecimal_display code).symm
    _ = finite false code' := by rw [h, ofDecimal_display]

namespace Text

/-! ## The width of a numeral -/

theorem isNameChar_of_isDigit {c : Char} (h : c.isDigit = true) : isNameChar c = true := by
  simp [isNameChar, Char.isAlphanum, h]

/-- Without underscores, a run of digits goes up to the first character that is none. -/
theorem digitsTailWidth_append {digits rest : List Char} (h : ∀ c ∈ digits, c.isDigit = true)
    (hrest : ∀ c ∈ rest.head?, isNameChar c = false) :
    digitsTailWidth (digits ++ rest) = digits.length := by
  induction digits with
  | nil =>
    -- What stops a name is neither a digit nor an underscore.
    cases rest with
    | nil => rfl
    | cons c cs =>
      have hc : isNameChar c = false := hrest c rfl
      have hdigit : c.isDigit = false := by
        cases hdigit : c.isDigit with
        | false => rfl
        | true => rw [isNameChar_of_isDigit hdigit] at hc; cases hc
      have hunderscore : c ≠ '_' := by
        rintro rfl
        exact absurd hc (by decide)
      cases cs <;> simp [digitsTailWidth, hdigit, hunderscore]
  | cons c cs ih =>
    obtain ⟨hc, hcs⟩ := List.forall_mem_cons.1 h
    have hmore := ih hcs
    rw [List.cons_append]
    cases hnext : cs ++ rest with
    | nil =>
      rw [(List.append_eq_nil_iff.1 hnext).1]
      simp [digitsTailWidth, hc]
    | cons d ds =>
      rw [digitsTailWidth, if_pos hc, ← hnext, hmore, List.length_cons, Nat.add_comm]

theorem digitsWidth_append {digits rest : List Char} (hne : digits ≠ [])
    (h : ∀ c ∈ digits, c.isDigit = true) (hrest : ∀ c ∈ rest.head?, isNameChar c = false) :
    digitsWidth (digits ++ rest) = digits.length := by
  cases digits with
  | nil => exact absurd rfl hne
  | cons c cs =>
    obtain ⟨hc, hcs⟩ := List.forall_mem_cons.1 h
    rw [List.cons_append, digitsWidth, if_pos hc, digitsTailWidth_append hcs hrest,
      List.length_cons, Nat.add_comm]

/-- A numeral that is written ends where it is read to end. -/
theorem numeralWidth_positional (d : Decimal) {rest : List Char}
    (hrest : ∀ c ∈ rest.head?, isNameChar c = false ∧ c ≠ '.') :
    numeralWidth (d.positional ++ rest) = d.positional.length := by
  have hname : ∀ c ∈ rest.head?, isNameChar c = false := fun c hc ↦ (hrest c hc).1
  rcases d.positional_cases with ⟨e, -, hdigits, hne, -⟩ |
    ⟨whole, places, htext, hwhole, hwne, hplaces, hpne, -, -⟩
  · have hwidth := digitsWidth_append hne hdigits hname
    have hfraction : fractionWidth rest = 0 := by
      cases rest with
      | nil => rfl
      | cons c cs =>
        have hdot : c ≠ '.' := (hrest c rfl).2
        unfold fractionWidth
        split
        · rename_i heq
          exact absurd (List.cons.inj heq).1 hdot
        · rfl
    have hpos := List.length_pos_iff.2 hne
    rw [numeralWidth, hwidth, if_neg (by omega), List.drop_left, hfraction, Nat.add_zero]
  · have hpoint : ∀ c ∈ ('.' :: (places ++ rest)).head?, isNameChar c = false := by
      rintro c ⟨⟩
      decide
    have hwidth := digitsWidth_append hwne hwhole hpoint
    have hmore := digitsWidth_append hpne hplaces hname
    have hpos := List.length_pos_iff.2 hwne
    have hpos' := List.length_pos_iff.2 hpne
    rw [htext, List.append_assoc, List.cons_append, numeralWidth, hwidth, if_neg (by omega),
      List.drop_left, fractionWidth, hmore, if_neg (by omega), List.length_append,
      List.length_cons, Nat.add_comm 1]

end Text

end Lispette
