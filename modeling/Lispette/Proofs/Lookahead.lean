import Lispette.Proofs.Shape
import Lispette.Proofs.Vocabulary

/-!
# What begins and what follows an expression

The grammar has no tokens, and its alternatives are tried in order. That an alternative refuses what
is meant for a later one is seen from the first few characters: an opening parenthesis is followed
by a keyword, an operator with a space after it, the arrow of a chain, or by something that can be
called; and nothing that can be called begins like any of the others.
-/

namespace Lispette

open Lispette.Parser Grammar

/-! ## What follows -/

/-- The input is at its end or goes on with one of the characters. -/
def Follows (chars input : List Char) : Prop := ∀ c ∈ input.head?, c ∈ chars

/-- What may come after an expression. -/
def stops : List Char := [' ', ')', ']', '\x7d']

theorem follows_cons {chars cs : List Char} {c : Char} (h : c ∈ chars) :
    Follows chars (c :: cs) := by
  rintro d ⟨⟩
  exact h

theorem Follows.slash {input : List Char} (h : Follows stops input) :
    Follows ('/' :: stops) input :=
  fun c hc ↦ List.mem_cons_of_mem _ (h c hc)

theorem Follows.head_ne_slash {input : List Char} (h : Follows stops input) :
    input.head? ≠ some '/' := by
  intro hslash
  exact absurd (h '/' hslash) (by decide)

/-- Behind a target, a slash leads on to its keys; otherwise what follows the keys follows the
target. -/
theorem follows_keys {keys rest : List Char} (hkeys : Follows ['/'] keys)
    (hrest : Follows stops rest) : Follows ('/' :: stops) (keys ++ rest) := by
  cases keys with
  | nil => exact hrest.slash
  | cons c cs =>
    have hc : c ∈ ['/'] := hkeys c rfl
    exact follows_cons (List.mem_cons.2 (.inl (List.mem_singleton.1 hc)))

/-- A numeral does not go on, and neither does a word. -/
theorem Follows.ends {input : List Char} (h : Follows ('/' :: stops) input) :
    ∀ c ∈ input.head?, Text.isNameChar c = false ∧ c ≠ '.' := by
  have hall : ∀ c ∈ '/' :: stops, Text.isNameChar c = false ∧ c ≠ '.' :=
    List.all_iff_forall_prop.1 (by decide)
  exact fun c hc ↦ hall c (h c hc)

theorem Follows.endsWord {input : List Char} (h : Follows ('/' :: stops) input) : EndsWord input :=
  fun c hc ↦ (h.ends c hc).1

/-- Before a closing character there may be further parts, each after a space. -/
theorem follows_flatMap {α : Type} {items : List α} {text : α → List Char} {rest : List Char}
    (htext : ∀ a ∈ items, ∀ more, Follows stops (text a ++ more)) (hrest : Follows stops rest) :
    Follows stops (items.flatMap text ++ rest) := by
  cases items with
  | nil => exact hrest
  | cons a items =>
    rw [List.flatMap_cons, List.append_assoc]
    exact htext a (by simp) _

/-! ## What can be called -/

/-- How the text of something that can be called begins. -/
inductive CallStart : List Char → Prop where
  /-- Digits and names, but no keyword other than `nil`. -/
  | word {word rest : List Char} : word ≠ [] → (∀ c ∈ word, Text.isNameChar c = true) →
    EndsWord rest → (∀ k : Keyword, k ≠ .nil → word ≠ k.word.toList) → CallStart (word ++ rest)
  /-- The parameters of a closure follow their bar directly. -/
  | bar {c : Char} {cs : List Char} : Text.isSpace c = false → CallStart ('|' :: c :: cs)
  | bracket {c : Char} {cs : List Char} : c ∈ ['"', '[', '(', '\x7b'] → CallStart (c :: cs)

theorem isNameChar_toNat {c : Char} (h : Text.isNameChar c = true) :
    48 ≤ c.toNat ∧ c.toNat ≤ 122 := by
  simp only [Text.isNameChar, Char.isAlphanum, Bool.or_eq_true, decide_eq_true_eq] at h
  rcases h with (halpha | hdigit) | rfl
  · have hletter := toNat_of_isAlpha halpha
    omega
  · have hrange := toNat_of_isDigit hdigit
    omega
  · decide

/-- Characters of names lie in one range of ASCII, in which there is no white space. -/
theorem isSpace_of_isNameChar {c : Char} (h : Text.isNameChar c = true) :
    Text.isSpace c = false := by
  have hrange := isNameChar_toNat h
  simp only [Text.isSpace, Text.spaceRanges, List.any_cons, List.any_nil, Bool.or_false,
    Bool.or_eq_false_iff, Bool.and_eq_false_iff, decide_eq_false_iff_not]
  omega

namespace CallStart

variable {input : List Char}

theorem head (h : CallStart input) : ∃ c cs, input = c :: cs ∧
    (Text.isNameChar c = true ∨ c ∈ ['|', '"', '[', '(', '\x7b']) := by
  cases h with
  | @word word rest hne hchars =>
    cases word with
    | nil => exact absurd rfl hne
    | cons c cs => exact ⟨c, cs ++ rest, rfl, .inl (hchars c (by simp))⟩
  | bar => exact ⟨_, _, rfl, .inr (by simp)⟩
  | bracket hc => exact ⟨_, _, rfl, .inr (List.mem_cons_of_mem _ hc)⟩

theorem solid (h : CallStart input) : Solid input := by
  obtain ⟨c, cs, rfl, hc | hc⟩ := h.head
  · refine solid_cons (isSpace_of_isNameChar hc) ?_
    rintro rfl
    exact absurd hc (by decide)
  · have hall : ∀ c ∈ ['|', '"', '[', '(', '\x7b'], Text.isSpace c = false ∧ c ≠ ';' :=
      List.all_iff_forall_prop.1 (by decide)
    exact solid_cons (hall c hc).1 (hall c hc).2

/-- It does not begin with a character that neither a name nor anything bracketed begins with. -/
theorem head_ne (h : CallStart input) {d : Char} (hname : Text.isNameChar d = false)
    (hd : d ∉ ['|', '"', '[', '(', '\x7b']) : input.head? ≠ some d := by
  obtain ⟨c, cs, rfl, hc | hc⟩ := h.head
  · rintro ⟨⟩
    rw [hname] at hc
    cases hc
  · rintro ⟨⟩
    exact hd hc

theorem refuses_unary (h : CallStart input) : Refuses unaryOperator input := by
  refine refuses_unaryOperator fun op ↦ ?_
  cases op <;> exact h.head_ne (by decide) (by decide)

theorem refuses_arrow (h : CallStart input) : Refuses (literal "~>") input :=
  .literal (h.head_ne (by decide) (by decide))

theorem refuses_keyword (h : CallStart input) (k : Keyword) (hk : k ≠ .nil) :
    Refuses (keyword k.word) input := by
  cases h with
  | word _ hchars hrest hne =>
    exact Lispette.refuses_keyword (isNameChar_keyword k) hchars hrest (hne k hk)
  | bar => exact .keyword_of_head (by cases k <;> simp [Keyword.word])
  | bracket hc =>
    refine .keyword_of_head ?_
    simp only [List.mem_cons, List.not_mem_nil, or_false] at hc
    rcases hc with rfl | rfl | rfl | rfl <;> cases k <;> simp [Keyword.word]

/-- A word in front of its arguments is no operator: operators that are words are keywords. -/
theorem refuses_spelling_of_word {op : BinaryOperator} {word rest : List Char} (hne : word ≠ [])
    (hchars : ∀ c ∈ word, Text.isNameChar c = true) (hrest : EndsWord rest)
    (hkey : ∀ k : Keyword, k ≠ .nil → word ≠ k.word.toList) :
    Refuses (Grammar.spelling op) (word ++ rest) := by
  cases hop : op.isWord with
  | true =>
    have hword : ∃ k : Keyword, k ≠ .nil ∧ op.symbol = k.word := by
      cases op with
      | and => exact ⟨.and, by decide, rfl⟩
      | or => exact ⟨.or, by decide, rfl⟩
      | _ => cases hop
    obtain ⟨k, hk, hspelled⟩ := hword
    unfold Grammar.spelling
    rw [if_pos hop, hspelled]
    exact Lispette.refuses_keyword (isNameChar_keyword k) hchars hrest (hkey k hk)
  | false =>
    refine refuses_spelling_of_head fun hhead ↦ ?_
    cases word with
    | nil => exact hne rfl
    | cons c cs =>
      have hc := BinaryOperator.isNameChar_head_symbol hop c hhead.symm
      rw [hchars c (by simp)] at hc
      cases hc

/-- An operator is followed by a space; a closure is not mistaken for one. -/
theorem refuses_operator (h : CallStart input) : Refuses binaryOperator input := by
  refine refuses_binaryOperator fun op ↦ ?_
  cases h with
  | word hne hchars hrest hkey => exact refuses_spelling_of_word hne hchars hrest hkey
  | @bar c cs hspace =>
    by_cases hop : op = .bitOr
    · subst hop
      have hbar : Reads (literal BinaryOperator.bitOr.symbol) ('|' :: c :: cs) () (c :: cs) :=
        .literal (by decide)
      exact .bind_right hbar (.map _ (.satisfy fun d hd ↦ by cases hd; exact hspace))
    · refine refuses_spelling_of_head ?_
      cases op <;> simp [BinaryOperator.symbol] at hop ⊢
  | bracket hc =>
    refine refuses_spelling_of_head ?_
    simp only [List.mem_cons, List.not_mem_nil, or_false] at hc
    rcases hc with rfl | rfl | rfl | rfl <;> cases op <;> simp [BinaryOperator.symbol]

end CallStart

/-! ## How spellings begin -/

theorem ne_keyword_of_digits {text : List Char} (h : ∀ c ∈ text, c.isDigit = true) (k : Keyword) :
    text ≠ k.word.toList := by
  rintro rfl
  have hletters : k.word.toList.all Char.isDigit = false := by cases k <;> decide
  rw [List.all_eq_true.2 h] at hletters
  cases hletters

/-- The digits before the point are a word that is no keyword. -/
theorem callStart_number (d : Decimal) {rest : List Char}
    (hrest : Follows ('/' :: stops) rest) : CallStart (d.positional ++ rest) := by
  rcases d.positional_cases with ⟨e, -, hdigits, hne, -⟩ |
    ⟨whole, places, htext, hwhole, hne, -, -, -, -⟩
  · exact .word hne (fun c hc ↦ Text.isNameChar_of_isDigit (hdigits c hc)) hrest.endsWord
      fun k _ ↦ ne_keyword_of_digits hdigits k
  · have hpoint : EndsWord ('.' :: (places ++ rest)) := by
      rintro c ⟨⟩
      decide
    rw [htext, List.append_assoc, List.cons_append]
    exact .word hne (fun c hc ↦ Text.isNameChar_of_isDigit (hwhole c hc)) hpoint
      fun k _ ↦ ne_keyword_of_digits hwhole k

theorem callStart_identifier {name : String} {rest : List Char} (hname : isName name = true)
    (hrest : EndsWord rest) : CallStart (name.toList ++ rest) := by
  obtain ⟨c, cs, hword, -, -, hreserved⟩ := isName_cases hname
  refine .word (by simp [hword]) (isNameChar_of_isName hname) hrest fun k _ heq ↦ ?_
  have hsame : name = k.word := String.toList_inj.1 heq
  rw [hsame] at hreserved
  cases k <;> exact absurd hreserved (by decide)

/-- The parameters of a closure do not begin with a space. -/
theorem callStart_closure {parameters : List String} {rest : List Char}
    (h : ∀ name ∈ parameters, isName name = true) :
    CallStart ('|' :: (spaced (names parameters) ++ '|' :: rest)) := by
  cases parameters with
  | nil => exact .bar (by decide)
  | cons name parameters =>
    obtain ⟨c, cs, hword, hc, -, -⟩ := isName_cases (h name (by simp))
    simp only [names, List.map_cons, spaced, hword, List.cons_append]
    exact .bar (isSpace_of_isNameChar (isNameChar_of_isNameStart hc))

namespace Expr

/-- Whatever can be called begins in one of the three ways, so none of the other forms in
parentheses is taken for a call. -/
theorem callStart_primary {e : Expr} (h : e.WellShaped .primary) {rest : List Char}
    (hrest : Follows ('/' :: stops) rest) : CallStart (e.spelling ++ rest) := by
  cases h with
  | number code =>
    rw [spelling, Binary64.display, Binary64.signed, String.toList_ofList]
    exact callStart_number _ hrest
  | string htext => exact .bracket (by decide)
  | boolean value =>
    rw [spelling]
    cases value with
    | true => exact callStart_identifier (by decide) hrest.endsWord
    | false => exact callStart_identifier (by decide) hrest.endsWord
  | nil =>
    rw [spelling]
    refine .word (by decide) (isNameChar_keyword _) hrest.endsWord fun k hk ↦ ?_
    cases k with
    | nil => exact absurd rfl hk
    | _ => decide
  | identifier hname _ _ => exact callStart_identifier hname hrest.endsWord
  | closure hnames _ =>
    rw [spelling, spaced, enclosed, List.cons_append, List.cons_append, List.append_assoc,
      List.append_assoc]
    exact callStart_closure hnames
  | _ => exact .bracket (by decide)

/-- A member access begins like the expression that it selects from. -/
theorem exists_primary {e : Expr} : e.WellShaped .member → ∃ (target : Expr) (more : List Char),
    target.WellShaped .primary ∧ e.spelling = target.spelling ++ more ∧ Follows ['/'] more
  | @WellShaped.member _ key htarget _ => by
    obtain ⟨target, more, hshape, htext, hmore⟩ := exists_primary htarget
    refine ⟨target, more ++ '/' :: key.spelling, hshape, by rw [spelling, htext, List.append_assoc],
      ?_⟩
    cases more with
    | nil => exact follows_cons (by decide)
    | cons c cs => exact follows_cons (hmore c rfl)
  | .ofPrimary h => ⟨e, [], h, (List.append_nil _).symm, by simp [Follows]⟩

theorem callStart_member {e : Expr} (h : e.WellShaped .member) {rest : List Char}
    (hrest : Follows stops rest) : CallStart (e.spelling ++ rest) := by
  obtain ⟨target, more, hshape, htext, hmore⟩ := exists_primary h
  rw [htext, List.append_assoc]
  exact callStart_primary hshape (follows_keys hmore hrest)

/-- No spelling is empty or begins with layout. -/
theorem exists_head {place : Place} {e : Expr} (h : e.WellShaped place) :
    ∃ c cs, e.spelling = c :: cs ∧ Text.isSpace c = false ∧ c ≠ ';' := by
  have hcalled {e : Expr} (hcall : CallStart (e.spelling ++ [])) :
      ∃ c cs, e.spelling = c :: cs ∧ Text.isSpace c = false ∧ c ≠ ';' := by
    rw [List.append_nil] at hcall
    obtain ⟨c, cs, htext, -⟩ := hcall.head
    exact ⟨c, cs, htext, hcall.solid c (by rw [htext]; rfl)⟩
  have hend (chars : List Char) : Follows chars [] := by simp [Follows]
  have hmember {e : Expr} (h : e.WellShaped .member) := hcalled (callStart_member h (hend _))
  have hexpression {e : Expr} (h : e.WellShaped .expression) :
      ∃ c cs, e.spelling = c :: cs ∧ Text.isSpace c = false ∧ c ≠ ';' := by
    cases h with
    | @unary op operand _ =>
      exact ⟨op.symbol, operand.spelling, rfl, by cases op <;> decide, by cases op <;> decide⟩
    | ofMember h => exact hmember h
  cases place with
  | primary => exact hmember (.ofPrimary h)
  | member => exact hmember h
  | expression => exact hexpression h
  | statement =>
    cases h with
    | ofExpression h => exact hexpression h
    | _ => exact ⟨'(', _, rfl, by decide, by decide⟩

/-- Spellings begin with what they are, never with layout. -/
theorem solid_spelling {place : Place} {e : Expr} (h : e.WellShaped place) (rest : List Char) :
    Solid (e.spelling ++ rest) := by
  obtain ⟨c, cs, htext, hspace, hc⟩ := exists_head h
  rw [htext]
  exact solid_cons hspace hc

theorem spelling_ne_nil {place : Place} {e : Expr} (h : e.WellShaped place) : e.spelling ≠ [] := by
  obtain ⟨c, cs, htext, -⟩ := exists_head h
  simp [htext]

end Expr

theorem solid_word {word : List Char} (hne : word ≠ [])
    (hchars : ∀ c ∈ word, Text.isNameChar c = true) (rest : List Char) : Solid (word ++ rest) := by
  cases word with
  | nil => exact absurd rfl hne
  | cons c cs =>
    have hc := hchars c (by simp)
    refine solid_cons (isSpace_of_isNameChar hc) ?_
    rintro rfl
    exact absurd hc (by decide)

theorem solid_name {word : String} (h : isName word = true) (rest : List Char) :
    Solid (word.toList ++ rest) := by
  obtain ⟨c, cs, hword, -⟩ := isName_cases h
  exact solid_word (by simp [hword]) (isNameChar_of_isName h) rest

theorem solid_keyword (k : Keyword) (rest : List Char) : Solid (k.word.toList ++ rest) :=
  solid_word (by cases k <;> decide) (isNameChar_keyword k) rest

end Lispette
