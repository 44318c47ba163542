import Mathlib.Data.Bool.AllAny
import Lispette.Proofs.Lexeme
import Lispette.Proofs.Numeral
import Lispette.Proofs.Reading

/-!
# Reading names, literals and operators

Each atom is read back from its spelling, and refuses inputs that begin with something else. A word
is told from a keyword by the whole run of name characters at the front of the input, so that
neither a longer nor a shorter word is taken for the keyword.
-/

namespace Lispette

open Lispette.Parser Grammar

/-! ## Layout -/

/-- The input does not begin with layout. -/
def Solid (input : List Char) : Prop :=
  ∀ c ∈ input.head?, Text.isSpace c = false ∧ c ≠ ';'

theorem solid_cons {c : Char} {cs : List Char} (hspace : Text.isSpace c = false) (hc : c ≠ ';') :
    Solid (c :: cs) := by
  rintro d ⟨⟩
  exact ⟨hspace, hc⟩

/-- A newline is white space, so neither of the characters that layout may begin with stands in
front. -/
theorem layoutWidth_of_solid {input : List Char} (h : Solid input) :
    Text.layoutWidth false input = 0 := by
  cases input with
  | nil => rfl
  | cons c cs =>
    obtain ⟨hspace, hc⟩ := h c rfl
    have hnewline : c ≠ '\n' := by
      rintro rfl
      exact absurd hspace (by decide)
    simp [Text.layoutWidth, hspace, hc, hnewline]

theorem reads_layout {rest : List Char} (h : Solid rest) : Reads layout rest () rest := by
  have hwidth : Text.layoutWidth false ([] ++ rest) = ([] : List Char).length :=
    layoutWidth_of_solid h
  exact (Reads.taking hwidth).map _

/-- The single space that spellings put between their parts. -/
theorem reads_layout_space {rest : List Char} (h : Solid rest) :
    Reads layout (' ' :: rest) () rest := by
  have hwidth : Text.layoutWidth false ([' '] ++ rest) = [' '].length := by
    have hspace : Text.isSpace ' ' = true := by decide
    simp [Text.layoutWidth, hspace, layoutWidth_of_solid h]
  exact (Reads.taking hwidth).map _

/-! ## Words -/

/-- The input does not go on with a character of a name. -/
def EndsWord (input : List Char) : Prop := ∀ c ∈ input.head?, Text.isNameChar c = false

/-- A word ends where the characters of names end. -/
theorem takeWhile_word {word rest : List Char} (hword : ∀ c ∈ word, Text.isNameChar c = true)
    (hrest : EndsWord rest) : (word ++ rest).takeWhile Text.isNameChar = word := by
  rw [List.takeWhile_append_of_pos hword, Text.takeWhile_of_head hrest, List.append_nil]

/-- A word is not taken for another one, whether it is shorter, longer or simply different. -/
theorem refuses_keyword {word : String} {text rest : List Char}
    (hword : ∀ c ∈ word.toList, Text.isNameChar c = true)
    (htext : ∀ c ∈ text, Text.isNameChar c = true) (hrest : EndsWord rest)
    (hne : text ≠ word.toList) : Refuses (keyword word) (text ++ rest) := by
  intro s hs
  rw [rejects_keyword]
  by_cases hopens : word.toList <+: s.rest
  · obtain ⟨more, hmore⟩ := hopens
    have hnext : (s.forward word.length).peek? = more.head? := by
      rw [Cursor.peek?, Cursor.rest_forward_length hmore.symm]
    -- If no name character came next, the two words would be one run of the same input.
    have hrun : ¬ EndsWord more := by
      intro hend
      apply hne
      rw [← takeWhile_word htext hrest, ← hs, ← hmore, takeWhile_word hword hend]
    simp only [EndsWord, not_forall, Bool.not_eq_false] at hrun
    obtain ⟨c, hc, hchar⟩ := hrun
    exact .inr (.inr ⟨c, hnext.trans hc, hchar⟩)
  · exact .inr (.inl hopens)

/-- A name, character by character. -/
theorem isName_cases {word : String} (h : isName word = true) :
    ∃ c cs, word.toList = c :: cs ∧ Text.isNameStart c = true ∧
      (∀ d ∈ cs, Text.isNameChar d = true) ∧ isReserved word = false := by
  unfold isName at h
  split at h
  · cases h
  · rename_i c cs hword
    simp only [Bool.and_eq_true, List.all_eq_true, Bool.not_eq_true'] at h
    exact ⟨c, cs, hword, h.1.1, h.1.2, h.2⟩

theorem isNameChar_of_isNameStart {c : Char} (h : Text.isNameStart c = true) :
    Text.isNameChar c = true := by
  simp only [Text.isNameStart, Bool.or_eq_true, decide_eq_true_eq] at h
  rcases h with h | h
  · simp [Text.isNameChar, Char.isAlphanum, h]
  · simp [Text.isNameChar, h]

/-- A range that holds both cases of letters; it suffices to keep letters apart from white space and
digits. -/
theorem toNat_of_isAlpha {c : Char} (h : c.isAlpha = true) : 65 ≤ c.toNat ∧ c.toNat ≤ 122 := by
  have hcase : c.isUpper = true ∨ c.isLower = true := Bool.or_eq_true_iff.1 h
  rcases hcase with hupper | hlower
  · obtain ⟨hlow, hhigh⟩ := of_decide_eq_true hupper
    exact ⟨hlow, Nat.le_trans hhigh (by decide)⟩
  · obtain ⟨hlow, hhigh⟩ := Bool.and_eq_true_iff.1 hlower
    exact ⟨Nat.le_trans (by decide) (of_decide_eq_true hlow), of_decide_eq_true hhigh⟩

theorem toNat_of_isDigit {c : Char} (h : c.isDigit = true) : 48 ≤ c.toNat ∧ c.toNat ≤ 57 := by
  obtain ⟨hlow, hhigh⟩ := Bool.and_eq_true_iff.1 h
  exact ⟨of_decide_eq_true hlow, of_decide_eq_true hhigh⟩

/-- Names and numerals are told apart by their first character. -/
theorem isDigit_of_isNameStart {c : Char} (h : Text.isNameStart c = true) : c.isDigit = false := by
  simp only [Text.isNameStart, Bool.or_eq_true, decide_eq_true_eq] at h
  rcases h with halpha | rfl
  · rw [Bool.eq_false_iff]
    intro hdigit
    have hletter := toNat_of_isAlpha halpha
    have hrange := toNat_of_isDigit hdigit
    omega
  · decide

theorem isNameChar_of_isName {word : String} (h : isName word = true) :
    ∀ c ∈ word.toList, Text.isNameChar c = true := by
  obtain ⟨c, cs, hword, hc, hcs, -⟩ := isName_cases h
  rw [hword]
  exact List.forall_mem_cons.2 ⟨isNameChar_of_isNameStart hc, hcs⟩

theorem isNameChar_keyword (k : Keyword) : ∀ c ∈ k.word.toList, Text.isNameChar c = true := by
  cases k <;> exact List.all_eq_true.1 (by decide)

/-- A name is read as a whole, provided that it ends where it is meant to. -/
theorem reads_name {word : String} {rest : List Char} (h : isName word = true)
    (hrest : EndsWord rest) : Reads name (word.toList ++ rest) word rest := by
  obtain ⟨c, cs, hword, hc, hcs, hreserved⟩ := isName_cases h
  have hwidth : Text.nameWidth (word.toList ++ rest) = word.toList.length := by
    rw [hword]
    exact Text.nameWidth_append hc hcs hrest
  refine (Reads.lexeme (by simp [hword]) hwidth).filterMap ?_
  simp [String.ofList_toList, hreserved]

theorem refuses_name {input : List Char}
    (h : ∀ c ∈ input.head?, Text.isNameStart c = false) : Refuses name input := by
  refine .bind_left (.lexeme ?_)
  cases input with
  | nil => rfl
  | cons c cs => simp [Text.nameWidth, h c rfl]

/-- A reserved word is no name, though it has the shape of one. -/
theorem refuses_name_keyword (k : Keyword) {rest : List Char} (hrest : EndsWord rest) :
    Refuses name (k.word.toList ++ rest) := by
  have hletters : ∃ c cs, k.word.toList = c :: cs ∧ Text.isNameStart c = true := by
    cases k <;> exact ⟨_, _, rfl, by decide⟩
  obtain ⟨c, cs, hword, hc⟩ := hletters
  have hcs : ∀ d ∈ cs, Text.isNameChar d = true := by
    intro d hd
    exact isNameChar_keyword k d (by simp [hword, hd])
  have hreserved : isReserved k.word = true := by cases k <;> decide
  have hwidth : Text.nameWidth (k.word.toList ++ rest) = k.word.toList.length := by
    rw [hword]
    exact Text.nameWidth_append hc hcs hrest
  refine .bind_right (.lexeme (by simp [hword]) hwidth) ?_
  simp only [String.ofList_toList, hreserved, if_true]
  exact fun _ _ ↦ rejects_noMatch

/-! ## Literals -/

theorem reads_identifier (g : Grammar) {word : String} {rest : List Char} (h : isName word = true)
    (hrest : EndsWord rest) :
    Reads g.identifier (word.toList ++ rest) (.identifier word) rest :=
  .rule _ _ ((reads_name h hrest).map _)

/-- A number is read back from its own text, if what follows could not be a further part of it. -/
theorem reads_number (g : Grammar) (code : Fin Binary64.finiteCodes) {rest : List Char}
    (hrest : ∀ c ∈ rest.head?, Text.isNameChar c = false ∧ c ≠ '.') :
    Reads g.number ((Binary64.finite false code).display.toList ++ rest)
      (.number (.finite false code)) rest := by
  have hread := Binary64.ofDecimal_display code
  have htext : (Binary64.finite false code).display.toList =
      (Decimal.shortest .awayFromZero code).positional := by
    rw [Binary64.display, Binary64.signed, String.toList_ofList]
    rfl
  rw [htext] at hread ⊢
  obtain ⟨c, cs, hhead, -⟩ := Decimal.positional_head (Decimal.shortest .awayFromZero code)
  have hne : (Decimal.shortest .awayFromZero code).positional ≠ [] := by simp [hhead]
  refine .rule _ _ ((Reads.lexeme hne (Text.numeralWidth_positional _ hrest)).filterMap ?_)
  simp only [hread, Binary64.isFinite, if_true]

theorem refuses_number (g : Grammar) {input : List Char}
    (h : ∀ c ∈ input.head?, c.isDigit = false) : Refuses g.number input := by
  refine .rule _ _ (.bind_left (.lexeme ?_))
  cases input with
  | nil => rfl
  | cons c cs => simp [Text.numeralWidth, Text.digitsWidth, h c rfl]

/-- A quote inside of the body is escaped, so that the second plain quote ends the literal. -/
theorem reads_string (g : Grammar) {text : String} (h : IsStringBody text.toList)
    (rest : List Char) :
    Reads g.string ('"' :: (text.toList ++ '"' :: rest)) (.string text) rest := by
  have hwidth := Text.stringWidth_append h rest
  have hread : Reads g.string ('"' :: (text.toList ++ '"' :: rest))
      (.string (String.ofList text.toList)) rest :=
    .rule _ _ <| .sequence fun _ ↦ (Reads.char _ _).bind <| (Reads.taking hwidth).bind <|
      (Reads.char _ _).orFail.bind <| .pure _ _
  rwa [String.ofList_toList] at hread

theorem reads_boolean (g : Grammar) (value : Bool) {rest : List Char} (hrest : EndsWord rest) :
    Reads g.boolean ((if value then "true" else "false").toList ++ rest) (.boolean value) rest := by
  cases value with
  | true => exact .rule _ _ (.orElse_left ((Reads.keyword (by decide) hrest).bind (.pure _ _)))
  | false =>
    refine .rule _ _ (.orElse_right (.bind_left ?_)
      ((Reads.keyword (by decide) hrest).bind (.pure _ _)))
    exact refuses_keyword (isNameChar_of_isName (by decide)) (isNameChar_of_isName (by decide))
      hrest (by decide)

theorem refuses_boolean (g : Grammar) {input : List Char} (htrue : Refuses (keyword "true") input)
    (hfalse : Refuses (keyword "false") input) : Refuses g.boolean input :=
  .rule _ _ (.orElse (.bind_left htrue) (.bind_left hfalse))

theorem reads_nil (g : Grammar) {rest : List Char} (hrest : EndsWord rest) :
    Reads g.nil (Keyword.nil.word.toList ++ rest) .nil rest :=
  .rule _ _ ((Reads.keyword (by decide) hrest).bind (.pure _ _))

/-! ## Operators -/

namespace BinaryOperator

/-- All spellings are different, which is checked on the list of operators. -/
theorem symbol_injective {a b : BinaryOperator} (h : a.symbol = b.symbol) : a = b := by
  have hall : ∀ a ∈ all, ∀ b ∈ all, a.symbol = b.symbol → a = b := by decide
  exact hall a a.mem_all b b.mem_all h

theorem symbol_ne_nil (op : BinaryOperator) : op.symbol.toList ≠ [] := by
  cases op <;> decide

theorem isSpace_symbol (op : BinaryOperator) :
    ∀ c ∈ op.symbol.toList, Text.isSpace c = false ∧ c ≠ ';' := by
  cases op <;> exact List.all_iff_forall_prop.1 (by decide)

theorem isNameChar_symbol {op : BinaryOperator} (h : op.isWord = true) :
    ∀ c ∈ op.symbol.toList, Text.isNameChar c = true := by
  apply List.all_eq_true.1
  cases op <;> revert h <;> decide

/-- A spelling that is no word does not begin like one. -/
theorem isNameChar_head_symbol {op : BinaryOperator} (h : op.isWord = false) :
    ∀ c ∈ op.symbol.toList.head?, Text.isNameChar c = false := by
  have hhead : op.symbol.toList.head?.all (fun c ↦ !Text.isNameChar c) = true := by
    cases op <;> revert h <;> decide
  simpa [Option.all_eq_true] using hhead

end BinaryOperator

/-- A symbol has to be followed by white space, one character of which belongs to it. -/
theorem matches_spelling_symbol {op : BinaryOperator} {s t : Cursor} {u : Unit}
    (hop : op.isWord = false) :
    (Grammar.spelling op).Matches s u t ↔
      ∃ c rest, s.rest = op.symbol.toList ++ c :: rest ∧ Text.isSpace c = true ∧
        t = s.forward (op.symbol.length + 1) := by
  unfold Grammar.spelling
  rw [if_neg (by simp [hop])]
  constructor
  · intro h
    obtain ⟨_, v, hsymbol, hspace⟩ := matches_bind.1 h
    obtain ⟨⟨more, hmore⟩, -, rfl⟩ := matches_literal.1 hsymbol
    obtain ⟨c, hc, -⟩ := matches_map.1 hspace
    obtain ⟨hpeek, hok, rfl⟩ := matches_satisfy.1 hc
    rw [Cursor.peek?, Cursor.rest_forward_length hmore.symm] at hpeek
    obtain ⟨rest, rfl⟩ := List.head?_eq_some_iff.1 hpeek
    exact ⟨c, rest, hmore.symm, hok, (Cursor.forward_add _ 1 s).symm⟩
  · rintro ⟨c, rest, hrest, hok, rfl⟩
    have hsymbol : (literal op.symbol).Matches s () (s.forward op.symbol.length) :=
      matches_literal.2 ⟨⟨_, hrest.symm⟩, op.symbol_ne_nil, rfl⟩
    have hpeek : (s.forward op.symbol.length).peek? = some c := by
      rw [Cursor.peek?, Cursor.rest_forward_length hrest, List.head?_cons]
    have hspace := matches_satisfy.2 ⟨hpeek, hok, rfl⟩
    rw [Cursor.forward_add]
    exact matches_bind.2 ⟨(), _, hsymbol, matches_map.2 ⟨c, hspace, rfl⟩⟩

/-- A word has to end where it is meant to; nothing more is passed. -/
theorem matches_spelling_word {op : BinaryOperator} {s t : Cursor} {u : Unit}
    (hop : op.isWord = true) :
    (Grammar.spelling op).Matches s u t ↔
      ∃ rest, s.rest = op.symbol.toList ++ rest ∧ EndsWord rest ∧
        t = s.forward op.symbol.length := by
  unfold Grammar.spelling
  rw [if_pos hop, matches_keyword]
  constructor
  · rintro ⟨⟨rest, hrest⟩, -, rfl, hend⟩
    rw [Cursor.peek?, Cursor.rest_forward_length hrest.symm] at hend
    exact ⟨rest, hrest.symm, hend, rfl⟩
  · rintro ⟨rest, hrest, hend, rfl⟩
    refine ⟨⟨rest, hrest.symm⟩, op.symbol_ne_nil, rfl, ?_⟩
    rw [Cursor.peek?, Cursor.rest_forward_length hrest]
    exact hend

/-- Where a symbol is read, it is all that stands before the next space. -/
theorem takeWhile_of_matches_symbol {op : BinaryOperator} {s t : Cursor} {u : Unit}
    (hop : op.isWord = false) (h : (Grammar.spelling op).Matches s u t) :
    s.rest.takeWhile (fun c ↦ !Text.isSpace c) = op.symbol.toList := by
  obtain ⟨c, rest, hrest, hspace, -⟩ := (matches_spelling_symbol hop).1 h
  have hchars : ∀ c ∈ op.symbol.toList, (!Text.isSpace c) = true := by
    intro c hc
    rw [(op.isSpace_symbol c hc).1, Bool.not_false]
  rw [hrest, List.takeWhile_append_of_pos hchars]
  simp [hspace]

/-- Where a word is read, it is the whole run of name characters. -/
theorem takeWhile_of_matches_word {op : BinaryOperator} {s t : Cursor} {u : Unit}
    (hop : op.isWord = true) (h : (Grammar.spelling op).Matches s u t) :
    s.rest.takeWhile Text.isNameChar = op.symbol.toList := by
  obtain ⟨rest, hrest, hend, -⟩ := (matches_spelling_word hop).1 h
  rw [hrest]
  exact takeWhile_word (BinaryOperator.isNameChar_symbol hop) hend

/-- A symbol never stands where a name might. -/
theorem takeWhile_name_of_matches_symbol {op : BinaryOperator} {s t : Cursor} {u : Unit}
    (hop : op.isWord = false) (h : (Grammar.spelling op).Matches s u t) :
    s.rest.takeWhile Text.isNameChar = [] := by
  have hrun := takeWhile_of_matches_symbol hop h
  have hchars := BinaryOperator.isNameChar_head_symbol hop
  cases hrest : s.rest with
  | nil => rfl
  | cons c cs =>
    rw [hrest, List.takeWhile_cons] at hrun
    split at hrun
    · have hc : Text.isNameChar c = false := hchars c (by rw [← hrun, List.head?_cons]; rfl)
      simp [hc]
    · exact absurd hrun.symm op.symbol_ne_nil

/-- At one place at most one operator is read. -/
theorem spelling_unique {a b : BinaryOperator} {s t u : Cursor} {x y : Unit}
    (ha : (Grammar.spelling a).Matches s x t) (hb : (Grammar.spelling b).Matches s y u) :
    a = b := by
  apply BinaryOperator.symbol_injective
  apply String.toList_inj.1
  cases hopa : a.isWord with
  | false =>
    cases hopb : b.isWord with
    | false =>
      exact (takeWhile_of_matches_symbol hopa ha).symm.trans (takeWhile_of_matches_symbol hopb hb)
    | true =>
      have hword := takeWhile_of_matches_word hopb hb
      rw [takeWhile_name_of_matches_symbol hopa ha] at hword
      exact absurd hword.symm b.symbol_ne_nil
  | true =>
    cases hopb : b.isWord with
    | false =>
      have hword := takeWhile_of_matches_word hopa ha
      rw [takeWhile_name_of_matches_symbol hopb hb] at hword
      exact absurd hword.symm a.symbol_ne_nil
    | true =>
      exact (takeWhile_of_matches_word hopa ha).symm.trans (takeWhile_of_matches_word hopb hb)

theorem not_recovers_spelling {op : BinaryOperator} {s t : Cursor} {e : SyntaxError} :
    ¬ (Grammar.spelling op).Recovers s e t := by
  unfold Grammar.spelling
  split
  · exact not_recovers_keyword
  · intro h
    rcases recovers_bind.1 h with h | ⟨_, _, -, h⟩
    · exact not_recovers_literal h
    · exact not_recovers_satisfy (recovers_map.1 h)

/-- Since spellings exclude each other, the order in which they are tried does not show. -/
theorem matches_binaryOperator {op : BinaryOperator} {s t : Cursor} :
    binaryOperator.Matches s op t ↔ ∃ u, (Grammar.spelling op).Matches s u t := by
  unfold binaryOperator
  rw [matches_choice]
  constructor
  · rintro ⟨before, p, after, hsplit, -, hp⟩
    have hmem : p ∈ BinaryOperator.all.map fun op ↦ (do Grammar.spelling op; return op) := by
      rw [hsplit]
      simp
    obtain ⟨a, -, rfl⟩ := List.mem_map.1 hmem
    obtain ⟨u, v, hspelling, hpure⟩ := matches_bind.1 hp
    obtain ⟨rfl, rfl⟩ := matches_pure.1 hpure
    exact ⟨u, hspelling⟩
  · rintro ⟨u, hspelling⟩
    obtain ⟨before, after, hall, hfirst⟩ := List.eq_append_cons_of_mem op.mem_all
    refine ⟨before.map _, _, after.map _, by rw [hall, List.map_append, List.map_cons], ?_,
      matches_bind.2 ⟨u, t, hspelling, matches_pure.2 ⟨rfl, rfl⟩⟩⟩
    -- An operator that is tried earlier could match only by being the same one.
    intro p hp
    obtain ⟨a, ha, rfl⟩ := List.mem_map.1 hp
    refine rejects_bind.2 (.inl ?_)
    rcases outcome (Grammar.spelling a) s with ⟨x, v, hmatch⟩ | hrejects | ⟨e, v, hrecovers⟩
    · rw [spelling_unique hmatch hspelling] at ha
      exact absurd ha hfirst
    · exact hrejects
    · exact absurd hrecovers not_recovers_spelling

/-- Whether the space behind the operator belongs to it or to the layout, both have been passed in
the end. -/
theorem reads_binaryOperator (op : BinaryOperator) {rest : List Char} (h : Solid rest) :
    ∃ middle, Reads binaryOperator (op.symbol.toList ++ ' ' :: rest) op middle ∧
      Reads layout middle () rest := by
  have hspelling : ∃ middle,
      Reads (Grammar.spelling op) (op.symbol.toList ++ ' ' :: rest) () middle ∧
        Reads layout middle () rest := by
    unfold Grammar.spelling
    cases op.isWord with
    | true =>
      have hword : EndsWord (' ' :: rest) := by
        rintro c ⟨⟩
        decide
      exact ⟨_, .keyword op.symbol_ne_nil hword, reads_layout_space h⟩
    | false =>
      have hspace : Text.isSpace ' ' = true := by decide
      exact ⟨_, (Reads.literal op.symbol_ne_nil).bind ((Reads.satisfy hspace rest).map _),
        reads_layout h⟩
  obtain ⟨middle, hread, hlayout⟩ := hspelling
  refine ⟨middle, fun s hs ↦ ?_, hlayout⟩
  obtain ⟨t, hmatch, ht⟩ := hread s hs
  exact ⟨t, matches_binaryOperator.2 ⟨(), hmatch⟩, ht⟩

theorem rejects_binaryOperator {s : Cursor} :
    binaryOperator.Rejects s ↔ ∀ op, (Grammar.spelling op).Rejects s := by
  refine rejects_choice.trans ?_
  constructor
  · intro h op
    rcases rejects_bind.1 (h _ (List.mem_map_of_mem op.mem_all)) with hspelling | ⟨_, _, -, hpure⟩
    · exact hspelling
    · exact absurd hpure not_rejects_pure
  · intro h p hp
    obtain ⟨op, -, rfl⟩ := List.mem_map.1 hp
    exact rejects_bind.2 (.inl (h op))

theorem refuses_binaryOperator {input : List Char}
    (h : ∀ op, Refuses (Grammar.spelling op) input) : Refuses binaryOperator input :=
  fun s hs ↦ rejects_binaryOperator.2 fun op ↦ h op s hs

/-- A first character of its own is enough to refuse a spelling. -/
theorem refuses_spelling_of_head {op : BinaryOperator} {input : List Char}
    (h : input.head? ≠ op.symbol.toList.head?) : Refuses (Grammar.spelling op) input := by
  unfold Grammar.spelling
  split
  · exact .keyword_of_head h
  · exact .bind_left (.literal h)

theorem reads_unaryOperator (op : UnaryOperator) (rest : List Char) :
    Reads unaryOperator (op.symbol :: rest) op rest := by
  have hread (op : UnaryOperator) :
      Reads (do char op.symbol; return op : Parser UnaryOperator) (op.symbol :: rest) op rest :=
    (Reads.char _ _).bind (.pure _ _)
  have hrefuse {op other : UnaryOperator} (hne : op.symbol ≠ other.symbol) :
      Refuses (do char other.symbol; return other : Parser UnaryOperator) (op.symbol :: rest) :=
    .bind_left (.char (by simpa using hne))
  cases op with
  | not => exact .orElse_left (hread .not)
  | negate => exact .orElse_right (hrefuse (by decide)) (.orElse_left (hread .negate))
  | bitNot =>
    exact .orElse_right (hrefuse (by decide))
      (.orElse_right (hrefuse (by decide)) (.orElse_left (hread .bitNot)))

theorem refuses_unaryOperator {input : List Char}
    (h : ∀ op : UnaryOperator, input.head? ≠ some op.symbol) : Refuses unaryOperator input := by
  refine .choice fun p hp ↦ ?_
  obtain ⟨op, -, rfl⟩ := List.mem_map.1 hp
  exact .bind_left (.char (h op))

end Lispette
