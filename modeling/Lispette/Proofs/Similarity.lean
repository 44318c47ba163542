import Lispette.Proofs.FormReading

/-!
# Similar texts

Two texts are similar if a reader cannot tell them apart from token to token: they agree in
everything but how much layout stands between tokens, and where the first text ends, layout may
still follow in the second. Names, numbers, strings and operators are then the same in both. At the
end of the first text there is a fixed remainder of the second.
-/

namespace Lispette

open Lispette.Parser Grammar

/-! ## What follows layout -/

namespace Text

/-- What is left of a text after the layout in front. -/
def dropLayout (text : List Char) : List Char := text.drop (layoutWidth false text)

/-- A character either belongs to the layout, and then tells whether a comment goes on, or it ends
the layout. -/
theorem layoutWidth_cons (inComment : Bool) (c : Char) :
    (∃ next, ∀ text, layoutWidth inComment (c :: text) = layoutWidth next text + 1) ∨
      isSpace c = false ∧ c ≠ ';' ∧ ∀ text, layoutWidth inComment (c :: text) = 0 := by
  by_cases hnewline : c = '\n'
  · exact .inl ⟨false, fun text ↦ by rw [layoutWidth, if_pos hnewline, Nat.add_comm]⟩
  by_cases hcomment : (inComment || c = ';') = true
  · exact .inl ⟨true, fun text ↦ by
      rw [layoutWidth, if_neg hnewline, if_pos hcomment, Nat.add_comm]⟩
  cases hspace : isSpace c with
  | true =>
    exact .inl ⟨false, fun text ↦ by
      rw [layoutWidth, if_neg hnewline, if_neg hcomment, if_pos hspace, Nat.add_comm]⟩
  | false =>
    refine .inr ⟨rfl, ?_, fun text ↦ ?_⟩
    · rintro rfl
      simp at hcomment
    · rw [layoutWidth, if_neg hnewline, if_neg hcomment, if_neg (by simp [hspace])]

/-- Layout is passed as a whole, from inside of a comment as well. -/
theorem solid_drop_layoutWidth (inComment : Bool) (text : List Char) :
    Solid (text.drop (layoutWidth inComment text)) := by
  induction text generalizing inComment with
  | nil => simp [Solid]
  | cons c cs ih =>
    rcases layoutWidth_cons inComment c with ⟨next, hwidth⟩ | ⟨hspace, hsemicolon, hwidth⟩
    · rw [hwidth, List.drop_succ_cons]
      exact ih next
    · rw [hwidth, List.drop_zero]
      exact solid_cons hspace hsemicolon

theorem solid_dropLayout (text : List Char) : Solid (dropLayout text) :=
  solid_drop_layoutWidth false text

theorem dropLayout_of_solid {text : List Char} (h : Solid text) : dropLayout text = text := by
  rw [dropLayout, layoutWidth_of_solid h, List.drop_zero]

theorem layoutWidth_space {c : Char} (h : isSpace c = true) (text : List Char) :
    layoutWidth false (c :: text) = layoutWidth false text + 1 := by
  have hsemicolon : c ≠ ';' := by
    rintro rfl
    exact absurd h (by decide)
  simp [layoutWidth, h, hsemicolon, Nat.add_comm]

/-- One space more in front makes no difference. -/
theorem dropLayout_space {c : Char} (h : isSpace c = true) (text : List Char) :
    dropLayout (c :: text) = dropLayout text := by
  rw [dropLayout, layoutWidth_space h, List.drop_succ_cons, dropLayout]

/-- Neither layout nor the beginning of a string literal. -/
def isPlain (c : Char) : Bool := !isSpace c && c ≠ ';' && c ≠ '"'

/-- Names are made of plain characters. -/
theorem isPlain_of_isNameChar {c : Char} (h : isNameChar c = true) : isPlain c = true := by
  have hspace := isSpace_of_isNameChar h
  have hsemicolon : c ≠ ';' := by
    rintro rfl
    exact absurd h (by decide)
  have hquote : c ≠ '"' := by
    rintro rfl
    exact absurd h (by decide)
  simp [isPlain, hspace, hsemicolon, hquote]

/-! ## Shapes of one kind of characters -/

/-- The shape consists of characters of one kind, and is not changed by what follows it if that does
not go on with the same kind. -/
structure Spans (kind : Char → Bool) (width : List Char → Nat) : Prop where
  isPlain : ∀ c, kind c = true → isPlain c = true
  append : ∀ run rest, (∀ c ∈ rest.head?, kind c = false) → width (run ++ rest) = width run
  le_length : ∀ run, width run ≤ run.length

/-- A name goes as far as its characters do. -/
theorem spans_nameWidth : Spans isNameChar nameWidth where
  isPlain _ := isPlain_of_isNameChar
  append run rest hrest := by
    cases run with
    | nil =>
      cases rest with
      | nil => rfl
      | cons c cs =>
        have hstart : isNameStart c = false := by
          cases hc : isNameStart c with
          | false => rfl
          | true => rw [← isNameChar_of_isNameStart hc, hrest c rfl]
        simp [nameWidth, hstart]
    | cons c cs =>
      have hrun : (cs ++ rest).takeWhile isNameChar = cs.takeWhile isNameChar := by
        rw [List.takeWhile_append, takeWhile_of_head hrest, List.append_nil]
        split
        · next hall => exact ((List.takeWhile_prefix _).eq_of_length hall).symm
        · rfl
      rw [List.cons_append, nameWidth, nameWidth, hrun]
  le_length run := by
    cases run with
    | nil => exact Nat.le_refl 0
    | cons c cs =>
      have hle := (List.takeWhile_sublist isNameChar (l := cs)).length_le
      rw [nameWidth, List.length_cons]
      split <;> omega

/-- Digits, the underscores between them, and the point. -/
def isNumeralChar (c : Char) : Bool := c.isDigit || c = '_' || c = '.'

theorem isNumeralChar_eq_false {c : Char} :
    isNumeralChar c = false ↔ c.isDigit = false ∧ c ≠ '_' ∧ c ≠ '.' := by
  simp [isNumeralChar, and_assoc]

theorem digitsTailWidth_stop {rest : List Char}
    (hrest : ∀ c ∈ rest.head?, isNumeralChar c = false) : digitsTailWidth rest = 0 := by
  cases rest with
  | nil => rfl
  | cons c cs =>
    obtain ⟨hdigit, hunderscore, -⟩ := isNumeralChar_eq_false.1 (hrest c rfl)
    cases cs <;> simp [digitsTailWidth, hdigit, hunderscore]

/-- By induction along the digits; an underscore at the end of the run has no digit behind it in
either text. -/
theorem digitsTailWidth_append_rest (run : List Char) {rest : List Char}
    (hrest : ∀ c ∈ rest.head?, isNumeralChar c = false) :
    digitsTailWidth (run ++ rest) = digitsTailWidth run := by
  have hstop := digitsTailWidth_stop hrest
  fun_induction digitsTailWidth run with
  | case1 => exact hstop
  | case2 c hc =>
    cases rest with
    | nil => simp [digitsTailWidth, hc]
    | cons d ds => simp [digitsTailWidth, hc, hstop]
  | case3 c hc =>
    cases rest with
    | nil => simp [digitsTailWidth, hc]
    | cons d ds =>
      obtain ⟨hdigit, -, -⟩ := isNumeralChar_eq_false.1 (hrest d rfl)
      simp [digitsTailWidth, hc, hdigit]
  | case4 c d cs hc ih => simp_all [digitsTailWidth]
  | case5 c d cs hc hd ih => simp_all [digitsTailWidth]
  | case6 c d cs hc hd => simp_all [digitsTailWidth]

theorem digitsTailWidth_le (run : List Char) : digitsTailWidth run ≤ run.length := by
  fun_induction digitsTailWidth run <;> simp_all <;> omega

/-- What follows a run of such characters makes no difference to the digits in front of it. -/
theorem digitsWidth_append_rest (run : List Char) {rest : List Char}
    (hrest : ∀ c ∈ rest.head?, isNumeralChar c = false) :
    digitsWidth (run ++ rest) = digitsWidth run := by
  cases run with
  | nil =>
    cases rest with
    | nil => rfl
    | cons c cs => simp [digitsWidth, (isNumeralChar_eq_false.1 (hrest c rfl)).1]
  | cons c cs =>
    rw [List.cons_append, digitsWidth, digitsWidth, digitsTailWidth_append_rest cs hrest]

theorem digitsWidth_le (run : List Char) : digitsWidth run ≤ run.length := by
  cases run with
  | nil => exact Nat.le_refl 0
  | cons c cs =>
    have hle := digitsTailWidth_le cs
    rw [digitsWidth, List.length_cons]
    split <;> omega

/-- Nor does it to a fraction: a point at the end of the run has no digit behind it in either text.
-/
theorem fractionWidth_append_rest (run : List Char) {rest : List Char}
    (hrest : ∀ c ∈ rest.head?, isNumeralChar c = false) :
    fractionWidth (run ++ rest) = fractionWidth run := by
  cases run with
  | nil =>
    cases rest with
    | nil => rfl
    | cons c cs =>
      obtain ⟨-, -, hpoint⟩ := isNumeralChar_eq_false.1 (hrest c rfl)
      simp [fractionWidth, hpoint]
  | cons c cs =>
    by_cases hc : c = '.'
    · subst hc
      rw [List.cons_append, fractionWidth, fractionWidth, digitsWidth_append_rest cs hrest]
    · simp [fractionWidth, hc]

theorem fractionWidth_le (run : List Char) : fractionWidth run ≤ run.length := by
  cases run with
  | nil => exact Nat.le_refl 0
  | cons c cs =>
    by_cases hc : c = '.'
    · subst hc
      have hle := digitsWidth_le cs
      rw [fractionWidth, List.length_cons]
      split <;> omega
    · simp [fractionWidth, hc]

/-- A numeral goes no further than digits, underscores and points do. -/
theorem spans_numeralWidth : Spans isNumeralChar numeralWidth where
  isPlain c hc := by
    simp only [isNumeralChar, Bool.or_eq_true, decide_eq_true_eq, or_assoc] at hc
    rcases hc with hdigit | rfl | rfl
    · exact isPlain_of_isNameChar (by simp [isNameChar, Char.isAlphanum, hdigit])
    · decide
    · decide
  append run rest hrest := by
    rw [numeralWidth, numeralWidth, digitsWidth_append_rest run hrest,
      List.drop_append_of_le_length (digitsWidth_le run), fractionWidth_append_rest _ hrest]
  le_length run := by
    have hwhole := digitsWidth_le run
    have hfraction := fractionWidth_le (run.drop (digitsWidth run))
    rw [List.length_drop] at hfraction
    rw [numeralWidth]
    split <;> omega

end Text

theorem rest_of_matches_layout {s t : Cursor} {u : Unit} (h : layout.Matches s u t) :
    t.rest = Text.dropLayout s.rest := by
  rw [matches_layout.1 h, Cursor.rest_forward, Text.dropLayout]

/-- Layout is read from every text. -/
theorem reads_dropLayout (text : List Char) : Reads layout text () (Text.dropLayout text) := by
  intro s hs
  have hmatch : layout.Matches s () _ := matches_layout.2 rfl
  exact ⟨_, hmatch, by rw [rest_of_matches_layout hmatch, hs]⟩

/-! ## Similarity -/

/-- A relation of texts that goes on from token to token, and the remainder of the second text where
the first has ended. -/
structure Similarity where
  Related : List Char → List Char → Prop
  finish : List Char
  /-- Where the first text ends, the second ends or goes on with layout. -/
  stop : ∀ {text}, Related [] text → ∀ c ∈ text.head?, Text.isSpace c = true ∨ c = ';'
  first : ∀ {c text text'}, Related (c :: text) text' →
    ∃ d more, text' = d :: more ∧ (d = c ∨ Text.isSpace c = true ∧ Text.isSpace d = true)
  after_plain : ∀ {c text text'}, Text.isPlain c = true → Related (c :: text) (c :: text') →
    Related text text'
  after_string : ∀ {body text text'}, IsStringBody body →
    Related ('"' :: (body ++ '"' :: text)) text' →
    ∃ more, text' = '"' :: (body ++ '"' :: more) ∧ Related text more
  after_layout : ∀ {text text'}, Related text text' → Text.dropLayout text ≠ [] →
    Related (Text.dropLayout text) (Text.dropLayout text')
  after_layout_finish : ∀ {text text'}, Related text text' → Text.dropLayout text = [] →
    Text.dropLayout text' = finish
  solid_finish : Solid finish

namespace Similarity

variable (S : Similarity) {text text' : List Char}

theorem not_layout_of_isPlain {c : Char} (h : Text.isPlain c = true) :
    Text.isSpace c = false ∧ c ≠ ';' ∧ c ≠ '"' := by
  simpa [Text.isPlain, and_assoc] using h

/-- Apart from layout, the first characters agree. -/
theorem head?_eq_some_iff (h : S.Related text text') {c : Char} (hspace : Text.isSpace c = false)
    (hc : c ≠ ';') : text.head? = some c ↔ text'.head? = some c := by
  cases text with
  | nil =>
    constructor
    · simp
    · intro hhead
      rcases S.stop h c hhead with hlayout | hlayout
      · rw [hspace] at hlayout
        cases hlayout
      · exact absurd hlayout hc
  | cons d more =>
    obtain ⟨d', more', rfl, rfl | ⟨hd, hd'⟩⟩ := S.first h
    · simp
    · have hne : d ≠ c := by
        rintro rfl
        rw [hspace] at hd
        cases hd
      have hne' : d' ≠ c := by
        rintro rfl
        rw [hspace] at hd'
        cases hd'
      simp [hne, hne']

/-- A plain character of the first text is one of the second, and the texts go on alike. -/
theorem of_cons {c : Char} (hc : Text.isPlain c = true) (h : S.Related (c :: text) text') :
    ∃ more, text' = c :: more ∧ S.Related text more := by
  obtain ⟨hspace, hsemicolon, -⟩ := not_layout_of_isPlain hc
  have hhead := (S.head?_eq_some_iff h hspace hsemicolon).1 rfl
  obtain ⟨more, rfl⟩ := List.head?_eq_some_iff.1 hhead
  exact ⟨more, rfl, S.after_plain hc h⟩

theorem of_cons_right {c : Char} (hc : Text.isPlain c = true) (h : S.Related text (c :: text')) :
    ∃ more, text = c :: more ∧ S.Related more text' := by
  obtain ⟨hspace, hsemicolon, -⟩ := not_layout_of_isPlain hc
  have hhead := (S.head?_eq_some_iff h hspace hsemicolon).2 rfl
  obtain ⟨more, rfl⟩ := List.head?_eq_some_iff.1 hhead
  exact ⟨more, rfl, S.after_plain hc h⟩

/-- A token of plain characters, one after the other. -/
theorem of_append {token : List Char} (htoken : ∀ c ∈ token, Text.isPlain c = true)
    (h : S.Related (token ++ text) text') :
    ∃ more, text' = token ++ more ∧ S.Related text more := by
  induction token generalizing text' with
  | nil => exact ⟨text', rfl, h⟩
  | cons c token ih =>
    obtain ⟨hc, htoken⟩ := List.forall_mem_cons.1 htoken
    obtain ⟨rest, rfl, hrest⟩ := S.of_cons hc h
    obtain ⟨more, rfl, hmore⟩ := ih htoken hrest
    exact ⟨more, rfl, hmore⟩

/-- A token of the second text comes from the first one. -/
theorem of_append_right {token : List Char} (htoken : ∀ c ∈ token, Text.isPlain c = true)
    (h : S.Related text (token ++ text')) :
    ∃ more, text = token ++ more ∧ S.Related more text' := by
  induction token generalizing text with
  | nil => exact ⟨text, rfl, h⟩
  | cons c token ih =>
    obtain ⟨hc, htoken⟩ := List.forall_mem_cons.1 htoken
    obtain ⟨rest, rfl, hrest⟩ := S.of_cons_right hc h
    obtain ⟨more, rfl, hmore⟩ := ih htoken hrest
    exact ⟨more, rfl, hmore⟩

/-- A run of characters of one kind ends at the same place in both texts. -/
theorem head?_of_kind {kind : Char → Bool} (hkind : ∀ c, kind c = true → Text.isPlain c = true)
    (h : S.Related text text') (hend : ∀ c ∈ text.head?, kind c = false) :
    ∀ c ∈ text'.head?, kind c = false := by
  intro c hc
  cases hk : kind c with
  | false => rfl
  | true =>
    obtain ⟨hspace, hsemicolon, -⟩ := not_layout_of_isPlain (hkind c hk)
    rw [← hk]
    exact hend c ((S.head?_eq_some_iff h hspace hsemicolon).2 hc)

/-! ## Parsers that cannot tell similar texts apart -/

/-- On similar texts the two parsers match alike and refuse alike. -/
structure Mirrors {α : Type} (p q : Parser α) : Prop where
  matched : ∀ {s a t text}, p.Matches s a t → S.Related s.rest text →
    ∃ rest, Reads q text a rest ∧ S.Related t.rest rest
  rejected : ∀ {s text}, p.Rejects s → S.Related s.rest text → Refuses q text

namespace Mirrors

variable {S} {α β : Type} {p q p' q' : Parser α}

theorem map (f : α → β) (h : S.Mirrors p q) : S.Mirrors (f <$> p) (f <$> q) where
  matched hmatch hrelated := by
    obtain ⟨a, ha, rfl⟩ := matches_map.1 hmatch
    obtain ⟨rest, hread, hrest⟩ := h.matched ha hrelated
    exact ⟨rest, hread.map f, hrest⟩
  rejected hrejects hrelated := (h.rejected (rejects_map.1 hrejects) hrelated).map f

/-- Both parsers find the same value, so both keep it or neither does. -/
theorem filterMap (f : α → Option β) (h : S.Mirrors p q) :
    S.Mirrors (filterMap f p) (filterMap f q) where
  matched hmatch hrelated := by
    obtain ⟨a, ha, hf⟩ := matches_filterMap.1 hmatch
    obtain ⟨rest, hread, hrest⟩ := h.matched ha hrelated
    exact ⟨rest, hread.filterMap hf, hrest⟩
  rejected hrejects hrelated := by
    intro s hs
    rcases rejects_filterMap.1 hrejects with hp | ⟨a, t, ha, hf⟩
    · exact rejects_filterMap.2 (.inl (h.rejected hp hrelated s hs))
    · obtain ⟨rest, hread, -⟩ := h.matched ha hrelated
      obtain ⟨u, hu, -⟩ := hread s hs
      exact rejects_filterMap.2 (.inr ⟨a, u, hu, hf⟩)

/-- The second step is tried on what the first one left, which is similar again. -/
theorem bind {f f' : α → Parser β} (h : S.Mirrors p q) (hf : ∀ a, S.Mirrors (f a) (f' a)) :
    S.Mirrors (p >>= f) (q >>= f') where
  matched hmatch hrelated := by
    obtain ⟨a, t, ha, hb⟩ := matches_bind.1 hmatch
    obtain ⟨middle, hread, hmiddle⟩ := h.matched ha hrelated
    obtain ⟨rest, hnext, hrest⟩ := (hf a).matched hb hmiddle
    exact ⟨rest, hread.bind hnext, hrest⟩
  rejected hrejects hrelated := by
    rcases rejects_bind.1 hrejects with hp | ⟨a, t, ha, hnext⟩
    · exact .bind_left (h.rejected hp hrelated)
    · obtain ⟨middle, hread, hmiddle⟩ := h.matched ha hrelated
      exact .bind_right hread ((hf a).rejected hnext hmiddle)

theorem rule {g g' : Grammar} (r : Rule) (h : S.Mirrors p q) :
    S.Mirrors (g.rule r p) (g'.rule r q) where
  matched hmatch hrelated := by
    obtain ⟨rest, hread, hrest⟩ := h.matched (matches_rule.1 hmatch) hrelated
    exact ⟨rest, hread.rule g' r, hrest⟩
  rejected hrejects hrelated := (h.rejected (rejects_rule.1 hrejects) hrelated).rule g' r

/-- The second alternative is tried on both texts, or on neither. -/
theorem orElse (hp : S.Mirrors p p') (hq : S.Mirrors q q') :
    S.Mirrors (p <|> q) (p' <|> q') where
  matched hmatch hrelated := by
    rcases matches_orElse.1 hmatch with hp' | ⟨hrejects, hq'⟩
    · obtain ⟨rest, hread, hrest⟩ := hp.matched hp' hrelated
      exact ⟨rest, hread.orElse_left, hrest⟩
    · obtain ⟨rest, hread, hrest⟩ := hq.matched hq' hrelated
      exact ⟨rest, .orElse_right (hp.rejected hrejects hrelated) hread, hrest⟩
  rejected hrejects hrelated := by
    obtain ⟨hp', hq'⟩ := rejects_orElse.1 hrejects
    exact (hp.rejected hp' hrelated).orElse (hq.rejected hq' hrelated)

end Mirrors

/-! ## Fixed texts -/

/-- A literal of plain characters. -/
theorem mirrors_literal {token : String} (hne : token.toList ≠ [])
    (htoken : ∀ c ∈ token.toList, Text.isPlain c = true) :
    S.Mirrors (literal token) (literal token) where
  matched {s _ t _} hmatch hrelated := by
    obtain ⟨⟨more, hmore⟩, -, rfl⟩ := matches_literal.1 hmatch
    rw [← hmore] at hrelated
    obtain ⟨rest, rfl, hrest⟩ := S.of_append htoken hrelated
    refine ⟨rest, .literal hne, ?_⟩
    rwa [Cursor.rest_forward_length hmore.symm]
  rejected {s _} hrejects hrelated := by
    intro s' hs'
    refine rejects_literal.2 (.inr ?_)
    rintro ⟨more, hmore⟩
    rw [← hs', ← hmore] at hrelated
    obtain ⟨rest, hrest, -⟩ := S.of_append_right htoken hrelated
    rcases rejects_literal.1 hrejects with hnil | hopens
    · exact hne hnil
    · exact hopens ⟨rest, hrest.symm⟩

theorem mirrors_arrow : S.Mirrors (literal "~>") (literal "~>") :=
  S.mirrors_literal (by decide) (List.all_eq_true.1 (by decide))

/-- Whether a word goes on is the same in both texts. -/
theorem mirrors_endOfWord :
    S.Mirrors (notFollowedBy (satisfy Text.isNameChar)) (notFollowedBy (satisfy Text.isNameChar))
    where
  matched {s _ t text} hmatch hrelated := by
    obtain ⟨hrejects, rfl⟩ := matches_notFollowedBy.1 hmatch
    have hend := S.head?_of_kind (fun _ ↦ Text.isPlain_of_isNameChar) hrelated
      (rejects_satisfy.1 hrejects)
    refine ⟨text, fun s' hs' ↦ ⟨s', matches_notFollowedBy.2 ⟨?_, rfl⟩, hs'⟩, hrelated⟩
    exact Refuses.satisfy hend s' hs'
  rejected {s text} hrejects hrelated := by
    intro s' hs'
    refine rejects_notFollowedBy.2 fun hend ↦ rejects_notFollowedBy.1 hrejects ?_
    refine rejects_satisfy.2 fun c hc ↦ ?_
    cases hname : Text.isNameChar c with
    | false => rfl
    | true =>
      obtain ⟨hspace, hsemicolon, -⟩ := not_layout_of_isPlain (Text.isPlain_of_isNameChar hname)
      have hhead := (S.head?_eq_some_iff hrelated hspace hsemicolon).1 hc
      rw [← hname]
      exact rejects_satisfy.1 hend c (by rw [Cursor.peek?, hs', hhead])

/-- A keyword is a literal behind which no name goes on. -/
theorem mirrors_keyword {word : String} (hne : word.toList ≠ [])
    (hword : ∀ c ∈ word.toList, Text.isNameChar c = true) :
    S.Mirrors (keyword word) (keyword word) :=
  (S.mirrors_literal hne fun c hc ↦ Text.isPlain_of_isNameChar (hword c hc)).bind fun _ ↦
    S.mirrors_endOfWord

/-! ## Lexemes -/

section

variable {kind : Char → Bool} {width : List Char → Nat} (hspans : Text.Spans kind width)

include hspans

/-- Both texts begin with the same lexeme, if with any. -/
theorem lexeme_of_related (h : S.Related text text') :
    ∃ more, text' = text.take (width text) ++ more ∧ S.Related (text.drop (width text)) more ∧
      width text' = width text ∧ (text.take (width text)).length = width text := by
  obtain ⟨run, rest, rfl, hrun, hrest⟩ : ∃ run rest, text = run ++ rest ∧
      (∀ c ∈ run, kind c = true) ∧ ∀ c ∈ rest.head?, kind c = false := by
    exact ⟨text.takeWhile kind, text.dropWhile kind, List.takeWhile_append_dropWhile.symm,
      fun c hc ↦ List.mem_takeWhile_imp hc, Text.head_dropWhile kind text⟩
  obtain ⟨rest', rfl, hrelated⟩ := S.of_append (fun c hc ↦ hspans.isPlain c (hrun c hc)) h
  have hrest' := S.head?_of_kind hspans.isPlain hrelated hrest
  have hle := hspans.le_length run
  rw [hspans.append run rest hrest, hspans.append run rest' hrest',
    List.take_append_of_le_length hle]
  have hplain : ∀ c ∈ run.take (width run), Text.isPlain c = true :=
    fun c hc ↦ hspans.isPlain c (hrun c (List.mem_of_mem_take hc))
  rw [← List.take_append_drop (width run) (run ++ rest), List.take_append_of_le_length hle] at h
  obtain ⟨more, hmore, hnext⟩ := S.of_append hplain h
  exact ⟨more, hmore, hnext, rfl, List.length_take_of_le hle⟩

/-- A lexeme of one kind of characters. -/
theorem mirrors_lexeme : S.Mirrors (lexeme width) (lexeme width) where
  matched {s a t text} hmatch hrelated := by
    obtain ⟨rfl, hne, rfl⟩ := matches_lexeme.1 hmatch
    obtain ⟨more, rfl, hnext, hwidth, hlength⟩ := S.lexeme_of_related hspans hrelated
    exact ⟨more, .lexeme hne (hwidth.trans hlength.symm), by rwa [Cursor.rest_forward]⟩
  rejected {s text} hrejects hrelated := by
    obtain ⟨more, -, -, hwidth, hlength⟩ := S.lexeme_of_related hspans hrelated
    rw [rejects_lexeme.1 hrejects, List.length_nil] at hlength
    exact .lexeme (hwidth.trans hlength.symm)

end

theorem mirrors_name : S.Mirrors name name := (S.mirrors_lexeme Text.spans_nameWidth).filterMap _

variable {g g' : Grammar}

theorem mirrors_number : S.Mirrors g.number g'.number :=
  ((S.mirrors_lexeme Text.spans_numeralWidth).filterMap _).rule _

theorem mirrors_identifier : S.Mirrors g.identifier g'.identifier := (S.mirrors_name.map _).rule _

theorem mirrors_boolean : S.Mirrors g.boolean g'.boolean := by
  have hword (word : String) (value : Bool) (hname : isName word = true) (hne : word.toList ≠ []) :
      S.Mirrors (do keyword word; return Expr.boolean value : Parser Expr)
        (do keyword word; return Expr.boolean value) :=
    (S.mirrors_keyword hne (isNameChar_of_isName hname)).map fun _ ↦ Expr.boolean value
  exact ((hword "true" true (by decide) (by decide)).orElse
    (hword "false" false (by decide) (by decide))).rule _

theorem mirrors_word (k : Keyword) : S.Mirrors (keyword k.word) (keyword k.word) :=
  S.mirrors_keyword (by cases k <;> decide) (isNameChar_keyword k)

theorem mirrors_nil : S.Mirrors g.nil g'.nil :=
  ((S.mirrors_word .nil).map fun _ ↦ Expr.nil).rule _

/-! ## Strings -/

/-- What a string literal looks like, and its value. -/
theorem matches_string {s t : Cursor} {e : Expr} (h : g.string.Matches s e t) :
    ∃ body, s.rest = '"' :: (body ++ '"' :: t.rest) ∧ IsStringBody body ∧
      e = .string (String.ofList body) := by
  obtain ⟨_, u, hopen, htext⟩ := matches_bind.1 (matches_sequence.1 (matches_rule.1 h))
  obtain ⟨body, v, htaken, hend⟩ := matches_bind.1 htext
  obtain ⟨hbody, rfl⟩ := matches_taking.1 htaken
  obtain ⟨_, w, hclose, hvalue⟩ := matches_bind.1 hend
  obtain ⟨rfl, rfl⟩ := matches_pure.1 hvalue
  have hrest := rest_of_matches_char (matches_orFail.1 hclose)
  rw [Cursor.rest_forward] at hrest
  refine ⟨body, ?_, hbody ▸ Text.isStringBody_take_stringWidth u.rest, rfl⟩
  rw [rest_of_matches_char hopen, hbody, ← hrest, List.take_append_drop]

/-- A string is taken over with all that stands in it, layout included. -/
theorem string_matched {s t : Cursor} {e : Expr} (h : g.string.Matches s e t)
    (hrelated : S.Related s.rest text) :
    ∃ rest, Reads g'.string text e rest ∧ S.Related t.rest rest := by
  obtain ⟨body, hs, hbody, rfl⟩ := matches_string h
  rw [hs] at hrelated
  obtain ⟨rest, rfl, hrest⟩ := S.after_string hbody hrelated
  have hbody' : IsStringBody (String.ofList body).toList := by rwa [String.toList_ofList]
  have hread := reads_string g' hbody' rest
  rw [String.toList_ofList] at hread
  exact ⟨rest, hread, hrest⟩

/-! ## Operators -/

theorem mirrors_symbol (op : BinaryOperator) :
    S.Mirrors (literal op.symbol) (literal op.symbol) := by
  have hplain : ∀ c ∈ op.symbol.toList, Text.isPlain c = true := by
    apply List.all_eq_true.1
    cases op <;> decide
  exact S.mirrors_literal op.symbol_ne_nil hplain

/-- An operator that is a word is read as keywords are. -/
theorem mirrors_wordOperator {op : BinaryOperator} (hop : op.isWord = true) :
    S.Mirrors (keyword op.symbol) (keyword op.symbol) :=
  S.mirrors_keyword op.symbol_ne_nil (BinaryOperator.isNameChar_symbol hop)

/-- Whether a space comes next is the same in both texts, unless the first has ended. -/
theorem isSpace_head {c : Char} (h : S.Related (c :: text) text') :
    ∃ d more, text' = d :: more ∧ Text.isSpace d = Text.isSpace c := by
  obtain ⟨d, more, rfl, rfl | ⟨hc, hd⟩⟩ := S.first h
  · exact ⟨d, more, rfl, rfl⟩
  · exact ⟨d, more, rfl, hd.trans hc.symm⟩

/-- Of the space after a symbol, one character is taken. What follows the layout is the same as if
none were taken. -/
theorem spelling_matched {s t : Cursor} {op : BinaryOperator} {u : Unit}
    (h : (Grammar.spelling op).Matches s u t) (hrelated : S.Related s.rest text) :
    ∃ before before' rest, Reads (Grammar.spelling op) text () rest ∧ S.Related before before' ∧
      Text.dropLayout t.rest = Text.dropLayout before ∧
      Text.dropLayout rest = Text.dropLayout before' := by
  unfold Grammar.spelling at h ⊢
  cases hop : op.isWord with
  | true =>
    rw [if_pos hop] at h
    obtain ⟨rest, hread, hrest⟩ := (S.mirrors_wordOperator hop).matched h hrelated
    exact ⟨_, _, rest, hread, hrest, rfl, rfl⟩
  | false =>
    rw [if_neg (by simp [hop])] at h
    obtain ⟨_, v, hsymbol, hspace⟩ := matches_bind.1 h
    obtain ⟨middle, hread, hmiddle⟩ := (S.mirrors_symbol op).matched hsymbol hrelated
    obtain ⟨c, htaken, -⟩ := matches_map.1 hspace
    obtain ⟨hpeek, hc, rfl⟩ := matches_satisfy.1 htaken
    obtain ⟨more, hv⟩ := List.head?_eq_some_iff.1 hpeek
    rw [hv] at hmiddle
    obtain ⟨d, rest, rfl, hd⟩ := S.isSpace_head hmiddle
    refine ⟨_, _, rest, hread.bind ((Reads.satisfy (hd.trans hc) rest).map _), hmiddle, ?_, ?_⟩
    · rw [Cursor.rest_advance, hv, List.tail_cons, Text.dropLayout_space hc]
    · rw [Text.dropLayout_space (hd.trans hc)]

/-- The same operator, since it is spelled the same. -/
theorem binaryOperator_matched {s t : Cursor} {op : BinaryOperator}
    (h : binaryOperator.Matches s op t) (hrelated : S.Related s.rest text) :
    ∃ before before' rest, Reads binaryOperator text op rest ∧ S.Related before before' ∧
      Text.dropLayout t.rest = Text.dropLayout before ∧
      Text.dropLayout rest = Text.dropLayout before' := by
  obtain ⟨_, hspelling⟩ := matches_binaryOperator.1 h
  obtain ⟨before, before', rest, hread, hbefore⟩ := S.spelling_matched hspelling hrelated
  refine ⟨before, before', rest, fun s' hs' ↦ ?_, hbefore⟩
  obtain ⟨t', hmatch, ht'⟩ := hread s' hs'
  exact ⟨t', matches_binaryOperator.2 ⟨(), hmatch⟩, ht'⟩

/-- Where no operator is read and a closing parenthesis is still to come, no operator is read in the
other text either. -/
theorem binaryOperator_rejected {s : Cursor} (h : binaryOperator.Rejects s)
    (hclosing : ')' ∈ s.rest) (hrelated : S.Related s.rest text) : Refuses binaryOperator text := by
  refine refuses_binaryOperator fun op ↦ ?_
  have hrejects : (Grammar.spelling op).Rejects s := rejects_binaryOperator.1 h op
  unfold Grammar.spelling at hrejects ⊢
  cases hop : op.isWord with
  | true =>
    rw [if_pos hop] at hrejects
    exact (S.mirrors_wordOperator hop).rejected hrejects hrelated
  | false =>
    rw [if_neg (by simp [hop])] at hrejects
    rcases rejects_bind.1 hrejects with hsymbol | ⟨_, v, hsymbol, hspace⟩
    · exact .bind_left ((S.mirrors_symbol op).rejected hsymbol hrelated)
    · obtain ⟨middle, hread, hmiddle⟩ := (S.mirrors_symbol op).matched hsymbol hrelated
      refine .bind_right hread (Refuses.map _ (.satisfy fun d hd ↦ ?_))
      cases hv : v.rest with
      | nil =>
        -- The symbol would be all that is left, and no symbol holds a parenthesis.
        have hrest : s.rest = op.symbol.toList := by
          obtain ⟨⟨more, hmore⟩, -, rfl⟩ := matches_literal.1 hsymbol
          rw [Cursor.rest_forward_length hmore.symm] at hv
          rw [← hmore, hv, List.append_nil]
        rw [hrest] at hclosing
        exact absurd hclosing (by cases op <;> decide)
      | cons c more =>
        rw [hv] at hmiddle
        obtain ⟨d', rest, rfl, hspaces⟩ := S.isSpace_head hmiddle
        obtain rfl : d' = d := Option.some.inj hd
        rw [hspaces]
        exact rejects_satisfy.1 (rejects_map.1 hspace) c (by rw [Cursor.peek?, hv, List.head?_cons])

end Similarity

end Lispette
