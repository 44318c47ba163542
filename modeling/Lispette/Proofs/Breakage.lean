import Lispette.Proofs.NestingScan
import Lispette.Proofs.Similarity
import Lispette.Proofs.TopLevel

/-!
# Where forms break

A form is read piece by piece: words and signs, strings, and layout between them. Each piece ends
outside of string literals, so that is where a form breaks. The one other case is a string without
its closing quote, and there the line ends. Moreover a form commits itself only once it has passed
something, so that its error is never empty.

Both facts are carried through the parsers by one property, which also keeps account of how far the
sequence around a parser has come.
-/

namespace Lispette

open Lispette.Parser Grammar

/-! ## Pieces that end outside of strings -/

namespace Cursor

variable {s t u d : Cursor}

theorem passed_eq_of_rest {text : List Char} (h : s.rest = text ++ t.rest) : passed s t = text := by
  rw [passed, h, List.length_append, Nat.add_sub_cancel_right, List.take_left]

/-- What lies between the two ends outside of strings, or else the source ends with it. -/
def RestsAt (s t : Cursor) : Prop :=
  s.Reaches t ∧ (t.atEnd = true ∨ Nesting.Settles (passed s t))

theorem restsAt_of_no_quote (h : s.Reaches t) (hquote : '"' ∉ passed s t) : s.RestsAt t :=
  ⟨h, .inr (Nesting.settles_of_no_quote hquote)⟩

theorem RestsAt.refl (s : Cursor) : s.RestsAt s :=
  restsAt_of_no_quote (.refl s) (by simp [passed])

/-- Pieces that end outside of strings may be put together. Once the source has ended, nothing more
is passed. -/
theorem RestsAt.trans (hst : s.RestsAt t) (htu : t.RestsAt u) : s.RestsAt u := by
  refine ⟨hst.1.trans htu.1, ?_⟩
  rcases hst.2 with hend | hpassed
  · exact .inl (htu.1.atEnd hend)
  · rw [hst.1.passed_append htu.1]
    exact htu.2.imp_right hpassed.append

theorem endsLine_of_atEnd (h : s.atEnd = true) : Text.EndsLine s.rest := by
  rw [List.isEmpty_iff.1 h]
  exact .atEnd

/-- Where a piece ends, a form may break. -/
theorem RestsAt.breaks (h : s.RestsAt t) : s.Breaks t :=
  ⟨h.1, h.2.symm.imp_right endsLine_of_atEnd⟩

/-- What breaks behind such a piece breaks in the same way when seen from its beginning. -/
theorem RestsAt.trans_breaks (hst : s.RestsAt t) (htd : t.Breaks d) : s.Breaks d := by
  refine ⟨hst.1.trans htd.1, ?_⟩
  rcases hst.2 with hend | hpassed
  · exact .inr (endsLine_of_atEnd (htd.1.atEnd hend))
  · rw [hst.1.passed_append htd.1]
    exact htd.2.imp_left hpassed.append

end Cursor

/-! ## Orderly parsers -/

namespace Parser

/-- How far the sequence has come of which a parser is a step: there is none, it has begun, or it
has also passed something. -/
inductive Stage where
  | outside
  | begun (start : Cursor)
  | committed (start : Cursor)

def Stage.Admits : Stage → Cursor → Prop
  | outside, _ => True
  | begun start, s => start.offset ≤ s.offset
  | committed start, s => start.offset < s.offset

/-- Going on keeps what has been passed. -/
theorem Stage.Admits.mono {stage : Stage} {s t : Cursor} (h : stage.Admits s) (hst : s.Reaches t) :
    stage.Admits t := by
  have hle := hst.offset_le
  cases stage with
  | outside => trivial
  | begun start => exact Nat.le_trans h hle
  | committed start => exact Nat.lt_of_lt_of_le h hle

/-- An error that is not empty was recorded where reading broke. -/
def BreaksWith (s : Cursor) (e : SyntaxError) (t : Cursor) : Prop :=
  e.start < e.stop ∧ ∃ d, s.Breaks d ∧ e.stop = d.offset ∧ t = d.synchronize.withError e

theorem BreaksWith.after {s t u : Cursor} {e : SyntaxError} (h : BreaksWith t e u)
    (hst : s.RestsAt t) : BreaksWith s e u := by
  obtain ⟨hspan, d, hbreaks, hstop, hu⟩ := h
  exact ⟨hspan, d, hst.trans_breaks hbreaks, hstop, hu⟩

/-- What the parser matches ends outside of strings, and where it breaks it does so with an error
that is not empty. -/
structure Orderly {α : Type} (stage : Stage) (p : Parser α) : Prop where
  matched : ∀ {s t : Cursor} {a : α}, p.Matches s a t → s.RestsAt t
  recovered : ∀ {s t : Cursor} {e : SyntaxError}, stage.Admits s → p.Recovers s e t →
    BreaksWith s e t

section

variable {α β : Type} {stage : Stage} {p q : Parser α}

theorem Chain.restsAt {s t : Cursor} {items : List α} (h : Chain p s items t)
    (hp : ∀ {s t : Cursor} {a : α}, p.Matches s a t → s.RestsAt t) : s.RestsAt t := by
  induction h with
  | nil => exact .refl _
  | cons _ hmatch _ ih => exact (hp hmatch).trans ih

namespace Orderly

/-- A parser that needs no sequence around it may be a step of any. -/
theorem inside (hp : Orderly .outside p) : Orderly stage p where
  matched := hp.matched
  recovered _ := hp.recovered trivial

theorem pure (a : α) : Orderly stage (Pure.pure a : Parser α) where
  matched h := by
    obtain ⟨-, rfl⟩ := matches_pure.1 h
    exact .refl _
  recovered _ h := absurd h not_recovers_pure

theorem noMatch : Orderly stage (noMatch : Parser α) where
  matched h := absurd h not_matches_noMatch
  recovered _ h := absurd h not_recovers_noMatch

/-- The second step begins further on, so whatever the stage asked of the first holds for it too. -/
theorem bind {f : α → Parser β} (hp : Orderly stage p) (hf : ∀ a, Orderly stage (f a)) :
    Orderly stage (p >>= f) where
  matched h := by
    obtain ⟨a, t, hmatch, hnext⟩ := matches_bind.1 h
    exact (hp.matched hmatch).trans ((hf a).matched hnext)
  recovered hs h := by
    rcases recovers_bind.1 h with hbroken | ⟨a, t, hmatch, hbroken⟩
    · exact hp.recovered hs hbroken
    · have hst := hp.matched hmatch
      exact ((hf a).recovered (hs.mono hst.1) hbroken).after hst

/-- Once something is passed, the sequence is committed. -/
theorem commit {start : Cursor} {f : α → Parser β} (hconsumes : Consumes p)
    (hp : Orderly (.begun start) p) (hf : ∀ a, Orderly (.committed start) (f a)) :
    Orderly (.begun start) (p >>= f) where
  matched h := by
    obtain ⟨a, t, hmatch, hnext⟩ := matches_bind.1 h
    exact (hp.matched hmatch).trans ((hf a).matched hnext)
  recovered hs h := by
    rcases recovers_bind.1 h with hbroken | ⟨a, t, hmatch, hbroken⟩
    · exact hp.recovered hs hbroken
    · have hst := hp.matched hmatch
      have hlt := hst.1.remaining_lt_iff.1 (hconsumes _ a t hmatch)
      exact ((hf a).recovered (Nat.lt_of_le_of_lt hs hlt) hbroken).after hst

/-- A sequence begins where it stands, and has passed nothing yet. -/
theorem sequence {steps : Cursor → Parser α} (h : ∀ c, Orderly (.begun c) (steps c)) :
    Orderly stage (here >>= steps) where
  matched hmatch := (h _).matched (matches_sequence.1 hmatch)
  recovered _ hbroken := (h _).recovered (Nat.le_refl _) (recovers_sequence.1 hbroken)

/-- The commitment must come behind something that was passed: otherwise its error would be empty.
-/
theorem orFail {start : Cursor} {message : String} (hp : Orderly (.committed start) p) :
    Orderly (.committed start) (p.orFail start message) where
  matched h := hp.matched (matches_orFail.1 h)
  recovered {s t e} hs h := by
    rcases recovers_orFail h with hbroken | ⟨rfl, ht⟩
    · exact hp.recovered hs hbroken
    · rw [Cursor.synchronize_withError] at ht
      exact ⟨hs, s, (Cursor.RestsAt.refl s).breaks, rfl, ht⟩

theorem expect {start : Cursor} (missing : Fault) (hp : Orderly (.committed start) p) :
    Orderly (.committed start) (expect start missing p) := hp.orFail

theorem map (f : α → β) (hp : Orderly stage p) : Orderly stage (f <$> p) :=
  hp.bind fun a ↦ .pure (f a)

theorem filterMap (f : α → Option β) (hp : Orderly stage p) : Orderly stage (filterMap f p) := by
  refine hp.bind fun a ↦ ?_
  cases f a with
  | none => exact .noMatch
  | some b => exact .pure b

/-- The alternative is tried at the same place and the same stage. -/
theorem orElse (hp : Orderly stage p) (hq : Orderly stage q) : Orderly stage (p <|> q) where
  matched h := by
    rcases matches_orElse.1 h with h | ⟨-, h⟩
    · exact hp.matched h
    · exact hq.matched h
  recovered hs h := by
    rcases recovers_orElse.1 h with h | ⟨-, h⟩
    · exact hp.recovered hs h
    · exact hq.recovered hs h

theorem optional (hp : Orderly stage p) : Orderly stage (optional p) :=
  (hp.map some).orElse (.pure none)

theorem choice {ps : List (Parser α)} (h : ∀ p ∈ ps, Orderly stage p) :
    Orderly stage (choice ps) := by
  induction ps with
  | nil => exact .noMatch
  | cons p ps ih =>
    obtain ⟨hp, hps⟩ := List.forall_mem_cons.1 h
    exact hp.orElse (ih hps)

/-- The pieces of a repetition add up, and an item that breaks does so behind them. -/
theorem many (hp : Orderly stage p) : Orderly stage (many p) where
  matched h := (chain_of_matches_many h).restsAt hp.matched
  recovered hs h := by
    obtain ⟨items, t, hchain, hbroken⟩ := recovers_many h
    have hst := hchain.restsAt hp.matched
    exact (hp.recovered (hs.mono hst.1) hbroken).after hst

theorem oneOrMore (hp : Orderly stage p) : Orderly stage (oneOrMore p) := hp.many.filterMap _

theorem notFollowedBy : Orderly stage (notFollowedBy p) where
  matched h := by
    obtain ⟨-, rfl⟩ := matches_notFollowedBy.1 h
    exact .refl _
  recovered _ h := absurd h not_recovers_notFollowedBy

theorem rule (g : Grammar) (r : Rule) (hp : Orderly stage p) : Orderly stage (g.rule r p) where
  matched h := hp.matched (matches_rule.1 h)
  recovered hs h := hp.recovered hs (recovers_rule.1 h)

/-! ## Words and signs -/

/-- A character other than a quote does not lead into a string. -/
theorem satisfy {ok : Char → Bool} (hok : ok '"' = false) : Orderly stage (satisfy ok) where
  matched {s t c} h := by
    obtain ⟨hpeek, hc, rfl⟩ := matches_satisfy.1 h
    obtain ⟨cs, hrest⟩ := List.head?_eq_some_iff.1 hpeek
    have hpassed : Cursor.passed s s.advance = [c] :=
      Cursor.passed_eq_of_rest (by rw [Cursor.rest_advance, hrest]; rfl)
    refine Cursor.restsAt_of_no_quote s.reaches_advance ?_
    rw [hpassed, List.mem_singleton]
    rintro rfl
    rw [hok] at hc
    cases hc
  recovered _ h := absurd h not_recovers_satisfy

theorem char {c : Char} (hc : c ≠ '"') : Orderly stage (char c) :=
  (satisfy (by simpa using hc.symm)).map _

/-- Likewise for a lexeme, if none of the texts that it may take holds a quote. -/
theorem lexeme {width : List Char → Nat} (h : ∀ rest : List Char, '"' ∉ rest.take (width rest)) :
    Orderly stage (lexeme width) where
  matched {s t text} hmatch := by
    obtain ⟨rfl, -, rfl⟩ := matches_lexeme.1 hmatch
    exact Cursor.restsAt_of_no_quote (s.reaches_forward _) (by simpa using h s.rest)
  recovered _ hbroken := absurd hbroken not_recovers_lexeme

theorem literal {text : String} (h : '"' ∉ text.toList) : Orderly stage (literal text) := by
  refine (lexeme fun rest ↦ ?_).map _
  rw [take_literalWidth]
  split
  · exact h
  · exact List.not_mem_nil

theorem keyword {word : String} (h : '"' ∉ word.toList) : Orderly stage (keyword word) :=
  (literal h).bind fun _ ↦ .notFollowedBy

/-- Comments may hold quotes. They do not count, as the string that a quote would open ends with the
line, and the comment ends there too. -/
theorem layout : Orderly stage layout where
  matched {s t u} h := by
    obtain rfl := matches_layout.1 h
    refine ⟨s.reaches_forward _, ?_⟩
    rw [Cursor.passed_forward]
    refine (Nesting.settles_layout false s.rest).imp (fun hend ↦ ?_) fun hsettles n hn ↦ ?_
    · rw [Cursor.atEnd, Cursor.rest_forward, hend]
      rfl
    · exact hsettles n fun _ ↦ hn
  recovered _ h := absurd h not_recovers_layout

end Orderly

end

end Parser

/-! ## Atoms -/

/-- A shape of one kind of characters takes no others. -/
theorem Text.Spans.kind_of_mem {kind : Char → Bool} {width : List Char → Nat}
    (h : Text.Spans kind width) (rest : List Char) :
    ∀ c ∈ rest.take (width rest), kind c = true := by
  have hwidth := h.append (rest.takeWhile kind) (rest.dropWhile kind)
    (Text.head_dropWhile kind rest)
  rw [List.takeWhile_append_dropWhile] at hwidth
  have htaken : rest.take (width rest) <+: rest.takeWhile kind := by
    rw [hwidth]
    refine List.prefix_of_prefix_length_le (List.take_prefix _ _) (List.takeWhile_prefix _) ?_
    exact Nat.le_trans (List.length_take_le _ _) (h.le_length _)
  exact fun c hc ↦ List.mem_takeWhile_imp (htaken.subset hc)

/-- Names and numerals are made of plain characters, and a quote is none. -/
theorem Text.Spans.no_quote {kind : Char → Bool} {width : List Char → Nat}
    (h : Text.Spans kind width) (rest : List Char) : '"' ∉ rest.take (width rest) := by
  intro hquote
  have hplain := h.isPlain _ (h.kind_of_mem rest _ hquote)
  exact absurd hplain (by decide)

section

variable {stage : Stage}

theorem orderly_name : Orderly stage Grammar.name :=
  (Orderly.lexeme Text.spans_nameWidth.no_quote).filterMap _

theorem orderly_identifier (g : Grammar) : Orderly stage g.identifier :=
  (orderly_name.map _).rule _ _

theorem orderly_number (g : Grammar) : Orderly stage g.number :=
  ((Orderly.lexeme Text.spans_numeralWidth.no_quote).filterMap _).rule _ _

theorem orderly_word (k : Keyword) : Orderly stage (keyword k.word) :=
  .keyword (by cases k <;> decide)

theorem orderly_boolean (g : Grammar) : Orderly stage g.boolean := by
  have htrue : Orderly stage (keyword "true") := .keyword (by decide)
  have hfalse : Orderly stage (keyword "false") := .keyword (by decide)
  exact ((htrue.bind fun _ ↦ .pure _).orElse (hfalse.bind fun _ ↦ .pure _)).rule _ _

theorem orderly_nil (g : Grammar) : Orderly stage g.nil :=
  ((orderly_word .nil).bind fun _ ↦ .pure _).rule _ _

theorem orderly_binaryOperator : Orderly stage binaryOperator := by
  refine .choice fun p hp ↦ ?_
  obtain ⟨op, -, rfl⟩ := List.mem_map.1 hp
  have hsymbol : '"' ∉ op.symbol.toList := by cases op <;> decide
  have hspelling : Orderly stage (spelling op) := by
    unfold spelling
    split
    · exact .keyword hsymbol
    · exact (Orderly.literal hsymbol).bind fun _ ↦ (Orderly.satisfy (by decide)).map _
  exact hspelling.bind fun _ ↦ .pure op

theorem orderly_unaryOperator : Orderly stage unaryOperator := by
  refine .choice fun p hp ↦ ?_
  obtain ⟨op, -, rfl⟩ := List.mem_map.1 hp
  have hsymbol : Orderly stage (char op.symbol) := .char (by cases op <;> decide)
  exact hsymbol.bind fun _ ↦ .pure op

theorem not_recovers_char {c : Char} {s t : Cursor} {e : SyntaxError} :
    ¬ (char c).Recovers s e t :=
  fun h ↦ not_recovers_satisfy (recovers_map.1 h)

/-- Where a sign is missing, the error is the one of the sequence around it. -/
theorem recovers_expect_char {c : Char} {missing : Fault} {start s t : Cursor} {e : SyntaxError}
    (h : (expect start missing (char c)).Recovers s e t) :
    s.peek? ≠ some c ∧ e = ⟨missing.message, start.line, start.offset, s.offset⟩ ∧
      t = s.synchronize.withError e := by
  have hrejects : (char c).Rejects s := by
    rcases outcome (char c) s with ⟨u, v, hmatch⟩ | hrejects | ⟨d, v, hbroken⟩
    · exact absurd h (matches_orFail.2 hmatch).not_recovers
    · exact hrejects
    · exact absurd hbroken not_recovers_char
  rcases recovers_orFail h with hbroken | ⟨he, ht⟩
  · exact absurd hbroken not_recovers_char
  · exact ⟨rejects_char.1 hrejects, he, ht.trans (Cursor.synchronize_withError e s)⟩

/-- A string without its closing quote breaks where its line ends. -/
theorem orderly_string (g : Grammar) : Orderly stage g.string where
  matched {s t e} h := by
    have hreaches : s.Reaches t := (built_string g).obeys.matched h
    obtain ⟨body, hrest, hbody, -⟩ := Similarity.matches_string h
    have hpassed : Cursor.passed s t = '"' :: (body ++ ['"']) :=
      Cursor.passed_eq_of_rest (by simpa using hrest)
    exact ⟨hreaches, .inr (hpassed ▸ Nesting.settles_string hbody)⟩
  recovered {s t e} _ h := by
    have hsteps := recovers_sequence.1 (recovers_rule.1 h)
    rcases recovers_bind.1 hsteps with hbroken | ⟨_, u, hopen, htext⟩
    · exact absurd hbroken not_recovers_char
    rcases recovers_bind.1 htext with hbroken | ⟨body, d, htaken, hend⟩
    · exact absurd hbroken not_recovers_taking
    obtain ⟨-, rfl⟩ := matches_taking.1 htaken
    rcases recovers_bind.1 hend with hbroken | ⟨_, _, -, hbroken⟩
    · obtain ⟨hpeek, rfl, ht⟩ := recovers_expect_char hbroken
      have hopened : Built none (char '"') := .char _
      have hsu := hopened.obeys.matched hopen
      have hud := u.reaches_forward (Text.stringWidth u.rest)
      have hlt := hsu.remaining_lt_iff.1 (consumes_char _ _ _ _ hopen)
      have hline : Text.EndsLine (u.forward (Text.stringWidth u.rest)).rest := by
        rw [Cursor.peek?, Cursor.rest_forward] at hpeek
        rw [Cursor.rest_forward]
        exact (Text.endsLine_drop_stringWidth u.rest).resolve_left hpeek
      exact ⟨Nat.lt_of_lt_of_le hlt hud.offset_le, _, ⟨hsu.trans hud, .inr hline⟩, rfl, ht⟩
    · exact absurd hbroken not_recovers_pure

end

/-! ## Forms -/

/-- The parts are orderly wherever they stand, and expressions are never empty. -/
structure Parts.Orderly (A : Parts) : Prop where
  built : A.AllBuilt
  statement : Parser.Orderly .outside A.statement
  expression : Parser.Orderly .outside A.expression
  member : Parser.Orderly .outside A.member
  consumes : Consumes A.expression

namespace Form

/-- A form that begins with a sign of its own is committed from there on. -/
theorem orderly_opening {α : Type} {stage : Stage} {opening : Char} (hopening : opening ≠ '"')
    {steps : Cursor → Unit → Parser α} (h : ∀ c u, Orderly (.committed c) (steps c u)) :
    Orderly stage (here >>= fun c ↦ char opening >>= steps c) :=
  .sequence fun c ↦ .commit (consumes_char opening) (.char hopening) (h c)

/-- What closes a form: layout, the closing sign, and the value. -/
theorem orderly_closing {α : Type} {start : Cursor} (missing : Fault) {c : Char} (hc : c ≠ '"')
    (a : α) : Orderly (.committed start) (do layout; expect start missing (char c); return a) :=
  Orderly.layout.bind fun _ ↦ ((Orderly.char hc).expect missing).bind fun _ ↦ .pure a

variable {A : Parts} {stage : Stage} (hA : A.Orderly)

include hA

/-- One argument after the other, with layout in front of each. -/
theorem orderly_arguments : Orderly stage (arguments A) :=
  .many <| Orderly.layout.bind fun _ ↦ hA.expression.inside

theorem orderly_array : Orderly stage (array A) :=
  .rule _ _ <| orderly_opening (by decide) fun _ _ ↦ (orderly_arguments hA).bind fun _ ↦
    orderly_closing _ (by decide) _

theorem orderly_block : Orderly stage (block A) :=
  .rule _ _ <| orderly_opening (by decide) fun _ _ ↦ hA.statement.inside.many.bind fun _ ↦
    orderly_closing _ (by decide) _

theorem orderly_blockExpression : Orderly stage (blockExpression A) := (orderly_block hA).map _

theorem orderly_body : Orderly stage (body A) :=
  (orderly_block hA).orElse (hA.expression.inside.map _)

/-- A branch has no sign of its own. It commits itself behind its condition, which is not empty. -/
theorem orderly_branch : Orderly stage (branch A) :=
  .sequence fun _ ↦ Orderly.layout.bind fun _ ↦ .commit hA.consumes hA.expression.inside fun _ ↦
    Orderly.layout.bind fun _ ↦ ((orderly_body hA).expect _).bind fun _ ↦ .pure _

/-- Here it is the keyword that has been passed. -/
theorem orderly_elseBranch : Orderly stage (elseBranch A) :=
  .sequence fun _ ↦ Orderly.layout.bind fun _ ↦
    .commit (consumes_keyword _) (orderly_word .otherwise) fun _ ↦
    Orderly.layout.bind fun _ ↦ (orderly_body hA).expect _

theorem orderly_cond : Orderly stage (cond A) :=
  .rule _ _ <| orderly_opening (by decide) fun _ _ ↦ Orderly.layout.bind fun _ ↦
    (orderly_word .cond).bind fun _ ↦ ((orderly_branch hA).oneOrMore.expect _).bind fun _ ↦
    (orderly_elseBranch hA).optional.bind fun _ ↦ orderly_closing _ (by decide) _

theorem orderly_closure : Orderly stage (closure A) :=
  .rule _ _ <| orderly_opening (by decide) fun _ _ ↦ Orderly.layout.bind fun _ ↦
    (Orderly.many <| orderly_name.bind fun _ ↦ Orderly.layout.bind fun _ ↦ .pure _).bind fun _ ↦
    ((Orderly.char (by decide)).expect _).bind fun _ ↦ Orderly.layout.bind fun _ ↦
    ((orderly_body hA).expect _).bind fun _ ↦ .pure _

theorem orderly_binaryCall : Orderly stage (binaryCall A) :=
  .rule _ _ <| orderly_opening (by decide) fun _ _ ↦ Orderly.layout.bind fun _ ↦
    orderly_binaryOperator.bind fun _ ↦ Orderly.layout.bind fun _ ↦
    (hA.expression.inside.expect _).bind fun _ ↦ Orderly.layout.bind fun _ ↦
    (hA.expression.inside.expect _).bind fun _ ↦ orderly_closing _ (by decide) _

theorem orderly_application : Orderly stage (application A) :=
  orderly_opening (by decide) fun _ _ ↦ Orderly.layout.bind fun _ ↦
    hA.member.inside.bind fun _ ↦ (orderly_arguments hA).bind fun _ ↦
    orderly_closing _ (by decide) _

theorem orderly_call : Orderly stage (call A) :=
  .rule _ _ <| (orderly_application hA).bind fun _ ↦ .pure _

theorem orderly_chainCall : Orderly stage (chainCall A) :=
  (orderly_application hA).orElse (hA.member.inside.bind fun _ ↦ .pure _)

theorem orderly_methodChain : Orderly stage (methodChain A) := by
  have harrow {stage : Stage} : Orderly stage (literal "~>") := .literal (by decide)
  exact .rule _ _ <| orderly_opening (by decide) fun _ _ ↦ Orderly.layout.bind fun _ ↦
    harrow.bind fun _ ↦ Orderly.layout.bind fun _ ↦ (hA.expression.inside.expect _).bind fun _ ↦
    (Orderly.many <| Orderly.layout.bind fun _ ↦ harrow.bind fun _ ↦ Orderly.layout.bind fun _ ↦
      (orderly_chainCall hA).expect _).bind fun _ ↦
    orderly_closing _ (by decide) _

theorem orderly_primary : Orderly stage (primary A) := by
  refine .choice ?_
  simp only [primaryForms, List.forall_mem_cons]
  exact ⟨orderly_number _, orderly_string _, orderly_boolean _, orderly_nil _, orderly_array hA,
    orderly_identifier _, orderly_cond hA, orderly_closure hA, orderly_binaryCall hA,
    orderly_methodChain hA, orderly_blockExpression hA, orderly_call hA, by simp⟩

/-- The keys are looked for behind the target, which is not empty. -/
theorem orderly_member : Orderly stage (member A) :=
  .rule _ _ <| .sequence fun _ ↦ .commit (consumes_primary hA.built) (orderly_primary hA) fun _ ↦
    (Orderly.many <| (Orderly.char (by decide)).bind fun _ ↦
      (orderly_primary hA).expect _).bind fun _ ↦ .pure _

/-- An operator in front of an expression commits itself to nothing. -/
theorem orderly_unary : Orderly stage (unary A) := by
  have happlied : Orderly stage (applied A) :=
    orderly_unaryOperator.bind fun _ ↦ hA.expression.inside.bind fun _ ↦ .pure _
  exact .rule _ _ <| happlied.orElse (orderly_member hA)

omit hA in
theorem orderly_head : Orderly stage head := by
  have hsignature : Orderly stage signature :=
    orderly_opening (by decide) fun _ _ ↦ Orderly.layout.bind fun _ ↦ orderly_name.bind fun _ ↦
      (Orderly.many <| Orderly.layout.bind fun _ ↦ orderly_name).bind fun _ ↦
      orderly_closing _ (by decide) _
  exact hsignature.orElse (orderly_name.map _)

/-- What is defined is read behind the keyword, at a stage that allows errors. -/
theorem orderly_defined (start : Cursor) (found : Head) :
    Orderly (.committed start) (defined A start found) := by
  cases found with
  | function name parameters =>
    exact (hA.statement.inside.oneOrMore.expect _).bind fun _ ↦ .pure _
  | constant name => exact (hA.expression.inside.expect _).bind fun _ ↦ .pure _

theorem orderly_definition : Orderly stage (definition A) :=
  .rule _ _ <| orderly_opening (by decide) fun start _ ↦ Orderly.layout.bind fun _ ↦
    (orderly_word .define).bind fun _ ↦ Orderly.layout.bind fun _ ↦
    (orderly_head.expect _).bind fun found ↦ Orderly.layout.bind fun _ ↦
    (orderly_defined hA start found).bind fun _ ↦ orderly_closing _ (by decide) _

theorem orderly_print : Orderly stage (print A) :=
  .rule _ _ <| orderly_opening (by decide) fun _ _ ↦ Orderly.layout.bind fun _ ↦
    (orderly_word .print).bind fun _ ↦ Orderly.layout.bind fun _ ↦
    (hA.expression.inside.expect _).bind fun _ ↦ orderly_closing _ (by decide) _

/-- The layout around a statement belongs to it; the statement breaks as its form does. -/
theorem orderly_statement : Orderly stage (statement A) :=
  .rule _ _ <| Orderly.layout.bind fun _ ↦
    ((orderly_definition hA).orElse ((orderly_print hA).orElse (orderly_unary hA))).bind fun _ ↦
    Orderly.layout.bind fun _ ↦ .pure _

end Form

/-- By induction on the depth, all parts at once, since each form uses the others. -/
theorem Parts.orderly_ofDepth (g : Grammar) (depth : Nat) : (Parts.ofDepth g depth).Orderly := by
  induction depth with
  | zero =>
    exact ⟨Parts.allBuilt_ofDepth g 0, .noMatch, .noMatch, .noMatch,
      fun _ _ _ h ↦ absurd h not_matches_noMatch⟩
  | succ depth ih =>
    exact ⟨Parts.allBuilt_ofDepth g (depth + 1), Form.orderly_statement ih, Form.orderly_unary ih,
      Form.orderly_member ih, Form.consumes_unary ih.built⟩

/-- Every statement of a source is orderly. -/
theorem Grammar.orderly_statement (g : Grammar) : Orderly .outside g.statement := by
  have hform (depth : Nat) : Orderly .outside (Form.statement (Parts.ofDepth g depth)) :=
    Form.orderly_statement (Parts.orderly_ofDepth g depth)
  constructor
  · intro s t e h
    exact (hform (s.remaining + 1)).matched (by rwa [Matches, ← g.run_nested])
  · intro s t e hs h
    exact (hform (s.remaining + 1)).recovered hs (by rwa [Recovers, ← g.run_nested])

end Lispette
