import Lispette.Proofs.Errors
import Lispette.Proofs.FormReading

/-!
# Every well-shaped program is read back

A well-shaped program, written out, is read as that program and nothing else, without an error. The
induction is over the shape of the program: each place in which an expression can stand has its own
notion of being read, since different characters may follow there.
-/

namespace Lispette

open Lispette.Parser Grammar Form

variable {g : Grammar}

/-! ## What is no definition and no output -/

/-- If the input opens a parenthesis, then neither of the keywords that open a statement follows. -/
def Plain (input : List Char) : Prop :=
  ∀ inside, input = '(' :: inside → Solid inside ∧ Refuses (keyword Keyword.define.word) inside ∧
    Refuses (keyword Keyword.print.word) inside

theorem plain_of_head_ne {input : List Char} (h : input.head? ≠ some '(') : Plain input := by
  rintro inside rfl
  exact absurd rfl h

namespace Plain

variable {input : List Char}

/-- The keyword is refused behind the parenthesis and its layout. -/
theorem refuses_definition (h : Plain input) : Refuses (definition g.parts) input := by
  by_cases hhead : input.head? = some '('
  · obtain ⟨inside, rfl⟩ := List.head?_eq_some_iff.1 hhead
    obtain ⟨hsolid, hdefine, -⟩ := h inside rfl
    exact .rule _ _ (refuses_parenthesized hsolid hdefine)
  · exact refuses_of_opens Alike.definition hhead

theorem refuses_print (h : Plain input) : Refuses (Form.print g.parts) input := by
  by_cases hhead : input.head? = some '('
  · obtain ⟨inside, rfl⟩ := List.head?_eq_some_iff.1 hhead
    obtain ⟨hsolid, -, hprint⟩ := h inside rfl
    exact .rule _ _ (refuses_parenthesized hsolid hprint)
  · exact refuses_of_opens Alike.print hhead

end Plain

theorem head_ne_paren_of_isNameChar {c : Char} (h : Text.isNameChar c = true) (input : List Char) :
    (c :: input).head? ≠ some '(' := by
  rintro ⟨⟩
  exact absurd h (by decide)

theorem plain_word {word : List Char} (hne : word ≠ [])
    (hchars : ∀ c ∈ word, Text.isNameChar c = true) (rest : List Char) : Plain (word ++ rest) := by
  cases word with
  | nil => exact absurd rfl hne
  | cons c cs => exact plain_of_head_ne (head_ne_paren_of_isNameChar (hchars c (by simp)) _)

/-- No form begins like a definition or an output: a name that stands first in parentheses is not a
reserved word. -/
theorem plain_primary {e : Expr} (h : e.WellShaped .primary) (rest : List Char) :
    Plain (e.spelling ++ rest) := by
  cases h with
  | number code =>
    obtain ⟨c, cs, htext, hc⟩ := Decimal.positional_head (Decimal.shortest .awayFromZero code)
    rw [Expr.spelling, Binary64.display, Binary64.signed, String.toList_ofList]
    refine plain_of_head_ne ?_
    rw [if_neg (by decide), htext]
    exact head_ne_paren_of_isNameChar (Text.isNameChar_of_isDigit hc) _
  | boolean value =>
    rw [Expr.spelling]
    cases value with
    | true => exact plain_word (by decide) (isNameChar_of_isName (by decide)) rest
    | false => exact plain_word (by decide) (isNameChar_of_isName (by decide)) rest
  | nil => exact plain_word (by decide) (isNameChar_keyword _) rest
  | identifier hname _ _ =>
    obtain ⟨c, cs, hword, -⟩ := isName_cases hname
    exact plain_word (by simp [hword]) (isNameChar_of_isName hname) rest
  | cond _ _ _ _ =>
    rw [cond_append]
    rintro inside ⟨⟩
    exact ⟨solid_keyword _ _, .keyword_of_head (by simp [Keyword.word]),
      .keyword_of_head (by simp [Keyword.word])⟩
  | @binary op _ _ _ _ =>
    rw [binary_append]
    rintro inside ⟨⟩
    exact ⟨solid_symbol op _, refuses_keyword_symbol op (by cases op <;> decide) _,
      refuses_keyword_symbol op (by cases op <;> decide) _⟩
  | chain _ _ _ =>
    rw [chain_append]
    rintro inside ⟨⟩
    exact ⟨solid_cons (by decide) (by decide), .keyword_of_head (by simp [Keyword.word]),
      .keyword_of_head (by simp [Keyword.word])⟩
  | @call _ arguments hcallee _ =>
    rw [Expr.spelling, Expr.spellings_eq_map, application_append]
    rintro inside ⟨⟩
    have hstart := Expr.callStart_member hcallee (follows_arguments arguments rest)
    exact ⟨hstart.solid, hstart.refuses_keyword .define (by decide),
      hstart.refuses_keyword .print (by decide)⟩
  | string _ | array _ | closure _ _ | block _ =>
    exact plain_of_head_ne (by simp [Expr.spelling, enclosed, braced, spaced])

theorem plain_expression {e : Expr} (h : e.WellShaped .expression) (rest : List Char) :
    Plain (e.spelling ++ rest) := by
  cases h with
  | @unary op operand _ =>
    refine plain_of_head_ne ?_
    cases op <;> simp [Expr.spelling, UnaryOperator.symbol]
  | ofMember h =>
    obtain ⟨target, more, hshape, htext, -⟩ := Expr.exists_primary h
    rw [htext, List.append_assoc]
    exact plain_primary hshape _

/-! ## Statements -/

/-- An expression is read as a statement once the two other kinds of statements are ruled out. -/
theorem Form.ReadsExpression.statement {e : Expr} (h : ReadsExpression g e)
    (hshape : e.WellShaped .expression) : ReadsStatement g e := by
  intro rest hrest
  have hplain := plain_expression hshape rest
  have hread := h rest hrest
  rw [g.expression_eq] at hread
  exact .orElse_right hplain.refuses_definition <| .orElse_right hplain.refuses_print hread

theorem readsStatement_print {value : Expr} (hvalue : value.WellShaped .expression)
    (hread : ReadsExpression g value) : ReadsStatement g (.print value) := by
  intro rest _
  have htext : (Expr.print value).spelling ++ rest = '(' :: (Keyword.print.word.toList ++ ' ' ::
      (value.spelling ++ ')' :: rest)) := by
    simp [Expr.spelling, enclosed, spaced]
  have hdefinition (input : List Char) :
      Refuses (definition g.parts) ('(' :: (Keyword.print.word.toList ++ input)) :=
    .rule _ _ <| refuses_parenthesized (solid_keyword _ _) <|
      .keyword_of_head (by simp [Keyword.word])
  rw [htext]
  refine .orElse_right (hdefinition _) (.orElse_left ?_)
  exact .rule _ _ <| .sequence fun _ ↦ (Reads.char _ _).bind <|
    (reads_layout (solid_keyword _ _)).bind <| (Reads.keyword (by decide) endsWord_space).bind <|
    (reads_layout_space (Expr.solid_spelling hvalue _)).bind <|
    (hread _ follows_paren).orFail.bind <| (reads_layout solid_paren).bind <|
    (Reads.char _ _).orFail.bind <| .pure _ _

/-- A definition, from the reading of its head and of what it defines. -/
theorem reads_definition {head : Head} {e : Expr} {headText bodyText rest : List Char}
    (hhead : Solid headText) (hbody : Solid bodyText)
    (hreadHead : Reads Form.head headText head (' ' :: bodyText))
    (hreadBody : ∀ start, Reads (defined g.parts start head) bodyText e (')' :: rest)) :
    Reads (definition g.parts) ('(' :: (Keyword.define.word.toList ++ ' ' :: headText)) e rest :=
  .rule _ _ <| .sequence fun start ↦ (Reads.char _ _).bind <|
    (reads_layout (solid_keyword _ _)).bind <| (Reads.keyword (by decide) endsWord_space).bind <|
    (reads_layout_space hhead).bind <| hreadHead.orFail.bind <| (reads_layout_space hbody).bind <|
    (hreadBody start).bind <| (reads_layout solid_paren).bind <| (Reads.char _ _).orFail.bind <|
    .pure _ _

theorem readsStatement_constant {name : String} {value : Expr} (hname : isName name = true)
    (hvalue : value.WellShaped .expression) (hread : ReadsExpression g value) :
    ReadsStatement g (.constant name value) := by
  intro rest _
  have htext : (Expr.constant name value).spelling ++ rest =
      '(' :: (Keyword.define.word.toList ++ ' ' :: (name.toList ++ ' ' ::
        (value.spelling ++ ')' :: rest))) := by
    simp [Expr.spelling, enclosed, spaced]
  have hhead (input : List Char) :
      Reads Form.head (name.toList ++ ' ' :: input) (.constant name) (' ' :: input) := by
    obtain ⟨c, cs, hword, hc, -⟩ := isName_cases hname
    refine .orElse_right (.sequence fun _ ↦ .bind_left (.char ?_))
      ((reads_name hname endsWord_space).map _)
    rw [hword]
    exact head_ne_paren_of_isNameChar (isNameChar_of_isNameStart hc) _
  rw [htext]
  exact .orElse_left <| reads_definition (solid_name hname _) (Expr.solid_spelling hvalue _)
    (hhead _) fun _ ↦ (hread _ follows_paren).orFail.bind <| .pure _ _

/-- The signature of a function, whose names are separated by single spaces. -/
theorem reads_signature {name : String} {parameters : List String} (hname : isName name = true)
    (hparameters : ∀ word ∈ parameters, isName word = true) (rest : List Char) :
    Reads Form.head ('(' :: (name.toList ++ (parameters.flatMap (' ' :: ·.toList) ++ ')' :: rest)))
      (.function name parameters) rest := by
  have hparen : EndsWord (')' :: rest) := follows_paren.slash.endsWord
  have hmany : Reads (many (do layout; Grammar.name))
      (parameters.flatMap (' ' :: ·.toList) ++ ')' :: rest) parameters (')' :: rest) := by
    refine .many_flatMap (F := EndsWord) ?_ (by simp) (fun _ _ _ ↦ endsWord_space) hparen
      (.inr (.bind_right (reads_layout solid_paren) (refuses_name ?_)))
    · intro word hword more hmore
      exact (reads_layout_space (solid_name (hparameters word hword) more)).bind
        (reads_name (hparameters word hword) hmore)
    · rintro c ⟨⟩
      decide
  have hword : EndsWord (parameters.flatMap (' ' :: ·.toList) ++ ')' :: rest) := by
    cases parameters with
    | nil => exact hparen
    | cons word parameters => exact endsWord_space
  exact .orElse_left <| .sequence fun _ ↦ (Reads.char _ _).bind <|
    (reads_layout (solid_name hname _)).bind <| (reads_name hname hword).bind <| hmany.bind <|
    (reads_layout solid_paren).bind <| (Reads.char _ _).orFail.bind <| .pure _ _

/-- The body of a function is a block that is its only statement. -/
theorem readsStatement_function {name : String} {parameters : List String} {body : List Expr}
    (hname : isName name = true) (hparameters : ∀ word ∈ parameters, isName word = true)
    (hbody : ∀ e ∈ body, e.WellShaped .statement)
    (hblock : ReadsStatement g (.block body)) :
    ReadsStatement g (.function name parameters body) := by
  intro rest _
  have hshape : (Expr.block body).WellShaped .statement :=
    .ofExpression (.ofMember (.ofPrimary (.block hbody)))
  have htext : (Expr.function name parameters body).spelling ++ rest =
      '(' :: (Keyword.define.word.toList ++ ' ' :: '(' :: (name.toList ++
        (parameters.flatMap (' ' :: ·.toList) ++ ')' :: ' ' ::
          ((Expr.block body).spelling ++ ')' :: rest)))) := by
    simp [Expr.spelling, enclosed, spaced, names, List.flatMap_map]
  have hstatements : Reads (many g.statement) ((Expr.block body).spelling ++ ')' :: rest)
      [.block body] (')' :: rest) :=
    .many_cons (Expr.spelling_ne_nil hshape)
      (reads_statement (reads_layout (Expr.solid_spelling hshape _)) hblock follows_paren
        (reads_layout solid_paren))
      (.many_nil (.inr (refuses_statement_closing (by decide) (reads_layout solid_paren))))
  rw [htext]
  exact .orElse_left <| reads_definition (solid_cons (by decide) (by decide))
    (Expr.solid_spelling hshape _) (reads_signature hname hparameters _) fun _ ↦
    (Reads.oneOrMore (by simp) hstatements).orFail.bind <| .pure _ _

/-! ## Everything well-shaped is read back -/

/-- What is to be shown in each place. A member access is taken apart into its keys. -/
def ReadBack (g : Grammar) : Place → Expr → Prop
  | .statement, e => ReadsStatement g e
  | .expression, e => ReadsExpression g e
  | .member, e => ∃ (target : Expr) (keys : List Expr), e = keys.foldl .member target ∧
      e.spelling = target.spelling ++ keys.flatMap ('/' :: ·.spelling) ∧
      ReadsPrimary g target ∧ ∀ key ∈ keys, ReadsPrimary g key
  | .primary, e => ReadsPrimary g e

theorem ReadBack.readsMember {e : Expr} (h : ReadBack g .member e) : ReadsMember g e := by
  obtain ⟨target, keys, rfl, htext, htarget, hkeys⟩ := h
  intro rest hrest
  rw [g.member_eq, htext, List.append_assoc]
  exact reads_member htarget hkeys hrest

theorem Form.ReadsPrimary.member {e : Expr} (h : ReadsPrimary g e) : ReadBack g .member e :=
  ⟨e, [], rfl, by simp, h, by simp⟩

/-- One key more: the spelling goes on with a slash, and what stood before is the target. -/
theorem ReadBack.key {target key : Expr} (htarget : ReadBack g .member target)
    (hkey : ReadsPrimary g key) : ReadBack g .member (.member target key) := by
  obtain ⟨first, keys, rfl, htext, hfirst, hkeys⟩ := htarget
  refine ⟨first, keys ++ [key], by simp, ?_, hfirst, ?_⟩
  · rw [Expr.spelling, htext]
    simp
  · simpa [or_imp, forall_and] using ⟨hkeys, hkey⟩

/-- By induction on the shape, with one lemma for each form. -/
theorem Expr.WellShaped.readBack {place : Place} {e : Expr} (h : e.WellShaped place) :
    ReadBack g place e := by
  induction h with
  | number code => exact readsPrimary_number code
  | string htext => exact readsPrimary_string htext
  | boolean value => exact readsPrimary_boolean value
  | nil => exact readsPrimary_nil
  | array hitems ih => exact readsPrimary_array hitems ih
  | identifier hname htrue hfalse => exact readsPrimary_identifier hname htrue hfalse
  | cond hne hconditions hbodies hotherwise ihconditions ihbodies ihotherwise =>
    exact readsPrimary_cond hne hconditions hbodies hotherwise ihconditions ihbodies ihotherwise
  | closure hnames hbody ih => exact readsPrimary_closure hnames hbody ih
  | binary hleft hright ihleft ihright => exact readsPrimary_binary hleft hright ihleft ihright
  | chain hreceiver htargets harguments ihreceiver ihtargets iharguments =>
    exact readsPrimary_chain hreceiver htargets harguments ihreceiver
      (fun c hc ↦ (ihtargets c hc).readsMember) iharguments
  | block hstatements ih => exact readsPrimary_block hstatements ih
  | call hcallee harguments ihcallee iharguments =>
    exact readsPrimary_call hcallee harguments ihcallee.readsMember iharguments
  | member _ _ ihtarget ihkey => exact ihtarget.key ihkey
  | ofPrimary _ ih => exact ReadsPrimary.member ih
  | unary _ ih => exact readsExpression_unary ih
  | ofMember hmember ih => exact ih.readsMember.expression hmember
  | constant hname hvalue ih => exact readsStatement_constant hname hvalue ih
  | function hname hparameters hbody ih =>
    -- The body is read as a statement of its own and only then taken apart.
    have hblock := (readsPrimary_block hbody ih).member.readsMember
    have hmember := Expr.WellShaped.ofPrimary (.block hbody)
    exact readsStatement_function hname hparameters hbody
      ((hblock.expression hmember).statement (.ofMember hmember))
  | print hvalue ih => exact readsStatement_print hvalue ih
  | ofExpression hexpression ih => exact ReadsExpression.statement ih hexpression

/-! ## Programs -/

theorem reads_topLevel {e : Expr} {input rest : List Char} (h : Reads g.statement input e rest) :
    Reads g.topLevel input e rest := by
  refine .orElse_left fun s hs ↦ ?_
  obtain ⟨t, hmatch, ht⟩ := h s hs
  exact ⟨t, hmatch.salvaged, ht⟩

theorem reads_program {p : Program} (h : p.WellShaped) :
    Reads g.program p.spelling.toList p [] := by
  obtain ⟨hne, hbody⟩ := h
  have hread : ∀ e ∈ p.body, ReadsStatement g e := fun e he ↦ (hbody e he).readBack
  have hend : Follows stops [] ∧ Solid [] := by simp [Follows, Solid]
  have hmany : Reads (many g.topLevel) (spaced (p.body.map Expr.spelling) ++ []) p.body [] := by
    refine .many_spaced ?_ ?_ (fun e he ↦ Expr.spelling_ne_nil (hbody e he)) (.inl rfl)
    · intro e he
      exact reads_topLevel (reads_statement (reads_layout (Expr.solid_spelling (hbody e he) _))
        (hread e he) hend.1 (reads_layout hend.2))
    · intro d hd e he more
      exact reads_topLevel (reads_statement (reads_layout (Expr.solid_spelling (hbody d hd) _))
        (hread d hd) follows_space (reads_layout_space (Expr.solid_spelling (hbody e he) more)))
  rw [List.append_nil] at hmany
  rw [Program.spelling, String.toList_ofList, Expr.spellings_eq_map]
  exact .rule _ _ <| (Reads.oneOrMore hne hmany).bind <| (reads_layout hend.2).bind <| .pure p []

/-- A well-shaped program is read back from its spelling, to the end and without an error. -/
theorem parse_spelling (p : Program) (h : p.WellShaped) :
    (parse p.spelling).program = some p ∧ (parse p.spelling).final.errors = [] ∧
      (parse p.spelling).final.atEnd = true := by
  obtain ⟨t, hmatch, -⟩ := reads_program (g := {}) h (Cursor.ofSource p.spelling) rfl
  have hprogram : (parse p.spelling).program = some p := by
    change (({} : Grammar).program.run (Cursor.ofSource p.spelling)).reply.value? = some p
    rw [hmatch.1]
    rfl
  have hfinal := Grammar.program_parse {} hprogram
  have hnone : p.errors = [] := by
    refine List.filterMap_eq_nil_iff.2 fun e he ↦ ?_
    simpa [Expr.isError] using (h.2 e he).isError_eq_false
  have herrors := Grammar.errors_of_program {} hfinal
  rw [hnone] at herrors
  exact ⟨hprogram, herrors, (Grammar.matches_program {} hfinal).1⟩

/-- A function whose body is a single block, a closure that is called with an operation on bits, and
a chain as condition, on a name that begins like an operator. -/
theorem parse_spelling_mixed :
    let p : Program := ⟨[
      .function "f" ["true"] [.block [.print (.identifier "x")]],
      .call (.closure ["x"] []) [.binary .bitOr (.unary .bitNot (.number (.finite false 0))) .nil],
      .cond [⟨.chain (.identifier "orx") [⟨.member .nil (.boolean true), []⟩], [.string "\\\""]⟩]
        (some [])]⟩
    p.WellShaped ∧ p.spelling = "(def (f true) \x7b \x7b (print x) \x7d \x7d) " ++
        "(|x| \x7b \x7d (| ~0 nil)) " ++
        "(cond (~> orx ~> (nil/true)) \x7b \"\\\"\" \x7d else \x7b \x7d)" ∧
      (parse p.spelling).program = some p ∧ (parse p.spelling).final.errors = [] ∧
      (parse p.spelling).final.atEnd = true := by
  intro p
  have hfunction : (Expr.function "f" ["true"] [.block [.print (.identifier "x")]]).WellShaped
      .statement := by
    have hx : (Expr.identifier "x").WellShaped .expression :=
      .ofMember (.ofPrimary (.identifier (by decide) (by decide) (by decide)))
    have hblock : (Expr.block [.print (.identifier "x")]).WellShaped .primary :=
      .block (List.forall_mem_singleton.2 (.print hx))
    exact .function (by decide) (by decide)
      (List.forall_mem_singleton.2 (.ofExpression (.ofMember (.ofPrimary hblock))))
  have hcall : (Expr.call (.closure ["x"] [])
      [.binary .bitOr (.unary .bitNot (.number (.finite false 0))) .nil]).WellShaped .primary := by
    have hoperand : (Expr.number (.finite false 0)).WellShaped .expression :=
      .ofMember (.ofPrimary (.number 0))
    have hbinary : (Expr.binary .bitOr (.unary .bitNot (.number (.finite false 0)))
        .nil).WellShaped .primary :=
      .binary (.unary hoperand) (.ofMember (.ofPrimary .nil))
    exact .call (.ofPrimary (.closure (by decide) (by simp)))
      (List.forall_mem_singleton.2 (.ofMember (.ofPrimary hbinary)))
  have hcond : (Expr.cond
      [⟨.chain (.identifier "orx") [⟨.member .nil (.boolean true), []⟩], [.string "\\\""]⟩]
      (some [])).WellShaped .primary := by
    have hname : (Expr.identifier "orx").WellShaped .expression :=
      .ofMember (.ofPrimary (.identifier (by decide) (by decide) (by decide)))
    have hchain : (Expr.chain (.identifier "orx") [⟨.member .nil (.boolean true), []⟩]).WellShaped
        .primary :=
      .chain hname (List.forall_mem_singleton.2 (.member (.ofPrimary .nil) (.boolean true)))
        (by simp)
    have hstring : (Expr.string "\\\"").WellShaped .primary :=
      .string (.escape (by decide) .nil)
    exact .cond (by simp) (List.forall_mem_singleton.2 (.ofMember (.ofPrimary hchain)))
      (List.forall_mem_singleton.2 (List.forall_mem_singleton.2
        (.ofExpression (.ofMember (.ofPrimary hstring))))) (by simp)
  have hp : p.WellShaped := by
    refine ⟨by simp [p], List.forall_mem_cons.2 ⟨hfunction, List.forall_mem_cons.2 ⟨?_,
      List.forall_mem_singleton.2 ?_⟩⟩⟩
    · exact .ofExpression (.ofMember (.ofPrimary hcall))
    · exact .ofExpression (.ofMember (.ofPrimary hcond))
  exact ⟨hp, by decide +kernel, parse_spelling p hp⟩

end Lispette
