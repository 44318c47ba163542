import Lispette.Proofs.Lookahead
import Lispette.Proofs.Recursion

/-!
# Forms are read back

Each form is read from its spelling if its parts are. Most of the work is to show that the
alternatives that are tried earlier refuse the text.
-/

namespace Lispette

open Lispette.Parser Grammar

/-- A form is refused where the character that opens it is missing. -/
theorem refuses_of_opens {A : Parts} {opening : Char} {α : Type} {p : Parser α}
    (h : Opens A A opening none p p) {input : List Char} (hne : input.head? ≠ some opening) :
    Refuses p input := by
  intro s hs
  apply h.rejects
  rw [Cursor.peek?, hs]
  exact hne

namespace Form

/-! ## Refusals -/

section

variable {A : Parts} {input : List Char}

/-- The forms that begin with a bracket, a quote or a bar refuse everything else. -/
theorem refuses_primary (hdigit : ∀ c ∈ input.head?, c.isDigit = false)
    (htrue : Refuses (keyword "true") input) (hfalse : Refuses (keyword "false") input)
    (hnil : Refuses (keyword Keyword.nil.word) input) (hname : Refuses name input)
    (hhead : ∀ c ∈ ['"', '[', '(', '|', '\x7b'], input.head? ≠ some c) :
    Refuses (primary A) input := by
  have hparen : input.head? ≠ some '(' := hhead _ (by decide)
  refine .choice ?_
  simp only [primaryForms, List.forall_mem_cons]
  exact ⟨refuses_number _ hdigit, refuses_of_opens Alike.string (hhead _ (by decide)),
    refuses_boolean _ htrue hfalse, .rule _ _ (.bind_left hnil),
    refuses_of_opens Alike.array (hhead _ (by decide)), .rule _ _ (.map _ hname),
    refuses_of_opens Alike.cond hparen, refuses_of_opens Alike.closure (hhead _ (by decide)),
    refuses_of_opens Alike.binaryCall hparen, refuses_of_opens Alike.methodChain hparen,
    refuses_of_opens Alike.blockExpression (hhead _ (by decide)),
    refuses_of_opens Alike.call hparen, by simp⟩

theorem refuses_unary (hprimary : Refuses (primary A) input)
    (hhead : ∀ op : UnaryOperator, input.head? ≠ some op.symbol) : Refuses (unary A) input := by
  have happlied : Refuses (applied A) input := .bind_left (refuses_unaryOperator hhead)
  have hmember : Refuses (member A) input :=
    .rule _ _ (.sequence fun _ ↦ .bind_left hprimary)
  exact .rule _ _ (happlied.orElse hmember)

/-- No expression begins with a closing bracket, and so lists of expressions end there. -/
theorem refuses_unary_closing {c : Char} (hc : c ∈ [')', ']', '\x7d']) (rest : List Char) :
    Refuses (unary A) (c :: rest) := by
  have hcases : c = ')' ∨ c = ']' ∨ c = '\x7d' := by simpa using hc
  have hword {word : String} (hne : word.toList.head? ≠ some c) :
      Refuses (keyword word) (c :: rest) :=
    .keyword_of_head fun h ↦ hne h.symm
  refine refuses_unary (refuses_primary ?_ (hword ?_) (hword ?_) (hword ?_) (refuses_name ?_) ?_) ?_
  · rintro d ⟨⟩
    rcases hcases with rfl | rfl | rfl <;> decide
  · rcases hcases with rfl | rfl | rfl <;> decide
  · rcases hcases with rfl | rfl | rfl <;> decide
  · rcases hcases with rfl | rfl | rfl <;> decide
  · rintro d ⟨⟩
    rcases hcases with rfl | rfl | rfl <;> decide
  · rcases hcases with rfl | rfl | rfl <;> simp
  · intro op
    rcases hcases with rfl | rfl | rfl <;> cases op <;> simp [UnaryOperator.symbol]

theorem refuses_unary_nil : Refuses (unary A) [] := by
  have hword {word : String} (hne : word.toList ≠ []) : Refuses (keyword word) [] :=
    .keyword_of_head fun h ↦ hne (List.head?_eq_none_iff.1 h.symm)
  refine refuses_unary (refuses_primary ?_ (hword ?_) (hword ?_) (hword ?_) (refuses_name ?_) ?_) ?_
  all_goals simp [Keyword.word]

/-- No expression begins with a reserved word other than the one for the empty value. -/
theorem refuses_primary_keyword {k : Keyword} (hk : k ≠ .nil) {rest : List Char}
    (hrest : EndsWord rest) : Refuses (primary A) (k.word.toList ++ rest) := by
  have hword (word : String) (hchars : ∀ c ∈ word.toList, Text.isNameChar c = true)
      (hne : k.word.toList ≠ word.toList) : Refuses (keyword word) (k.word.toList ++ rest) :=
    refuses_keyword hchars (isNameChar_keyword _) hrest hne
  have htrue := hword "true" (isNameChar_of_isName (by decide)) (by cases k <;> decide)
  have hfalse := hword "false" (isNameChar_of_isName (by decide)) (by cases k <;> decide)
  have hnil := hword _ (isNameChar_keyword .nil) (by revert hk; cases k <;> decide)
  refine refuses_primary ?_ htrue hfalse hnil (refuses_name_keyword _ hrest) ?_
  · intro c hc
    cases k <;> (obtain rfl := Option.some.inj hc; decide)
  · cases k <;> simp [Keyword.word]

/-- The word that opens the last branch of a conditional does not begin another condition. -/
theorem refuses_unary_else {rest : List Char} (hrest : EndsWord rest) :
    Refuses (unary A) (Keyword.otherwise.word.toList ++ rest) := by
  refine refuses_unary (refuses_primary_keyword (by decide) hrest) ?_
  intro op
  cases op <;> simp [UnaryOperator.symbol, Keyword.word]

/-- What comes first inside parentheses tells the parenthesised forms from each other. -/
theorem refuses_parenthesized {α β : Type} {p : Parser β} {f : Cursor → β → Parser α}
    (hsolid : Solid input) (h : Refuses p input) :
    Refuses (here >>= fun start ↦ char '(' >>= fun _ ↦ layout >>= fun _ ↦ p >>= f start)
      ('(' :: input) :=
  .sequence fun _ ↦ .bind_right (.char _ _) <| .bind_right (reads_layout hsolid) <| .bind_left h

theorem refuses_cond (hsolid : Solid input) (h : Refuses (keyword Keyword.cond.word) input) :
    Refuses (cond A) ('(' :: input) :=
  .rule _ _ (refuses_parenthesized hsolid h)

theorem refuses_binaryCall (hsolid : Solid input) (h : Refuses binaryOperator input) :
    Refuses (binaryCall A) ('(' :: input) :=
  .rule _ _ (refuses_parenthesized hsolid h)

/-- The forms in parentheses. -/
theorem refuses_paren_forms {c : Char} (hc : c ≠ '(') (rest : List Char) :
    ∀ q ∈ [cond A, binaryCall A, methodChain A], Refuses q (c :: rest) := by
  have hhead : (c :: rest).head? ≠ some '(' := by simpa using hc
  simp only [List.forall_mem_cons]
  exact ⟨refuses_of_opens Alike.cond hhead, refuses_of_opens Alike.binaryCall hhead,
    refuses_of_opens Alike.methodChain hhead, by simp⟩

theorem refuses_closure {c : Char} (hc : c ≠ '|') (rest : List Char) :
    Refuses (closure A) (c :: rest) :=
  refuses_of_opens Alike.closure (by simpa using hc)

theorem refuses_blockExpression {c : Char} (hc : c ≠ '\x7b') (rest : List Char) :
    Refuses (blockExpression A) (c :: rest) :=
  refuses_of_opens Alike.blockExpression (by simpa using hc)

end

/-! ## What it means for an expression to be read back -/

section

variable (g : Grammar)

def ReadsPrimary (e : Expr) : Prop :=
  ∀ rest, Follows ('/' :: stops) rest → Reads (primary g.parts) (e.spelling ++ rest) e rest

def ReadsMember (e : Expr) : Prop :=
  ∀ rest, Follows stops rest → Reads g.member (e.spelling ++ rest) e rest

def ReadsExpression (e : Expr) : Prop :=
  ∀ rest, Follows stops rest → Reads g.expression (e.spelling ++ rest) e rest

/-- Without the layout around a statement. -/
def ReadsStatement (e : Expr) : Prop :=
  ∀ rest, Follows stops rest →
    Reads (definition g.parts <|> print g.parts <|> unary g.parts) (e.spelling ++ rest) e rest

end

variable {g : Grammar}

/-- What spellings put behind an expression: a space or a closing bracket. -/
theorem follows_space {rest : List Char} : Follows stops (' ' :: rest) := follows_cons (by decide)

theorem follows_paren {rest : List Char} : Follows stops (')' :: rest) := follows_cons (by decide)

theorem solid_paren {rest : List Char} : Solid (')' :: rest) := solid_cons (by decide) (by decide)

theorem endsWord_space {rest : List Char} : EndsWord (' ' :: rest) := follows_space.slash.endsWord

/-! ## Lists of expressions -/

theorem refuses_expression_closing {c : Char} (hc : c ∈ [')', ']', '}']) (rest : List Char) :
    Refuses g.expression (c :: rest) := by
  rw [g.expression_eq]
  exact refuses_unary_closing hc rest

theorem solid_closing {c : Char} (hc : c ∈ [')', ']', '}']) (rest : List Char) :
    Solid (c :: rest) := by
  have hall : ∀ c ∈ [')', ']', '}'], Text.isSpace c = false ∧ c ≠ ';' :=
    List.all_iff_forall_prop.1 (by decide)
  exact solid_cons (hall c hc).1 (hall c hc).2

section

variable {items : List Expr} (hshape : ∀ e ∈ items, e.WellShaped .expression)
  (hread : ∀ e ∈ items, ReadsExpression g e) {c : Char} (hc : c ∈ [')', ']', '}'])
  (rest : List Char)

include hshape hread hc

/-- Arguments, each after a space. -/
theorem reads_arguments :
    Reads (arguments g.parts) (items.flatMap (' ' :: ·.spelling) ++ c :: rest) items
      (c :: rest) := by
  have hfollow : Follows stops (c :: rest) := follows_cons (List.mem_cons_of_mem _ hc)
  refine .many_flatMap (F := Follows stops) ?_ (by simp) (fun _ _ _ ↦ follows_space) hfollow
    (.inr ?_)
  · intro e he more hmore
    exact (reads_layout_space (Expr.solid_spelling (hshape e he) more)).bind (hread e he more hmore)
  · exact .bind_right (reads_layout (solid_closing hc rest)) (refuses_expression_closing hc rest)

/-- Items, the first of which directly follows the opening character. -/
theorem reads_items :
    Reads (arguments g.parts) (spaced (items.map Expr.spelling) ++ c :: rest) items
      (c :: rest) := by
  cases items with
  | nil => exact reads_arguments hshape hread hc rest
  | cons e items =>
    obtain ⟨hshape_e, hshape⟩ := List.forall_mem_cons.1 hshape
    obtain ⟨hread_e, hread⟩ := List.forall_mem_cons.1 hread
    have hmore := reads_arguments hshape hread hc rest
    have hfollow : Follows stops (items.flatMap (' ' :: ·.spelling) ++ c :: rest) :=
      follows_flatMap (fun _ _ _ ↦ follows_space) (follows_cons (List.mem_cons_of_mem _ hc))
    rw [List.map_cons, spaced, List.flatMap_map, List.append_assoc]
    exact .many_cons (Expr.spelling_ne_nil hshape_e)
      ((reads_layout (Expr.solid_spelling hshape_e _)).bind (hread_e _ hfollow)) hmore

end

/-! ## Statements and bodies -/

/-- A statement passes the layout on both sides of it. -/
theorem reads_statement {e : Expr} {before after rest : List Char}
    (hbefore : Reads layout before () (e.spelling ++ after)) (hread : ReadsStatement g e)
    (hfollow : Follows stops after) (hafter : Reads layout after () rest) :
    Reads g.statement before e rest := by
  rw [g.statement_eq]
  exact .rule _ _ <| hbefore.bind <| (hread after hfollow).bind <| hafter.bind <| .pure _ _

/-- Where no parenthesis opens after the layout, a statement is an expression. -/
theorem refuses_statement {input rest : List Char} (hlayout : Reads layout input () rest)
    (hparen : rest.head? ≠ some '(') (hunary : Refuses (unary g.parts) rest) :
    Refuses g.statement input := by
  rw [g.statement_eq]
  exact .rule _ _ <| .bind_right hlayout <| .bind_left <|
    (refuses_of_opens Alike.definition hparen).orElse <|
    (refuses_of_opens Alike.print hparen).orElse hunary

/-- No statement begins with a closing character, also not after layout. -/
theorem refuses_statement_closing {c : Char} (hc : c ∈ [')', ']', '\x7d']) {input rest : List Char}
    (hlayout : Reads layout input () (c :: rest)) : Refuses g.statement input := by
  have hall : ∀ c ∈ [')', ']', '\x7d'], some c ≠ some '(' := List.all_iff_forall_prop.1 (by decide)
  exact refuses_statement hlayout (hall c hc) (refuses_unary_closing hc rest)

section

variable {body : List Expr} (hshape : ∀ e ∈ body, e.WellShaped .statement)
  (hread : ∀ e ∈ body, ReadsStatement g e) (rest : List Char)

include hshape

theorem solid_statements : Solid (body.flatMap (·.spelling ++ [' ']) ++ '\x7d' :: rest) := by
  cases body with
  | nil => exact solid_closing (by decide) rest
  | cons e body =>
    rw [List.flatMap_cons, List.append_assoc, List.append_assoc]
    exact Expr.solid_spelling (hshape e (by simp)) _

include hread

/-- Each statement passes the space after it. -/
theorem reads_statements :
    Reads (many g.statement) (body.flatMap (·.spelling ++ [' ']) ++ '\x7d' :: rest) body
      ('\x7d' :: rest) := by
  have hsolid : Solid ('\x7d' :: rest) := solid_closing (by decide) rest
  refine .many_flatMap (F := Solid) ?_ (by simp) ?_ hsolid
    (.inr (refuses_statement_closing (by decide) (reads_layout hsolid)))
  · intro e he more hmore
    rw [List.append_assoc]
    exact reads_statement (reads_layout (Expr.solid_spelling (hshape e he) _)) (hread e he)
      follows_space (reads_layout_space hmore)
  · intro e he more
    rw [List.append_assoc]
    exact Expr.solid_spelling (hshape e he) _

/-- The first statement also passes the space in front of it. If there is no statement, that space
is left. -/
theorem reads_statements_space : ∃ middle,
    Reads (many g.statement) (' ' :: (body.flatMap (·.spelling ++ [' ']) ++ '\x7d' :: rest)) body
      middle ∧ Reads layout middle () ('\x7d' :: rest) := by
  have hsolid : Solid ('\x7d' :: rest) := solid_closing (by decide) rest
  cases body with
  | nil =>
    have hlayout : Reads layout (' ' :: '\x7d' :: rest) () ('\x7d' :: rest) :=
      reads_layout_space hsolid
    exact ⟨_, .many_nil (.inr (refuses_statement_closing (by decide) hlayout)), hlayout⟩
  | cons e body =>
    obtain ⟨hshape_e, hshape⟩ := List.forall_mem_cons.1 hshape
    obtain ⟨hread_e, hread⟩ := List.forall_mem_cons.1 hread
    have hmore := reads_statements hshape hread rest
    have hfirst (more : List Char) (h : Solid more) :
        Reads g.statement ((' ' :: (e.spelling ++ [' '])) ++ more) e more := by
      rw [List.cons_append, List.append_assoc]
      exact reads_statement (reads_layout_space (Expr.solid_spelling hshape_e _)) hread_e
        follows_space (reads_layout_space h)
    rw [List.flatMap_cons, List.append_assoc, ← List.cons_append]
    exact ⟨_, .many_cons (List.cons_ne_nil _ _) (hfirst _ (solid_statements hshape rest)) hmore,
      reads_layout hsolid⟩

/-- The statements and the closing brace, with single spaces between them. -/
theorem reads_block :
    Reads (block g.parts) (braced (body.map Expr.spelling) ++ rest) body rest := by
  obtain ⟨middle, hstatements, hlayout⟩ := reads_statements_space hshape hread rest
  rw [braced_append, List.flatMap_map]
  exact .rule _ _ <| .sequence fun _ ↦ (Reads.char _ _).bind <| hstatements.bind <|
    hlayout.bind <| (Reads.char _ _).orFail.bind <| .pure _ _

theorem reads_body :
    Reads (Form.body g.parts) (braced (body.map Expr.spelling) ++ rest) body rest :=
  .orElse_left (reads_block hshape hread rest)

end

/-! ## Brackets -/

/-- Where an expression begins with an opening bracket or a bar, it is no literal. -/
theorem refuses_literals {A : Parts} {c : Char} (hc : c ∈ ['[', '(', '|', '\x7b'])
    (input : List Char) :
    ∀ q ∈ [A.number, A.string, A.boolean, A.nil], Refuses q (c :: input) := by
  have hcases : c = '[' ∨ c = '(' ∨ c = '|' ∨ c = '\x7b' := by simpa using hc
  simp only [List.forall_mem_cons]
  refine ⟨refuses_number _ ?_, refuses_of_opens Alike.string ?_,
    refuses_boolean _ (.keyword_of_head ?_) (.keyword_of_head ?_),
    .rule _ _ (.bind_left (.keyword_of_head ?_)), by simp⟩
  · rintro d ⟨⟩
    rcases hcases with rfl | rfl | rfl | rfl <;> decide
  all_goals rcases hcases with rfl | rfl | rfl | rfl <;> simp [Keyword.word]

/-- The two alternatives among the literals and before the other forms, both told by their first
character. -/
theorem refuses_array_or_name {A : Parts} {c : Char} (hc : c ∈ ['(', '|', '\x7b'])
    (input : List Char) : ∀ q ∈ [array A, A.identifier], Refuses q (c :: input) := by
  have hcases : c = '(' ∨ c = '|' ∨ c = '\x7b' := by simpa using hc
  simp only [List.forall_mem_cons]
  refine ⟨refuses_of_opens Alike.array ?_, .rule _ _ (.map _ (refuses_name ?_)), by simp⟩
  · rcases hcases with rfl | rfl | rfl <;> simp
  · rintro d ⟨⟩
    rcases hcases with rfl | rfl | rfl <;> decide

/-- The items are read with one space in front of each but the first. -/
theorem readsPrimary_array {items : List Expr} (hshape : ∀ e ∈ items, e.WellShaped .expression)
    (hread : ∀ e ∈ items, ReadsExpression g e) : ReadsPrimary g (.array items) := by
  intro rest _
  rw [Expr.spelling, enclosed_append, Expr.spellings_eq_map]
  refine .choice [_, _, _, _] _ (refuses_literals (by decide) _) ?_
  exact .rule _ _ <| .sequence fun _ ↦ (Reads.char _ _).bind <|
    (reads_items hshape hread (by decide) rest).bind <|
    (reads_layout (solid_closing (by decide) rest)).bind <|
    (Reads.char _ _).orFail.bind <| .pure _ _

/-- The forms that are tried after arrays and names. -/
theorem reads_primary_later {c : Char} (hc : c ∈ ['(', '|', '\x7b']) {input rest : List Char}
    {e : Expr} (before : List (Parser Expr)) {after : List (Parser Expr)} {p : Parser Expr}
    (hforms : [cond g.parts, closure g.parts, binaryCall g.parts, methodChain g.parts,
      blockExpression g.parts, call g.parts] = before ++ p :: after)
    (hbefore : ∀ q ∈ before, Refuses q (c :: input)) (hp : Reads p (c :: input) e rest) :
    Reads (primary g.parts) (c :: input) e rest := by
  have hall : primaryForms g.parts =
      ([g.parts.number, g.parts.string, g.parts.boolean, g.parts.nil] ++
        [array g.parts, g.parts.identifier] ++ before) ++ p :: after := by
    rw [List.append_assoc, ← hforms]
    rfl
  rw [primary, hall]
  refine .choice _ _ ?_ hp
  refine List.forall_mem_append.2 ⟨List.forall_mem_append.2 ⟨?_, ?_⟩, hbefore⟩
  · exact refuses_literals (List.mem_cons_of_mem _ hc) input
  · exact refuses_array_or_name hc input

theorem readsPrimary_block {body : List Expr} (hshape : ∀ e ∈ body, e.WellShaped .statement)
    (hread : ∀ e ∈ body, ReadsStatement g e) : ReadsPrimary g (.block body) := by
  intro rest _
  have hparen (input : List Char) := refuses_paren_forms (A := g.parts)
    (by decide : '\x7b' ≠ '(') input
  rw [Expr.spelling, Expr.spellings_eq_map]
  refine reads_primary_later (by decide) [_, _, _, _] rfl ?_
    ((reads_block hshape hread rest).map _)
  simp only [List.forall_mem_cons] at hparen ⊢
  exact ⟨(hparen _).1, refuses_closure (by decide) _, (hparen _).2.1, (hparen _).2.2.1, by simp⟩

/-! ## Closures -/

theorem reads_parameters {parameters : List String} (h : ∀ name ∈ parameters, isName name = true)
    (rest : List Char) :
    Reads (many (do let parameter ← name; layout; return parameter))
      (spaced (names parameters) ++ '|' :: rest) parameters ('|' :: rest) := by
  have hsolid : Solid ('|' :: rest) := solid_cons (by decide) (by decide)
  have hword : EndsWord ('|' :: rest) := by
    rintro c ⟨⟩
    decide
  refine .many_spaced ?_ ?_ ?_ (.inr (.bind_left (refuses_name ?_)))
  · intro word hmem
    exact (reads_name (h word hmem) hword).bind <| (reads_layout hsolid).bind <| .pure _ _
  · intro word hmem next hnext more
    exact (reads_name (h word hmem) endsWord_space).bind <|
      (reads_layout_space (solid_name (h next hnext) more)).bind <| .pure _ _
  · intro word hmem
    obtain ⟨c, cs, htext, -⟩ := isName_cases (h word hmem)
    simp [htext]
  · rintro c ⟨⟩
    decide

/-- The parameters end at the second bar, and the body is a block. -/
theorem readsPrimary_closure {parameters : List String} {body : List Expr}
    (hnames : ∀ name ∈ parameters, isName name = true)
    (hshape : ∀ e ∈ body, e.WellShaped .statement) (hread : ∀ e ∈ body, ReadsStatement g e) :
    ReadsPrimary g (.closure parameters body) := by
  intro rest _
  have htext : (Expr.closure parameters body).spelling ++ rest =
      '|' :: (spaced (names parameters) ++ '|' :: ' ' ::
        (braced (body.map Expr.spelling) ++ rest)) := by
    rw [Expr.spelling, spaced, List.append_assoc, enclosed_append, Expr.spellings_eq_map]
    simp
  have hsolid : Solid (spaced (names parameters) ++ '|' :: ' ' ::
      (braced (body.map Expr.spelling) ++ rest)) := by
    cases parameters with
    | nil => exact solid_cons (by decide) (by decide)
    | cons word parameters =>
      rw [names, List.map_cons, spaced, List.append_assoc]
      exact solid_name (hnames word (by simp)) _
  rw [htext]
  refine reads_primary_later (by decide) [_] rfl ?_ ?_
  · intro q hq
    rw [List.mem_singleton.1 hq]
    exact refuses_paren_forms (A := g.parts) (by decide) _ _ (by simp)
  · exact .rule _ _ <| .sequence fun _ ↦ (Reads.char _ _).bind <| (reads_layout hsolid).bind <|
      (reads_parameters hnames _).bind <| (Reads.char _ _).orFail.bind <|
      (reads_layout_space (solid_cons (by decide) (by decide))).bind <|
      (reads_body hshape hread rest).orFail.bind <| .pure _ _

/-! ## Operations and calls -/

theorem solid_symbol (op : BinaryOperator) (rest : List Char) :
    Solid (op.symbol.toList ++ rest) := by
  cases hsymbol : op.symbol.toList with
  | nil => exact absurd hsymbol op.symbol_ne_nil
  | cons c cs =>
    have hc := op.isSpace_symbol c (by simp [hsymbol])
    exact solid_cons hc.1 hc.2

/-- No operator is taken for a keyword that opens a form. -/
theorem refuses_keyword_symbol (op : BinaryOperator) {k : Keyword} (hk : op.symbol.toList.head? ≠
    k.word.toList.head?) (rest : List Char) :
    Refuses (keyword k.word) (op.symbol.toList ++ rest) := by
  refine .keyword_of_head ?_
  cases hsymbol : op.symbol.toList with
  | nil => exact absurd hsymbol op.symbol_ne_nil
  | cons c cs =>
    rw [hsymbol] at hk
    exact hk

theorem binary_append (op : BinaryOperator) (left right : Expr) (rest : List Char) :
    (Expr.binary op left right).spelling ++ rest = '(' :: (op.symbol.toList ++ ' ' ::
      (left.spelling ++ ' ' :: (right.spelling ++ ')' :: rest))) := by
  simp [Expr.spelling, enclosed, spaced]

/-- Of the forms in parentheses only a conditional is tried before, and no operator is its keyword.
-/
theorem readsPrimary_binary {op : BinaryOperator} {left right : Expr}
    (hleft : left.WellShaped .expression) (hright : right.WellShaped .expression)
    (hreadLeft : ReadsExpression g left) (hreadRight : ReadsExpression g right) :
    ReadsPrimary g (.binary op left right) := by
  intro rest _
  obtain ⟨middle, hop, hlayout⟩ := reads_binaryOperator op
    (Expr.solid_spelling hleft (' ' :: (right.spelling ++ ')' :: rest)))
  have hcond : op.symbol.toList.head? ≠ Keyword.cond.word.toList.head? := by
    cases op <;> decide
  rw [binary_append]
  refine reads_primary_later (by decide) [_, _] rfl ?_ ?_
  · simp only [List.forall_mem_cons]
    exact ⟨refuses_cond (solid_symbol op _) (refuses_keyword_symbol op hcond _),
      refuses_closure (by decide) _, by simp⟩
  · exact .rule _ _ <| .sequence fun _ ↦ (Reads.char _ _).bind <|
      (reads_layout (solid_symbol op _)).bind <| hop.bind <| hlayout.bind <|
      (hreadLeft _ follows_space).orFail.bind <|
      (reads_layout_space (Expr.solid_spelling hright _)).bind <|
      (hreadRight _ follows_paren).orFail.bind <| (reads_layout solid_paren).bind <|
      (Reads.char _ _).orFail.bind <| .pure _ _

theorem follows_arguments (arguments : List Expr) (rest : List Char) :
    Follows stops (arguments.flatMap (' ' :: ·.spelling) ++ ')' :: rest) :=
  follows_flatMap (fun _ _ _ ↦ follows_space) follows_paren

section

variable {callee : Expr} {arguments : List Expr} (hcallee : callee.WellShaped .member)
  (harguments : ∀ e ∈ arguments, e.WellShaped .expression) (hreadCallee : ReadsMember g callee)
  (hread : ∀ e ∈ arguments, ReadsExpression g e)

theorem application_append (rest : List Char) :
    enclosed '(' ')' (callee.spelling :: arguments.map Expr.spelling) ++ rest =
      '(' :: (callee.spelling ++ (arguments.flatMap (' ' :: ·.spelling) ++ ')' :: rest)) := by
  rw [enclosed_append, spaced, List.flatMap_map, List.append_assoc]

include hcallee harguments hreadCallee hread

theorem reads_application (rest : List Char) :
    Reads (application g.parts)
      ('(' :: (callee.spelling ++ (arguments.flatMap (' ' :: ·.spelling) ++ ')' :: rest)))
      ⟨callee, arguments⟩ rest :=
  .sequence fun _ ↦ (Reads.char _ _).bind <|
    (reads_layout (Expr.solid_spelling hcallee _)).bind <|
    (hreadCallee _ (follows_arguments _ rest)).bind <|
    (reads_arguments harguments hread (by decide) rest).bind <| (reads_layout solid_paren).bind <|
    (Reads.char _ _).orFail.bind <| .pure _ _

/-- A call is tried last, and its callee begins like none of the forms before it. -/
theorem readsPrimary_call : ReadsPrimary g (.call callee arguments) := by
  intro rest _
  have hstart : CallStart (callee.spelling ++
      (arguments.flatMap (' ' :: ·.spelling) ++ ')' :: rest)) :=
    Expr.callStart_member hcallee (follows_arguments _ rest)
  rw [Expr.spelling, Expr.spellings_eq_map, application_append]
  -- Calls come last, so all other forms in parentheses have to refuse first.
  refine reads_primary_later (by decide) [_, _, _, _, _] rfl ?_ ?_
  · simp only [List.forall_mem_cons]
    exact ⟨refuses_cond hstart.solid (hstart.refuses_keyword .cond (by decide)),
      refuses_closure (by decide) _, refuses_binaryCall hstart.solid hstart.refuses_operator,
      .rule _ _ (refuses_parenthesized hstart.solid hstart.refuses_arrow),
      refuses_blockExpression (by decide) _, by simp⟩
  · exact .rule _ _ <|
      (reads_application hcallee harguments hreadCallee hread rest).bind <| .pure _ _

end

/-! ## Chains -/

theorem reads_arrow (rest : List Char) : Reads (literal "~>") ('~' :: '>' :: rest) () rest :=
  .literal (by decide)

/-- One link of a chain, with its arrow and always with parentheses. -/
theorem reads_chainCall {c : ChainCall Expr} (htarget : c.target.WellShaped .member)
    (harguments : ∀ e ∈ c.arguments, e.WellShaped .expression)
    (hreadTarget : ReadsMember g c.target) (hread : ∀ e ∈ c.arguments, ReadsExpression g e)
    (start : Cursor) (rest : List Char) :
    Reads (do layout; literal "~>"; layout; expect start .chainCall (chainCall g.parts))
      (c.spelling ++ rest) c rest := by
  have htext : c.spelling ++ rest = ' ' :: '~' :: '>' :: ' ' :: '(' :: (c.target.spelling ++
      (c.arguments.flatMap (' ' :: ·.spelling) ++ ')' :: rest)) := by
    rw [ChainCall.spelling, List.cons_append, List.cons_append, List.cons_append, List.cons_append,
      application_append]
  rw [htext]
  exact (reads_layout_space (solid_cons (by decide) (by decide))).bind <|
    (reads_arrow _).bind <| (reads_layout_space (solid_cons (by decide) (by decide))).bind <|
    .orFail <| .orElse_left <| reads_application htarget harguments hreadTarget hread rest

theorem chain_append (receiver : Expr) (calls : List (ChainCall Expr)) (rest : List Char) :
    (Expr.chain receiver calls).spelling ++ rest = '(' :: '~' :: '>' :: ' ' ::
      (receiver.spelling ++ (calls.flatMap ChainCall.spelling ++ ')' :: rest)) := by
  rw [Expr.spelling, enclosed_append, spaced, List.flatMap_cons, Expr.flatMap_callSpellings]
  simp

/-- The first arrow decides the form, and the links end at the closing parenthesis. -/
theorem readsPrimary_chain {receiver : Expr} {calls : List (ChainCall Expr)}
    (hreceiver : receiver.WellShaped .expression)
    (htargets : ∀ c ∈ calls, c.target.WellShaped .member)
    (harguments : ∀ c ∈ calls, ∀ e ∈ c.arguments, e.WellShaped .expression)
    (hreadReceiver : ReadsExpression g receiver)
    (hreadTargets : ∀ c ∈ calls, ReadsMember g c.target)
    (hread : ∀ c ∈ calls, ∀ e ∈ c.arguments, ReadsExpression g e) :
    ReadsPrimary g (.chain receiver calls) := by
  intro rest _
  have harrow (input : List Char) : Solid ('~' :: input) := solid_cons (by decide) (by decide)
  have hfollow : Follows stops (calls.flatMap ChainCall.spelling ++ ')' :: rest) :=
    follows_flatMap (fun _ _ _ ↦ follows_space) follows_paren
  have hcalls (start : Cursor) :
      Reads (many (do layout; literal "~>"; layout; expect start .chainCall (chainCall g.parts)))
        (calls.flatMap ChainCall.spelling ++ ')' :: rest) calls (')' :: rest) := by
    refine .many_flatMap (F := fun _ ↦ True) ?_ (fun _ _ ↦ List.cons_ne_nil _ _)
      (fun _ _ _ ↦ trivial) trivial (.inr ?_)
    · intro c hc more _
      exact reads_chainCall (htargets c hc) (harguments c hc) (hreadTargets c hc) (hread c hc) start
        more
    · exact .bind_right (reads_layout solid_paren) (.bind_left (.literal (by simp)))
  rw [chain_append]
  refine reads_primary_later (by decide) [_, _, _] rfl ?_ ?_
  · simp only [List.forall_mem_cons]
    refine ⟨refuses_cond (harrow _) (.keyword_of_head (by simp [Keyword.word])),
      refuses_closure (by decide) _, refuses_binaryCall (harrow _) ?_, by simp⟩
    refine refuses_binaryOperator fun op ↦ refuses_spelling_of_head ?_
    cases op <;> simp [BinaryOperator.symbol]
  · exact .rule _ _ <| .sequence fun start ↦ (Reads.char _ _).bind <|
      (reads_layout (harrow _)).bind <| (reads_arrow _).bind <|
      (reads_layout_space (Expr.solid_spelling hreceiver _)).bind <|
      (hreadReceiver _ hfollow).orFail.bind <| (hcalls start).bind <|
      (reads_layout solid_paren).bind <| (Reads.char _ _).orFail.bind <| .pure _ _

/-! ## Conditionals -/

theorem reads_branch {b : Branch Expr} (hcondition : b.condition.WellShaped .expression)
    (hbody : ∀ e ∈ b.body, e.WellShaped .statement) (hreadCondition : ReadsExpression g b.condition)
    (hread : ∀ e ∈ b.body, ReadsStatement g e) (rest : List Char) :
    Reads (branch g.parts) (b.spelling ++ rest) b rest := by
  have htext : b.spelling ++ rest = ' ' :: (b.condition.spelling ++ ' ' ::
      (braced (b.body.map Expr.spelling) ++ rest)) := by
    simp [Branch.spelling]
  rw [htext]
  exact .sequence fun _ ↦ (reads_layout_space (Expr.solid_spelling hcondition _)).bind <|
    (hreadCondition _ follows_space).bind <|
    (reads_layout_space (solid_cons (by decide) (by decide))).bind <|
    (reads_body hbody hread rest).orFail.bind <| .pure _ _

/-- The last branch, with the space in front of it. -/
theorem reads_elseBranch {body : List Expr} (hbody : ∀ e ∈ body, e.WellShaped .statement)
    (hread : ∀ e ∈ body, ReadsStatement g e) (rest : List Char) :
    Reads (elseBranch g.parts) (' ' :: (Keyword.otherwise.word.toList ++ ' ' ::
      (braced (body.map Expr.spelling) ++ rest))) body rest :=
  .sequence fun _ ↦ (reads_layout_space (solid_keyword _ _)).bind <|
    (Reads.keyword (by decide) endsWord_space).bind <|
    (reads_layout_space (solid_cons (by decide) (by decide))).bind <|
    (reads_body hbody hread rest).orFail

theorem else_append (body : List Expr) (rest : List Char) :
    (Expr.elseSpellings (some body)).flatMap (' ' :: ·) ++ rest =
      ' ' :: (Keyword.otherwise.word.toList ++ ' ' ::
        (braced (body.map Expr.spelling) ++ rest)) := by
  simp [Expr.elseSpellings, Expr.spellings_eq_map]

/-- If there is no other branch, the closing parenthesis follows, which is not its keyword. -/
theorem reads_otherwise {otherwise : Option (List Expr)}
    (hshape : ∀ body ∈ otherwise, ∀ e ∈ body, e.WellShaped .statement)
    (hread : ∀ body ∈ otherwise, ∀ e ∈ body, ReadsStatement g e) (rest : List Char) :
    Reads (optional (elseBranch g.parts))
      ((Expr.elseSpellings otherwise).flatMap (' ' :: ·) ++ ')' :: rest) otherwise
      (')' :: rest) := by
  cases otherwise with
  | none =>
    rw [Expr.elseSpellings, List.flatMap_nil, List.nil_append]
    exact .optional_none <| .sequence fun _ ↦ .bind_right (reads_layout solid_paren) <|
      .bind_left <| .keyword_of_head (by simp [Keyword.word])
  | some body =>
    rw [else_append]
    exact .optional_some (reads_elseBranch (hshape body rfl) (hread body rfl) _)

/-- Neither the last branch nor the closing parenthesis begins another condition. -/
theorem refuses_branch (otherwise : Option (List Expr)) (rest : List Char) :
    Refuses (branch g.parts)
      ((Expr.elseSpellings otherwise).flatMap (' ' :: ·) ++ ')' :: rest) := by
  have hlast (input : List Char) :
      Refuses g.expression (Keyword.otherwise.word.toList ++ ' ' :: input) := by
    rw [g.expression_eq]
    exact refuses_unary_else endsWord_space
  cases otherwise with
  | none =>
    exact .sequence fun _ ↦ .bind_right (reads_layout solid_paren) <|
      .bind_left <| refuses_expression_closing (by decide) rest
  | some body =>
    rw [else_append]
    exact .sequence fun _ ↦ .bind_right (reads_layout_space (solid_keyword _ _)) <|
      .bind_left <| hlast _

theorem cond_append (branches : List (Branch Expr)) (otherwise : Option (List Expr))
    (rest : List Char) :
    (Expr.cond branches otherwise).spelling ++ rest = '(' :: (Keyword.cond.word.toList ++
      (branches.flatMap Branch.spelling ++
        ((Expr.elseSpellings otherwise).flatMap (' ' :: ·) ++ ')' :: rest))) := by
  rw [Expr.spelling, enclosed_append, spaced, List.flatMap_append, Expr.flatMap_branchSpellings]
  simp

/-- Branches end where no condition follows: at the last keyword or at the closing parenthesis. -/
theorem readsPrimary_cond {branches : List (Branch Expr)} {otherwise : Option (List Expr)}
    (hne : branches ≠ []) (hconditions : ∀ b ∈ branches, b.condition.WellShaped .expression)
    (hbodies : ∀ b ∈ branches, ∀ e ∈ b.body, e.WellShaped .statement)
    (hotherwise : ∀ body ∈ otherwise, ∀ e ∈ body, e.WellShaped .statement)
    (hreadConditions : ∀ b ∈ branches, ReadsExpression g b.condition)
    (hreadBodies : ∀ b ∈ branches, ∀ e ∈ b.body, ReadsStatement g e)
    (hreadOtherwise : ∀ body ∈ otherwise, ∀ e ∈ body, ReadsStatement g e) :
    ReadsPrimary g (.cond branches otherwise) := by
  intro rest _
  let final := (Expr.elseSpellings otherwise).flatMap (' ' :: ·) ++ ')' :: rest
  have hbranches : Reads (many (branch g.parts)) (branches.flatMap Branch.spelling ++ final)
      branches final := by
    refine .many_flatMap (F := fun _ ↦ True) ?_ (fun _ _ ↦ List.cons_ne_nil _ _)
      (fun _ _ _ ↦ trivial) trivial (.inr (refuses_branch otherwise rest))
    intro b hb more _
    exact reads_branch (hconditions b hb) (hbodies b hb) (hreadConditions b hb) (hreadBodies b hb)
      more
  have hlast : Reads (optional (elseBranch g.parts)) final otherwise (')' :: rest) :=
    reads_otherwise hotherwise hreadOtherwise rest
  have hword : EndsWord (branches.flatMap Branch.spelling ++ final) := by
    cases branches with
    | nil => exact absurd rfl hne
    | cons b branches => exact endsWord_space
  rw [cond_append]
  refine reads_primary_later (by decide) [] rfl (by simp) ?_
  exact .rule _ _ <| .sequence fun _ ↦ (Reads.char _ _).bind <|
    (reads_layout (solid_keyword _ _)).bind <| (Reads.keyword (by decide) hword).bind <|
    (Reads.oneOrMore hne hbranches).orFail.bind <| hlast.bind <| (reads_layout solid_paren).bind <|
    (Reads.char _ _).orFail.bind <| .pure _ _

/-! ## Atoms -/

theorem readsPrimary_number (code : Fin Binary64.finiteCodes) :
    ReadsPrimary g (.number (.finite false code)) := by
  intro rest hrest
  rw [Expr.spelling]
  exact .orElse_left (reads_number _ code hrest.ends)

theorem readsPrimary_string {text : String} (h : IsStringBody text.toList) :
    ReadsPrimary g (.string text) := by
  intro rest _
  have htext : (Expr.string text).spelling ++ rest = '"' :: (text.toList ++ '"' :: rest) := by
    simp [Expr.spelling]
  have hquote : ∀ c ∈ ('"' :: (text.toList ++ '"' :: rest)).head?, c.isDigit = false := by
    rintro c ⟨⟩
    decide
  rw [htext]
  exact .orElse_right (refuses_number _ hquote) <| .orElse_left <| reads_string _ h rest

/-- A word is neither a number nor a string. -/
theorem reads_primary_word {c : Char} {cs input rest : List Char} {e : Expr}
    (hinput : input = c :: cs) (hc : Text.isNameStart c = true)
    (h : Reads (choice ((primaryForms g.parts).drop 2)) input e rest) :
    Reads (primary g.parts) input e rest := by
  refine .orElse_right (refuses_number _ ?_) (.orElse_right (refuses_of_opens Alike.string ?_) h)
  · rw [hinput]
    rintro d ⟨⟩
    exact isDigit_of_isNameStart hc
  · rw [hinput]
    rintro ⟨⟩
    exact absurd hc (by decide)

theorem readsPrimary_boolean (value : Bool) : ReadsPrimary g (.boolean value) := by
  intro rest hrest
  have hread : Reads (choice ((primaryForms g.parts).drop 2))
      ((Expr.boolean value).spelling ++ rest) (.boolean value) rest :=
    .orElse_left (reads_boolean _ value hrest.endsWord)
  cases value with
  | true => exact reads_primary_word rfl (by decide) hread
  | false => exact reads_primary_word rfl (by decide) hread

theorem readsPrimary_nil : ReadsPrimary g .nil := by
  intro rest hrest
  have hother (word : String) (hchars : ∀ c ∈ word.toList, Text.isNameChar c = true)
      (hne : Keyword.nil.word.toList ≠ word.toList) :
      Refuses (keyword word) (Keyword.nil.word.toList ++ rest) :=
    refuses_keyword hchars (isNameChar_keyword _) hrest.endsWord hne
  have htrue := hother "true" (isNameChar_of_isName (by decide)) (by decide)
  have hfalse := hother "false" (isNameChar_of_isName (by decide)) (by decide)
  rw [Expr.spelling]
  refine reads_primary_word rfl (by decide) ?_
  exact .orElse_right (refuses_boolean _ htrue hfalse)
    (.orElse_left (reads_nil _ hrest.endsWord))

theorem readsPrimary_identifier {name : String} (hname : isName name = true) (htrue : name ≠ "true")
    (hfalse : name ≠ "false") : ReadsPrimary g (.identifier name) := by
  intro rest hrest
  obtain ⟨c, cs, hword, hc, -, hreserved⟩ := isName_cases hname
  have hother {word : String} (hchars : ∀ c ∈ word.toList, Text.isNameChar c = true)
      (hne : name ≠ word) : Refuses (keyword word) (name.toList ++ rest) :=
    refuses_keyword hchars (isNameChar_of_isName hname) hrest.endsWord
      fun h ↦ hne (String.toList_inj.1 h)
  have hnil : name ≠ Keyword.nil.word := by
    rintro rfl
    exact absurd hreserved (by decide)
  have hhead : name.toList ++ rest = c :: (cs ++ rest) := by rw [hword, List.cons_append]
  rw [Expr.spelling]
  refine reads_primary_word hhead hc ?_
  refine .orElse_right (refuses_boolean _ (hother (isNameChar_of_isName (by decide)) htrue)
    (hother (isNameChar_of_isName (by decide)) hfalse)) ?_
  refine .orElse_right (.rule _ _ (.bind_left (hother (isNameChar_keyword _) hnil))) ?_
  refine .orElse_right (refuses_of_opens Alike.array ?_)
    (.orElse_left (reads_identifier _ hname hrest.endsWord))
  rw [hhead]
  rintro ⟨⟩
  exact absurd hc (by decide)

/-! ## Members, operators and statements -/

/-- The keys are read up to the first character that is no slash. -/
theorem reads_member {target : Expr} {keys : List Expr} (htarget : ReadsPrimary g target)
    (hkeys : ∀ key ∈ keys, ReadsPrimary g key) {rest : List Char} (hrest : Follows stops rest) :
    Reads (member g.parts) (target.spelling ++ (keys.flatMap ('/' :: ·.spelling) ++ rest))
      (keys.foldl .member target) rest := by
  have hslash {input : List Char} : Follows ('/' :: stops) ('/' :: input) := follows_cons (by simp)
  have hmany (start : Cursor) :
      Reads (many (do char '/'; expect start .memberKey (primary g.parts)))
        (keys.flatMap ('/' :: ·.spelling) ++ rest) keys rest := by
    refine .many_flatMap (F := Follows ('/' :: stops)) ?_ (by simp) (fun _ _ _ ↦ hslash) hrest.slash
      (.inr (.bind_left (.char hrest.head_ne_slash)))
    intro key hkey more hmore
    exact (Reads.char _ _).bind (hkeys key hkey more hmore).orFail
  have hfollow : Follows ('/' :: stops) (keys.flatMap ('/' :: ·.spelling) ++ rest) := by
    cases keys with
    | nil => exact hrest.slash
    | cons key keys => exact hslash
  exact .rule _ _ <| .sequence fun start ↦ (htarget _ hfollow).bind <| (hmany start).bind <|
    .pure _ _

theorem readsExpression_unary {op : UnaryOperator} {operand : Expr}
    (h : ReadsExpression g operand) : ReadsExpression g (.unary op operand) := by
  intro rest hrest
  rw [g.expression_eq, Expr.spelling, List.cons_append]
  exact .rule _ _ <| .orElse_left <| (reads_unaryOperator op _).bind <| (h rest hrest).bind <|
    .pure _ _

theorem ReadsMember.expression {e : Expr} (h : ReadsMember g e) (hshape : e.WellShaped .member) :
    ReadsExpression g e := by
  intro rest hrest
  have hstart := Expr.callStart_member hshape hrest
  have hmember := h rest hrest
  rw [g.member_eq] at hmember
  rw [g.expression_eq]
  exact .rule _ _ <| .orElse_right (.bind_left hstart.refuses_unary) hmember

end Form

end Lispette
