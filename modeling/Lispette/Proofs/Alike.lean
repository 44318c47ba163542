import Lispette.Grammar.Program
import Lispette.Proofs.Progress

/-!
# Forms over different parts

A form is built in the same way whatever parsers it uses for its parts. `Alike` relates two parsers
that are built alike over two choices of parts, and each form is shown to be alike to itself. What
holds for all ways of building parsers then carries over from the parts to the forms by one
induction.

The relation also keeps count of guards. A guarded parser uses its parts only after it has passed a
character of its own, so it uses them on strictly less source.
-/

namespace Lispette

open Lispette.Parser Grammar

/-- The second parser is built over `B` as the first one is over `A`. The places where the sequences
around the two begin may differ. -/
inductive Alike (A B : Parts) : (guarded : Bool) → (starts : Option (Cursor × Cursor)) →
    {α : Type} → Parser α → Parser α → Prop where
  | statement {starts : Option (Cursor × Cursor)} :
    Alike A B false starts A.statement B.statement
  | expression {starts : Option (Cursor × Cursor)} :
    Alike A B false starts A.expression B.expression
  | member {starts : Option (Cursor × Cursor)} : Alike A B false starts A.member B.member
  | pure {guarded : Bool} {starts : Option (Cursor × Cursor)} {α : Type} (a : α) :
    Alike A B guarded starts (pure a : Parser α) (pure a)
  | noMatch {guarded : Bool} {starts : Option (Cursor × Cursor)} {α : Type} :
    Alike A B guarded starts (noMatch : Parser α) noMatch
  | satisfy {guarded : Bool} {starts : Option (Cursor × Cursor)} (ok : Char → Bool) :
    Alike A B guarded starts (satisfy ok) (satisfy ok)
  | taking {guarded : Bool} {starts : Option (Cursor × Cursor)} (width : List Char → Nat) :
    Alike A B guarded starts (taking width) (taking width)
  | bind {guarded : Bool} {starts : Option (Cursor × Cursor)} {α β : Type} {p q : Parser α}
    {f g : α → Parser β} : Alike A B guarded starts p q →
    (∀ a, Alike A B guarded starts (f a) (g a)) → Alike A B guarded starts (p >>= f) (q >>= g)
  | orElse {guarded : Bool} {starts : Option (Cursor × Cursor)} {α : Type} {p q p' q' : Parser α} :
    Alike A B guarded starts p q → Alike A B guarded starts p' q' →
    Alike A B guarded starts (p <|> p') (q <|> q')
  | many {guarded : Bool} {starts : Option (Cursor × Cursor)} {α : Type} {p q : Parser α} :
    Alike A B guarded starts p q → Alike A B guarded starts (many p) (many q)
  | notFollowedBy {guarded : Bool} {starts : Option (Cursor × Cursor)} {α : Type}
    {p q : Parser α} : Alike A B guarded starts p q →
    Alike A B guarded starts (notFollowedBy p) (notFollowedBy q)
  | rule {guarded : Bool} {starts : Option (Cursor × Cursor)} {α : Type} {p q : Parser α}
    (r : Rule) : Alike A B guarded starts p q →
    Alike A B guarded starts (A.rule r p) (B.rule r q)
  | expect {guarded : Bool} {c d : Cursor} {α : Type} {p q : Parser α} (missing : Fault) :
    Alike A B guarded (some (c, d)) p q →
    Alike A B guarded (some (c, d)) (expect c missing p) (expect d missing q)
  | sequence {guarded : Bool} {starts : Option (Cursor × Cursor)} {α : Type}
    {f g : Cursor → Parser α} : (∀ c d, Alike A B guarded (some (c, d)) (f c) (g d)) →
    Alike A B guarded starts (here >>= f) (here >>= g)
  /-- Where it has passed something of its own, a guarded parser may use its parts. -/
  | guard {starts : Option (Cursor × Cursor)} {α β : Type} {p q : Parser α} {f g : α → Parser β} :
    Consumes p → Alike A B true starts p q → (∀ a, Alike A B false starts (f a) (g a)) →
    Alike A B true starts (p >>= f) (q >>= g)
  | relax {starts : Option (Cursor × Cursor)} {α : Type} {p q : Parser α} :
    Alike A B true starts p q → Alike A B false starts p q

/-- Each alternative is a single character, so a match passes something. -/
theorem consumes_unaryOperator : Consumes unaryOperator := by
  refine .choice fun p hp ↦ ?_
  obtain ⟨op, -, rfl⟩ := List.mem_map.1 hp
  exact (consumes_char _).map fun _ ↦ op

namespace Alike

variable {A B : Parts} {guarded : Bool} {starts : Option (Cursor × Cursor)} {α β : Type}

/-- Changing the value of a match is a sequence whose second step uses nothing of the source. -/
theorem map {p q : Parser α} (f : α → β) (h : Alike A B guarded starts p q) :
    Alike A B guarded starts (f <$> p) (f <$> q) :=
  h.bind fun a ↦ .pure (f a)

theorem filterMap {p q : Parser α} (f : α → Option β) (h : Alike A B guarded starts p q) :
    Alike A B guarded starts (filterMap f p) (filterMap f q) := by
  refine h.bind fun a ↦ ?_
  cases f a with
  | none => exact .noMatch
  | some b => exact .pure b

theorem optional {p q : Parser α} (h : Alike A B guarded starts p q) :
    Alike A B guarded starts (optional p) (optional q) :=
  (h.map some).orElse (.pure none)

theorem oneOrMore {p q : Parser α} (h : Alike A B guarded starts p q) :
    Alike A B guarded starts (oneOrMore p) (oneOrMore q) :=
  h.many.filterMap _

/-- Alternatives that are alike one by one are alike as an ordered choice, by induction on the list
of them. -/
theorem choice_map {ι : Type} (items : List ι) {f g : ι → Parser α}
    (h : ∀ i, Alike A B guarded starts (f i) (g i)) :
    Alike A B guarded starts (choice (items.map f)) (choice (items.map g)) := by
  induction items with
  | nil => exact .noMatch
  | cons i items ih => exact (h i).orElse ih

theorem char (c : Char) : Alike A B guarded starts (char c) (char c) := (satisfy _).map _

theorem lexeme (width : List Char → Nat) :
    Alike A B guarded starts (lexeme width) (lexeme width) :=
  (taking width).filterMap _

theorem literal (text : String) : Alike A B guarded starts (literal text) (literal text) :=
  (lexeme _).map _

/-- No parts are used in layout, so it may stand in front of a guard as well as behind it. -/
theorem layout : Alike A B guarded starts layout layout := (taking _).map _

theorem keyword (word : String) : Alike A B guarded starts (keyword word) (keyword word) :=
  (literal word).bind fun _ ↦ (satisfy _).notFollowedBy

end Alike

/-- A form that begins with a character of its own, over two choices of parts. -/
inductive Opens (A B : Parts) (opening : Char) : (starts : Option (Cursor × Cursor)) → {α : Type} →
    Parser α → Parser α → Prop where
  | sequence {starts : Option (Cursor × Cursor)} {α : Type} {f g : Cursor → Unit → Parser α} :
    (∀ c d u, Alike A B false (some (c, d)) (f c u) (g d u)) →
    Opens A B opening starts (here >>= fun c ↦ char opening >>= f c)
      (here >>= fun c ↦ char opening >>= g c)
  | rule {starts : Option (Cursor × Cursor)} {α : Type} {p q : Parser α} (r : Rule) :
    Opens A B opening starts p q → Opens A B opening starts (A.rule r p) (B.rule r q)
  | bind {starts : Option (Cursor × Cursor)} {α β : Type} {p q : Parser α} {f g : α → Parser β} :
    Opens A B opening starts p q → (∀ a, Alike A B true starts (f a) (g a)) →
    Opens A B opening starts (p >>= f) (q >>= g)

namespace Opens

variable {A B : Parts} {opening : Char} {starts : Option (Cursor × Cursor)} {α : Type}
  {p q : Parser α}

/-- The character that opens the form is the guard for everything behind it. -/
theorem alike (h : Opens A B opening starts p q) : Alike A B true starts p q := by
  induction h with
  | sequence h => exact .sequence fun c d ↦ .guard (consumes_char _) (.char _) (h c d)
  | rule r _ ih => exact .rule r ih
  | bind _ hf ih => exact .bind ih hf

/-- Where another character stands, the form is not tried any further. This is what tells the forms
apart by one character of lookahead. -/
theorem rejects (h : Opens A B opening starts p q) {s : Cursor} (hpeek : s.peek? ≠ some opening) :
    p.Rejects s := by
  induction h with
  | sequence h =>
    exact rejects_sequence.2 (rejects_bind.2 (.inl (rejects_char.2 hpeek)))
  | rule r _ ih => exact rejects_rule.2 ih
  | bind _ _ ih => exact rejects_bind.2 (.inl ih)

end Opens

namespace Alike

variable {A B : Parts} {guarded : Bool} {starts : Option (Cursor × Cursor)}

/-! ## Atoms -/

theorem name : Alike A B guarded starts Grammar.name Grammar.name := (lexeme _).filterMap _

theorem identifier : Alike A B guarded starts A.identifier B.identifier := .rule _ (name.map _)

theorem number : Alike A B guarded starts A.number B.number := .rule _ ((lexeme _).filterMap _)

/-- The quote opens the form; a missing second quote is an error that reaches back to the first. -/
theorem string : Opens A B '"' starts A.string B.string :=
  .rule _ <| .sequence fun _ _ _ ↦ (taking _).bind fun _ ↦ ((char _).expect _).bind fun _ ↦
    .pure _

theorem boolean : Alike A B guarded starts A.boolean B.boolean :=
  .rule _ <| ((keyword _).bind fun _ ↦ .pure _).orElse ((keyword _).bind fun _ ↦ .pure _)

theorem nil : Alike A B guarded starts A.nil B.nil :=
  .rule _ <| (keyword _).bind fun _ ↦ .pure _

/-- Symbols are fixed texts and words are keywords; neither uses any parts. -/
theorem spelling (op : BinaryOperator) :
    Alike A B guarded starts (Grammar.spelling op) (Grammar.spelling op) := by
  unfold Grammar.spelling
  split
  · exact keyword _
  · exact (literal _).bind fun _ ↦ (satisfy _).map _

theorem binaryOperator :
    Alike A B guarded starts Grammar.binaryOperator Grammar.binaryOperator :=
  choice_map _ fun op ↦ (spelling op).bind fun _ ↦ .pure op

theorem unaryOperator :
    Alike A B guarded starts Grammar.unaryOperator Grammar.unaryOperator :=
  choice_map _ fun op ↦ (char _).bind fun _ ↦ .pure op

/-! ## Lists and bodies -/

/-- Arguments are not guarded by themselves: layout may be empty, and an expression may follow at
once. -/
theorem arguments : Alike A B false starts (Form.arguments A) (Form.arguments B) :=
  .many <| layout.bind fun _ ↦ .expression

theorem array : Opens A B '[' starts (Form.array A) (Form.array B) :=
  .rule _ <| .sequence fun _ _ _ ↦ arguments.bind fun _ ↦ layout.bind fun _ ↦
    ((char _).expect _).bind fun _ ↦ .pure _

/-- The statements of a block are read behind its brace, which guards them. -/
theorem block : Opens A B '\x7b' starts (Form.block A) (Form.block B) :=
  .rule _ <| .sequence fun _ _ _ ↦ (many statement).bind fun _ ↦
    layout.bind fun _ ↦ ((char _).expect _).bind fun _ ↦ .pure _

theorem blockExpression :
    Opens A B '\x7b' starts (Form.blockExpression A) (Form.blockExpression B) :=
  block.bind fun _ ↦ .pure _

/-- A body is a block or a single expression. Only the first is guarded, so the whole is not. -/
theorem body : Alike A B false starts (Form.body A) (Form.body B) :=
  (relax block.alike).orElse (expression.map _)

/-! ## Conditionals and closures -/

/-- A branch has no character of its own in front: it begins with its condition. -/
theorem branch : Alike A B false starts (Form.branch A) (Form.branch B) :=
  .sequence fun _ _ ↦ layout.bind fun _ ↦ expression.bind fun _ ↦ layout.bind fun _ ↦
    (body.expect _).bind fun _ ↦ .pure _

theorem elseBranch : Alike A B false starts (Form.elseBranch A) (Form.elseBranch B) :=
  .sequence fun _ _ ↦ layout.bind fun _ ↦ (keyword _).bind fun _ ↦ layout.bind fun _ ↦
    body.expect _

/-- The branches are parts of a form whose parenthesis has already been passed. -/
theorem cond : Opens A B '(' starts (Form.cond A) (Form.cond B) :=
  .rule _ <| .sequence fun _ _ _ ↦ layout.bind fun _ ↦ (keyword _).bind fun _ ↦
    (branch.oneOrMore.expect _).bind fun _ ↦ elseBranch.optional.bind fun _ ↦
    layout.bind fun _ ↦ ((char _).expect _).bind fun _ ↦ .pure _

theorem closure : Opens A B '|' starts (Form.closure A) (Form.closure B) :=
  .rule _ <| .sequence fun _ _ _ ↦ layout.bind fun _ ↦
    (many (name.bind fun _ ↦ layout.bind fun _ ↦ .pure _)).bind fun _ ↦
    ((char _).expect _).bind fun _ ↦ layout.bind fun _ ↦ (body.expect _).bind fun _ ↦ .pure _

/-! ## Operations and calls -/

theorem binaryCall : Opens A B '(' starts (Form.binaryCall A) (Form.binaryCall B) :=
  .rule _ <| .sequence fun _ _ _ ↦ layout.bind fun _ ↦
    binaryOperator.bind fun _ ↦ layout.bind fun _ ↦ (expression.expect _).bind fun _ ↦
    layout.bind fun _ ↦ (expression.expect _).bind fun _ ↦ layout.bind fun _ ↦
    ((char _).expect _).bind fun _ ↦ .pure _

/-- A call without the rule that names it, as it also stands in a chain. -/
theorem application : Opens A B '(' starts (Form.application A) (Form.application B) :=
  .sequence fun _ _ _ ↦ layout.bind fun _ ↦ member.bind fun _ ↦
    arguments.bind fun _ ↦ layout.bind fun _ ↦ ((char _).expect _).bind fun _ ↦ .pure _

theorem call : Opens A B '(' starts (Form.call A) (Form.call B) :=
  .rule _ <| application.bind fun _ ↦ .pure _

/-- A link of a chain is a call in parentheses, or else a single value without arguments. -/
theorem chainCall : Alike A B false starts (Form.chainCall A) (Form.chainCall B) :=
  (relax application.alike).orElse (member.bind fun _ ↦ .pure _)

theorem methodChain : Opens A B '(' starts (Form.methodChain A) (Form.methodChain B) :=
  .rule _ <| .sequence fun _ _ _ ↦ layout.bind fun _ ↦ (literal _).bind fun _ ↦
    layout.bind fun _ ↦ (expression.expect _).bind fun _ ↦
    (many <| layout.bind fun _ ↦ (literal _).bind fun _ ↦ layout.bind fun _ ↦
      chainCall.expect _).bind fun _ ↦
    layout.bind fun _ ↦ ((char _).expect _).bind fun _ ↦ .pure _

/-! ## Expressions and statements -/

/-- Every alternative is guarded: atoms use no parts, and all other forms open with a character of
their own. -/
theorem primary : Alike A B true starts (Form.primary A) (Form.primary B) :=
  number.orElse <| string.alike.orElse <| boolean.orElse <| nil.orElse <| array.alike.orElse <|
    identifier.orElse <| cond.alike.orElse <| closure.alike.orElse <| binaryCall.alike.orElse <|
    methodChain.alike.orElse <| blockExpression.alike.orElse <| call.alike.orElse .noMatch

/-- The suffixes are again primaries, so they use their parts behind guards too. -/
theorem memberForm : Alike A B true starts (Form.member A) (Form.member B) :=
  .rule _ <| .sequence fun _ _ ↦ primary.bind fun _ ↦
    (many <| (char _).bind fun _ ↦ primary.expect _).bind fun _ ↦ .pure _

/-- Here the operator is the guard, as it consumes its character. -/
theorem applied : Alike A B true starts (Form.applied A) (Form.applied B) :=
  .guard consumes_unaryOperator unaryOperator fun _ ↦ expression.bind fun _ ↦ .pure _

theorem unary : Alike A B true starts (Form.unary A) (Form.unary B) :=
  .rule _ <| applied.orElse memberForm

theorem signature : Alike A B guarded starts Form.signature Form.signature :=
  .sequence fun _ _ ↦ (char _).bind fun _ ↦ layout.bind fun _ ↦ name.bind fun _ ↦
    (many (layout.bind fun _ ↦ name)).bind fun _ ↦ layout.bind fun _ ↦
    ((char _).expect _).bind fun _ ↦ .pure _

theorem head : Alike A B guarded starts Form.head Form.head := signature.orElse (name.map _)

/-- What is defined depends on the head, and the errors in it reach back to where the definition
began. -/
theorem defined {c d : Cursor} (head : Form.Head) :
    Alike A B false (some (c, d)) (Form.defined A c head) (Form.defined B d head) := by
  cases head with
  | function name parameters => exact (statement.oneOrMore.expect _).bind fun _ ↦ .pure _
  | constant name => exact (expression.expect _).bind fun _ ↦ .pure _

theorem definition : Opens A B '(' starts (Form.definition A) (Form.definition B) :=
  .rule _ <| .sequence fun _ _ _ ↦ layout.bind fun _ ↦ (keyword _).bind fun _ ↦
    layout.bind fun _ ↦ (head.expect _).bind fun found ↦ layout.bind fun _ ↦
    (defined found).bind fun _ ↦ layout.bind fun _ ↦ ((char _).expect _).bind fun _ ↦ .pure _

theorem print : Opens A B '(' starts (Form.print A) (Form.print B) :=
  .rule _ <| .sequence fun _ _ _ ↦ layout.bind fun _ ↦ (keyword _).bind fun _ ↦
    layout.bind fun _ ↦ (expression.expect _).bind fun _ ↦ layout.bind fun _ ↦
    ((char _).expect _).bind fun _ ↦ .pure _

/-- A statement is guarded as a whole, which closes the recursion through the parts. -/
theorem statementForm : Alike A B true starts (Form.statement A) (Form.statement B) :=
  .rule _ <| layout.bind fun _ ↦ (definition.alike.orElse <| print.alike.orElse unary).bind fun _ ↦
    layout.bind fun _ ↦ .pure _

end Alike

end Lispette
