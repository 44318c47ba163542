import Lispette.Proofs.Lexeme
import Lispette.Proofs.TopLevel

/-!
# Everything that is read is well-shaped

What a parser yields follows the way it is built: a sequence may use what its earlier steps have
yielded, and a repetition yields only what its item yields. Each form then yields well-shaped
expressions if its parts do. The one fact that needs more is that `true` and `false` are never read
as names: the form for truth values is tried before the one for names.
-/

namespace Lispette

namespace Parser

variable {α β : Type}

/-- Every match has a value of the given kind. -/
def Yields (p : Parser α) (P : α → Prop) : Prop := ∀ s a t, p.Matches s a t → P a

namespace Yields

variable {p q : Parser α} {P : α → Prop} {Q : β → Prop}

theorem pure {a : α} (h : P a) : Yields (Pure.pure a : Parser α) P := by
  intro s b t hmatch
  obtain ⟨rfl, -⟩ := matches_pure.1 hmatch
  exact h

/-- What the first parser yields is known when the second one is looked at. -/
theorem bind {f : α → Parser β} (hp : Yields p P) (hf : ∀ a, P a → Yields (f a) Q) :
    Yields (p >>= f) Q := by
  intro s b u hmatch
  obtain ⟨a, t, hfirst, hnext⟩ := matches_bind.1 hmatch
  exact hf a (hp s a t hfirst) t b u hnext

/-- A step whose value does not matter. -/
theorem next {f : α → Parser β} (hf : ∀ a, Yields (f a) Q) : Yields (p >>= f) Q := by
  intro s b u hmatch
  obtain ⟨a, t, -, hnext⟩ := matches_bind.1 hmatch
  exact hf a t b u hnext

theorem map {f : α → β} (hp : Yields p P) (hf : ∀ a, P a → Q (f a)) : Yields (f <$> p) Q := by
  intro s b t hmatch
  obtain ⟨a, ha, rfl⟩ := matches_map.1 hmatch
  exact hf a (hp s a t ha)

/-- It does not matter which of the alternatives matched. -/
theorem orElse (hp : Yields p P) (hq : Yields q P) : Yields (p <|> q) P := by
  intro s a t hmatch
  rcases matches_orElse.1 hmatch with h | ⟨-, h⟩
  · exact hp s a t h
  · exact hq s a t h

/-- Every item of a repetition is what the parser yields, by induction on the chain of matches. -/
theorem many (hp : Yields p P) : Yields (many p) fun items ↦ ∀ a ∈ items, P a := by
  intro s items t hmatch
  have hchain := chain_of_matches_many hmatch
  clear hmatch
  induction hchain with
  | nil => simp
  | cons _ ha _ ih => exact List.forall_mem_cons.2 ⟨hp _ _ _ ha, ih⟩

theorem oneOrMore (hp : Yields p P) :
    Yields (oneOrMore p) fun items ↦ items ≠ [] ∧ ∀ a ∈ items, P a := by
  intro s items t hmatch
  obtain ⟨found, hfound, hkept⟩ := matches_filterMap.1 hmatch
  cases found with
  | nil => simp at hkept
  | cons a more =>
    obtain rfl : a :: more = items := by simpa using hkept
    exact ⟨by simp, hp.many s _ t hfound⟩

theorem optional (hp : Yields p P) : Yields (optional p) fun found ↦ ∀ a ∈ found, P a :=
  (hp.map fun a ha ↦ by simpa using ha).orElse (.pure (by simp))

/-- Where the parser recovers instead, nothing is yielded. -/
theorem orFail {start : Cursor} {message : String} (hp : Yields p P) :
    Yields (p.orFail start message) P :=
  fun s a t hmatch ↦ hp s a t (matches_orFail.1 hmatch)

theorem rule (g : Grammar) (r : Rule) (hp : Yields p P) : Yields (g.rule r p) P := by
  unfold Grammar.rule
  split
  · exact hp
  · exact hp

end Yields

end Parser

open Lispette.Parser Grammar

/-! ## Atoms -/

theorem yields_name : Yields Grammar.name fun word ↦ isName word = true :=
  fun _ _ _ h ↦ (isName_of_matches_name h).1

/-- A numeral has no sign, and one that is too large for a finite value is turned down. -/
theorem yields_number (g : Grammar) : Yields g.number (Expr.WellShaped .primary) := by
  refine .rule g _ ?_
  intro s e t h
  obtain ⟨text, -, hkept⟩ := matches_filterMap.1 h
  dsimp only at hkept
  rw [Binary64.ofDecimal, Binary64.ofCode] at hkept
  split at hkept
  · obtain rfl : _ = e := Option.some.inj hkept
    exact .number _
  · simp [Binary64.isFinite] at hkept

/-- The inside of a string literal ends where a string body must end, so what is taken is one. -/
theorem yields_string (g : Grammar) : Yields g.string (Expr.WellShaped .primary) := by
  have hbody : Yields (taking Text.stringWidth) IsStringBody := by
    intro s text t h
    obtain ⟨rfl, -⟩ := matches_taking.1 h
    exact Text.isStringBody_take_stringWidth s.rest
  refine .rule g _ <| .next fun _ ↦ .next fun _ ↦ hbody.bind fun text htext ↦ .next fun _ ↦ ?_
  exact .pure (.string (by rwa [String.toList_ofList]))

theorem yields_boolean (g : Grammar) : Yields g.boolean (Expr.WellShaped .primary) :=
  .rule g _ <| .orElse (.next fun _ ↦ .pure (.boolean _)) (.next fun _ ↦ .pure (.boolean _))

theorem yields_nil (g : Grammar) : Yields g.nil (Expr.WellShaped .primary) :=
  .rule g _ <| .next fun _ ↦ .pure .nil

/-- Where no truth value can be read, no name spelled like one is read either. -/
theorem wellShaped_of_identifier {g : Grammar} {s t : Cursor} {e : Expr} (h : g.boolean.Rejects s)
    (he : g.identifier.Matches s e t) : e.WellShaped .primary := by
  obtain ⟨word, hword, rfl⟩ := matches_map.1 (matches_rule.1 he)
  obtain ⟨hname, hkeyword⟩ := isName_of_matches_name hword
  obtain ⟨htrue, hfalse⟩ := rejects_orElse.1 (rejects_rule.1 h)
  have hne (value : Bool) (spelled : String)
      (hrejects : (do keyword spelled; return Expr.boolean value : Parser Expr).Rejects s) :
      word ≠ spelled := by
    rintro rfl
    exact hrejects.not_matches (matches_bind.2 ⟨(), t, hkeyword, matches_pure.2 ⟨rfl, rfl⟩⟩)
  exact .identifier hname (hne true "true" htrue) (hne false "false" hfalse)

/-! ## Forms -/

/-- The parts yield what may stand in their places. -/
structure Parts.WellShaped (A : Parts) : Prop where
  statement : Yields A.statement (Expr.WellShaped .statement)
  expression : Yields A.expression (Expr.WellShaped .expression)
  member : Yields A.member (Expr.WellShaped .member)

namespace Form

variable {A : Parts} (hA : A.WellShaped)

include hA

theorem yields_arguments :
    Yields (arguments A) fun items ↦ ∀ e ∈ items, e.WellShaped .expression :=
  .many <| .next fun _ ↦ hA.expression

theorem yields_array : Yields (array A) (Expr.WellShaped .primary) :=
  .rule _ _ <| .next fun _ ↦ .next fun _ ↦ (yields_arguments hA).bind fun _ hitems ↦
    .next fun _ ↦ .next fun _ ↦ .pure (.array hitems)

theorem yields_block : Yields (block A) fun body ↦ ∀ e ∈ body, e.WellShaped .statement :=
  .rule _ _ <| .next fun _ ↦ .next fun _ ↦ hA.statement.many.bind fun _ hbody ↦
    .next fun _ ↦ .next fun _ ↦ .pure hbody

theorem yields_blockExpression : Yields (blockExpression A) (Expr.WellShaped .primary) :=
  (yields_block hA).map fun _ hbody ↦ .block hbody

/-- A block gives its statements; a single expression is itself a statement. -/
theorem yields_body : Yields (body A) fun body ↦ ∀ e ∈ body, e.WellShaped .statement := by
  refine (yields_block hA).orElse (hA.expression.map fun e he ↦ ?_)
  simpa [List.singleton] using Expr.WellShaped.ofExpression he

theorem yields_branch : Yields (branch A) fun b ↦
    b.condition.WellShaped .expression ∧ ∀ e ∈ b.body, e.WellShaped .statement :=
  .next fun _ ↦ .next fun _ ↦ hA.expression.bind fun _ hcondition ↦ .next fun _ ↦
    (yields_body hA).orFail.bind fun _ hbody ↦ .pure ⟨hcondition, hbody⟩

theorem yields_elseBranch :
    Yields (elseBranch A) fun body ↦ ∀ e ∈ body, e.WellShaped .statement :=
  .next fun _ ↦ .next fun _ ↦ .next fun _ ↦ .next fun _ ↦ (yields_body hA).orFail

/-- There is at least one branch, since the form is committed to a first one. -/
theorem yields_cond : Yields (cond A) (Expr.WellShaped .primary) := by
  refine .rule _ _ <| .next fun _ ↦ .next fun _ ↦ .next fun _ ↦ .next fun _ ↦ ?_
  refine (yields_branch hA).oneOrMore.orFail.bind fun branches hbranches ↦ ?_
  refine (yields_elseBranch hA).optional.bind fun otherwise hotherwise ↦ ?_
  refine .next fun _ ↦ .next fun _ ↦ .pure ?_
  exact .cond hbranches.1 (fun b hb ↦ (hbranches.2 b hb).1) (fun b hb ↦ (hbranches.2 b hb).2)
    hotherwise

theorem yields_closure : Yields (closure A) (Expr.WellShaped .primary) := by
  have hparameter : Yields (do let parameter ← name; layout; return parameter : Parser String)
      fun word ↦ isName word = true :=
    yields_name.bind fun _ hname ↦ .next fun _ ↦ .pure hname
  refine .rule _ _ <| .next fun _ ↦ .next fun _ ↦ .next fun _ ↦ ?_
  refine hparameter.many.bind fun parameters hparameters ↦ .next fun _ ↦ .next fun _ ↦ ?_
  exact (yields_body hA).orFail.bind fun body hbody ↦ .pure (.closure hparameters hbody)

theorem yields_binaryCall : Yields (binaryCall A) (Expr.WellShaped .primary) := by
  refine .rule _ _ <| .next fun _ ↦ .next fun _ ↦ .next fun _ ↦ .next fun op ↦ .next fun _ ↦ ?_
  refine hA.expression.orFail.bind fun left hleft ↦ .next fun _ ↦ ?_
  refine hA.expression.orFail.bind fun right hright ↦ .next fun _ ↦ .next fun _ ↦ ?_
  exact .pure (.binary hleft hright)

theorem yields_application : Yields (application A) fun c ↦
    c.target.WellShaped .member ∧ ∀ e ∈ c.arguments, e.WellShaped .expression :=
  .next fun _ ↦ .next fun _ ↦ .next fun _ ↦ hA.member.bind fun _ htarget ↦
    (yields_arguments hA).bind fun _ harguments ↦ .next fun _ ↦ .next fun _ ↦
    .pure ⟨htarget, harguments⟩

theorem yields_call : Yields (call A) (Expr.WellShaped .primary) :=
  .rule _ _ <| (yields_application hA).bind fun _ h ↦ .pure (.call h.1 h.2)

/-- Without parentheses there are no arguments, and nothing is to be shown for them. -/
theorem yields_chainCall : Yields (chainCall A) fun c ↦
    c.target.WellShaped .member ∧ ∀ e ∈ c.arguments, e.WellShaped .expression :=
  (yields_application hA).orElse <| hA.member.bind fun _ htarget ↦ .pure ⟨htarget, by simp⟩

theorem yields_methodChain : Yields (methodChain A) (Expr.WellShaped .primary) := by
  refine .rule _ _ <| .next fun _ ↦ .next fun _ ↦ .next fun _ ↦ .next fun _ ↦ .next fun _ ↦ ?_
  refine hA.expression.orFail.bind fun receiver hreceiver ↦ ?_
  refine Yields.bind (P := fun calls : List (ChainCall Expr) ↦ ∀ c ∈ calls,
    c.target.WellShaped .member ∧ ∀ e ∈ c.arguments, e.WellShaped .expression) ?_ ?_
  · exact .many <| .next fun _ ↦ .next fun _ ↦ .next fun _ ↦ (yields_chainCall hA).orFail
  · intro calls hcalls
    refine .next fun _ ↦ .next fun _ ↦ .pure ?_
    exact .chain hreceiver (fun c hc ↦ (hcalls c hc).1) (fun c hc ↦ (hcalls c hc).2)

/-- The alternatives are tried in order; the one for names follows the one for truth values. -/
theorem yields_primary : Yields (primary A) (Expr.WellShaped .primary) := by
  intro s e t h
  rcases matches_orElse.1 h with h | ⟨-, h⟩
  · exact yields_number _ s e t h
  rcases matches_orElse.1 h with h | ⟨-, h⟩
  · exact yields_string _ s e t h
  rcases matches_orElse.1 h with h | ⟨hboolean, h⟩
  · exact yields_boolean _ s e t h
  rcases matches_orElse.1 h with h | ⟨-, h⟩
  · exact yields_nil _ s e t h
  rcases matches_orElse.1 h with h | ⟨-, h⟩
  · exact yields_array hA s e t h
  rcases matches_orElse.1 h with h | ⟨-, h⟩
  · exact wellShaped_of_identifier hboolean h
  have hforms : Yields (choice [cond A, closure A, binaryCall A, methodChain A, blockExpression A,
      call A]) (Expr.WellShaped .primary) :=
    (yields_cond hA).orElse <| (yields_closure hA).orElse <| (yields_binaryCall hA).orElse <|
      (yields_methodChain hA).orElse <| (yields_blockExpression hA).orElse <|
      (yields_call hA).orElse fun _ _ _ hnone ↦ absurd hnone not_matches_noMatch
  exact hforms s e t h

omit hA in
/-- Keys that follow a target one after the other. -/
theorem wellShaped_foldl_member {keys : List Expr} {target : Expr}
    (htarget : target.WellShaped .member) (hkeys : ∀ key ∈ keys, key.WellShaped .primary) :
    (keys.foldl .member target).WellShaped .member := by
  induction keys generalizing target with
  | nil => exact htarget
  | cons key keys ih =>
    obtain ⟨hkey, hkeys⟩ := List.forall_mem_cons.1 hkeys
    exact ih (.member htarget hkey) hkeys

/-- Keys are added one by one, each to a member that is already well-shaped. -/
theorem yields_member : Yields (member A) (Expr.WellShaped .member) := by
  have hkey (start : Cursor) : Yields (do char '/'; expect start .memberKey (primary A))
      (Expr.WellShaped .primary) :=
    .next fun _ ↦ (yields_primary hA).orFail
  refine .rule _ _ <| .next fun start ↦ (yields_primary hA).bind fun target htarget ↦ ?_
  exact (hkey start).many.bind fun keys hkeys ↦
    .pure (wellShaped_foldl_member (.ofPrimary htarget) hkeys)

theorem yields_unary : Yields (unary A) (Expr.WellShaped .expression) := by
  have happlied : Yields (applied A) (Expr.WellShaped .expression) :=
    .next fun _ ↦ hA.expression.bind fun _ hoperand ↦ .pure (.unary hoperand)
  exact .rule _ _ <| happlied.orElse fun s e t h ↦ .ofMember (yields_member hA s e t h)

/-! ## Statements -/

omit hA in
/-- The names that the head of a definition binds. -/
def Head.IsNamed : Head → Prop
  | .function name parameters => isName name = true ∧ ∀ word ∈ parameters, isName word = true
  | .constant name => isName name = true

omit hA in
theorem yields_head : Yields head Head.IsNamed := by
  have hparameter : Yields (do layout; name : Parser String) fun word ↦ isName word = true :=
    .next fun _ ↦ yields_name
  have hsignature : Yields signature Head.IsNamed :=
    .next fun _ ↦ .next fun _ ↦ .next fun _ ↦ yields_name.bind fun _ hname ↦
      hparameter.many.bind fun _ hparameters ↦ .next fun _ ↦ .next fun _ ↦
      .pure ⟨hname, hparameters⟩
  exact hsignature.orElse (yields_name.map fun _ hname ↦ hname)

omit hA in
/-- A body is the list of statements that was read or, if these are a single block, the statements
of that block. -/
theorem wellShaped_functionBody {statements : List Expr}
    (h : ∀ e ∈ statements, e.WellShaped .statement) :
    ∀ e ∈ functionBody statements, e.WellShaped .statement := by
  unfold functionBody
  split
  · rename_i inner
    -- A block is well-shaped as a statement only because its statements are.
    have hblock : (Expr.block inner).WellShaped .statement := h _ (by simp)
    cases hblock with
    | ofExpression hblock =>
      cases hblock with
      | ofMember hblock =>
        cases hblock with
        | ofPrimary hblock =>
          cases hblock with
          | block hinner => exact hinner
  · exact h

/-- A definition is well-shaped because its head was: the names come from there. -/
theorem yields_defined (start : Cursor) {found : Head} (hfound : found.IsNamed) :
    Yields (defined A start found) (Expr.WellShaped .statement) := by
  cases found with
  | function name parameters =>
    exact hA.statement.oneOrMore.orFail.bind fun _ hbody ↦
      .pure (.function hfound.1 hfound.2 (wellShaped_functionBody hbody.2))
  | constant name =>
    exact hA.expression.orFail.bind fun _ hvalue ↦ .pure (.constant hfound hvalue)

theorem yields_definition : Yields (definition A) (Expr.WellShaped .statement) :=
  .rule _ _ <| .next fun start ↦ .next fun _ ↦ .next fun _ ↦ .next fun _ ↦ .next fun _ ↦
    yields_head.orFail.bind fun _ hfound ↦ .next fun _ ↦
    (yields_defined hA start hfound).bind fun _ he ↦ .next fun _ ↦ .next fun _ ↦ .pure he

theorem yields_print : Yields (print A) (Expr.WellShaped .statement) :=
  .rule _ _ <| .next fun _ ↦ .next fun _ ↦ .next fun _ ↦ .next fun _ ↦ .next fun _ ↦
    hA.expression.orFail.bind fun _ hvalue ↦ .next fun _ ↦ .next fun _ ↦ .pure (.print hvalue)

theorem yields_statement : Yields (statement A) (Expr.WellShaped .statement) := by
  have hunary : Yields (unary A) (Expr.WellShaped .statement) :=
    fun s e t h ↦ .ofExpression (yields_unary hA s e t h)
  have hform := (yields_definition hA).orElse ((yields_print hA).orElse hunary)
  exact .rule _ _ <| .next fun _ ↦ hform.bind fun _ he ↦ .next fun _ ↦ .pure he

end Form

/-! ## Programs -/

/-- By induction on the depth. At depth zero nothing is yielded at all. -/
theorem Parts.wellShaped_ofDepth (g : Grammar) (depth : Nat) :
    (Parts.ofDepth g depth).WellShaped := by
  induction depth with
  | zero => exact ⟨fun _ _ _ h ↦ absurd h not_matches_noMatch,
      fun _ _ _ h ↦ absurd h not_matches_noMatch, fun _ _ _ h ↦ absurd h not_matches_noMatch⟩
  | succ depth ih =>
    exact ⟨Form.yields_statement ih, Form.yields_unary ih, Form.yields_member ih⟩

namespace Grammar

variable (g : Grammar)

theorem yields_statement : Yields g.statement (Expr.WellShaped .statement) := by
  intro s e t h
  have hparts := Parts.wellShaped_ofDepth g (s.remaining + 1)
  have hform : (Form.statement (Parts.ofDepth g (s.remaining + 1))).Matches s e t := by
    rw [Matches, ← g.run_nested]
    exact h
  exact Form.yields_statement hparts s e t hform

/-- At top level, an error may stand in place of a statement. -/
def IsTopLevel (e : Expr) : Prop := e.isError = true ∨ e.WellShaped .statement

/-- Nothing stands inside of an error, so whatever does stand inside is part of something
well-shaped. -/
theorem IsTopLevel.inside {d e : Expr} (h : IsTopLevel e) (hd : d.Inside e) :
    ∃ place, d.WellShaped place := by
  rcases h with herror | hshaped
  · obtain ⟨c, -, hc⟩ := (Relation.TransGen.tail'_iff).1 hd
    cases e with
    | error => simp [Expr.children] at hc
    | _ => simp [Expr.isError, Expr.error?] at herror
  · exact hshaped.inside hd

theorem yields_topLevel : Yields g.topLevel IsTopLevel := by
  intro s e t h
  rcases g.matches_topLevel h with h | ⟨d, u, rfl, -, -, -⟩
  · exact .inr (g.yields_statement s e t h)
  · exact .inl rfl

/-- A program has a statement, and its statements are well-shaped or stand for errors. -/
theorem yields_program :
    Yields g.program fun p ↦ p.body ≠ [] ∧ ∀ e ∈ p.body, IsTopLevel e :=
  .rule g _ <| g.yields_topLevel.oneOrMore.bind fun _ hbody ↦ .next fun _ ↦ .pure hbody

end Grammar

/-- Whatever the source, and whatever is wrong with it elsewhere, each statement that was read is
well-shaped throughout. -/
theorem parse_wellShaped (source : String) (p : Program) (e : Expr)
    (hp : (parse source).program = some p) (he : e ∈ p.body) (hread : e.isError = false) :
    e.WellShaped .statement := by
  have hmatch := Grammar.program_parse {} hp
  rcases (Grammar.yields_program {} _ p _ hmatch).2 e he with herror | hshaped
  · rw [hread] at herror
    cases herror
  · exact hshaped

/-- A definition is read after a string that was not closed. -/
theorem parse_wellShaped_after_open_string :
    ∃ p e, (parse "(f \"x)\n(def y !a/true)").program = some p ∧ p.body[1]? = some e ∧
      e.isError = false ∧ e.WellShaped .statement := by
  have hread : ((parse "(f \"x)\n(def y !a/true)").program.bind (·.body[1]?)).map Expr.isError =
      some false := by
    decide +kernel
  obtain ⟨e, hsecond, hread⟩ := Option.map_eq_some_iff.1 hread
  obtain ⟨p, hp, hsecond⟩ := Option.bind_eq_some_iff.1 hsecond
  exact ⟨p, e, hp, hsecond, hread,
    parse_wellShaped _ p e hp (List.mem_of_getElem? hsecond) hread⟩

end Lispette
