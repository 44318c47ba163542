import Lispette.Proofs.SimilarReading

/-!
# Forms on similar texts

Every form is carried over to similar texts if its parts are. Rules are carried over by induction on
how deep they are unfolded for the first text.
-/

namespace Lispette

open Lispette.Parser Grammar

/-- What is known of the parts of the first reader: they are carried over to those of the second,
and parentheses that are a member are told from calls by what stands first in them. -/
structure CarriesParts (S : Similarity) (A B : Parts) : Prop where
  statement : S.Carries .layout A.statement B.statement
  expression : S.Carries .token A.expression B.expression
  member : S.Carries .token A.member B.member
  built : A.AllBuilt
  consumes_expression : Consumes A.expression
  consumes_member : Consumes A.member
  inside : ∀ {s t u v e}, A.member.Matches s e t → (char '(').Matches s () u →
    layout.Matches u () v → A.member.Rejects v → Form.BeginsNoMember v

theorem Grammar.consumes_expression (g : Grammar) : Consumes g.expression := by
  rw [g.expression_eq]
  exact Form.consumes_unary g.allBuilt_parts

namespace Form

open Similarity

variable {S : Similarity} {g : Grammar} {A : Parts} (hA : CarriesParts S A g.parts)

include hA

/-! ### Lists and bodies -/

omit hA in
theorem isPlain_closing {closing : Char} (hclosing : closing ∈ [')', ']', '\x7d']) :
    Text.isPlain closing = true := by
  have hall : ∀ c ∈ [')', ']', '\x7d'], Text.isPlain c = true := List.all_eq_true.1 (by decide)
  exact hall closing hclosing

/-- Both readers end the arguments at the closing character, since it begins no expression. -/
theorem carries_arguments {closing : Char} (hclosing : closing ∈ [')', ']', '\x7d']) :
    S.CarriesBefore (Closes closing) .any (arguments A) (arguments g.parts) := by
  have hitem : S.Carries .token (do layout; A.expression) (do layout; g.parts.expression) :=
    carries_layout.bind fun _ ↦ hA.expression
  have hlayout : Built none layout := .layout
  refine hitem.many (.after hlayout.obeys fun _ ↦ g.consumes_expression) fun t t' ht hs ↦ ?_
  obtain ⟨rest, hread⟩ := ht.reads_layout (isPlain_closing hclosing) hs
  exact Refuses.bind_right hread (refuses_expression_closing hclosing rest) t' rfl

theorem carries_array : S.Carries .token (array A) (array g.parts) :=
  .rule _ <| .sequence fun c c' ↦ (carries_char (by decide)).bind fun _ ↦
    (carries_arguments hA (by decide)).bind (fun _ _ _ _ ↦ closes_of_matches) fun _ ↦
    carries_closing c c' _ (by decide) _

/-- It begins no statement either. -/
theorem carries_statements {closing : Char} (hclosing : closing ∈ [')', ']', '\x7d']) :
    S.CarriesBefore (Closes closing) .any (many A.statement) (many g.parts.statement) := by
  refine hA.statement.many g.consumes_statement fun t t' ht hs ↦ ?_
  obtain ⟨rest, hread⟩ := ht.reads_layout (isPlain_closing hclosing) hs
  exact refuses_statement_closing hclosing hread t' rfl

theorem carries_block : S.Carries .token (block A) (block g.parts) :=
  .rule _ <| .sequence fun c c' ↦ (carries_char (by decide)).bind fun _ ↦
    (carries_statements hA (by decide)).bind (fun _ _ _ _ ↦ closes_of_matches) fun _ ↦
    carries_closing c c' _ (by decide) _

/-- A body is a block if it begins with a brace, for both readers. -/
theorem carries_body : S.Carries .token (body A) (body g.parts) := by
  refine (carries_block hA).orElse (hA.expression.map _) fun s _ t s' hblock hbody hs ↦ ?_
  obtain ⟨e, hexpression, -⟩ := matches_map.1 hbody
  have hne := rest_ne_nil hA.consumes_expression hexpression
  exact rejects_block.2 (mt (hs.peek?_iff hne (by decide)).2 (rejects_block.1 hblock))

/-! ### Conditionals and closures -/

theorem carries_branch : S.Carries .token (branch A) (branch g.parts) :=
  .sequence fun c c' ↦ carries_layout.bind fun _ ↦ hA.expression.bind fun _ ↦
    carries_layout.bind fun _ ↦ ((carries_body hA).expect c c' _).andReturn

theorem carries_elseBranch : S.Carries .token (elseBranch A) (elseBranch g.parts) :=
  .sequence fun c c' ↦ carries_layout.bind fun _ ↦ (carries_word .otherwise).bind fun _ ↦
    carries_layout.bind fun _ ↦ (carries_body hA).expect c c' _

omit hA in
theorem carries_name : S.Carries .token name name :=
  S.mirrors_name.carries ((consumes_lexeme _).filterMap _)

/-- The parameters end at the second bar. -/
theorem carries_closure : S.Carries .token (closure A) (closure g.parts) := by
  have hparameter : S.Carries .layout (do let parameter ← name; layout; return parameter)
      (do let parameter ← name; layout; return parameter) :=
    carries_name.bind fun _ ↦ carries_layout.andReturn
  have hconsumes : Consumes (do let parameter ← name; layout; return parameter) := by
    have hlayout : Built none layout := .layout
    exact ((consumes_lexeme _).filterMap _).bind fun _ ↦ (hlayout.bind fun _ ↦ .pure _).obeys
  have hparameters : S.CarriesBefore (fun t ↦ t.peek? = some '|') .any
      (many (do let parameter ← name; layout; return parameter))
      (many (do let parameter ← name; layout; return parameter)) := by
    refine hparameter.many hconsumes fun t t' ht hs ↦ ?_
    have hne : t.rest ≠ [] := by
      intro hend
      rw [Cursor.peek?, hend] at ht
      cases ht
    have hbar := (hs.peek?_iff hne (by decide)).1 ht
    refine Refuses.bind_left (refuses_name fun c hc ↦ ?_) t' rfl
    obtain rfl : '|' = c := Option.some.inj (hbar.symm.trans hc)
    decide
  have hbar (c t u : Cursor) (missing : Fault) (b : Expr) (f : Unit → Parser Expr)
      (h : (expect c missing (char '|') >>= f).Matches t b u) : t.peek? = some '|' := by
    obtain ⟨_, v, hchar, -⟩ := matches_bind.1 h
    rw [Cursor.peek?, rest_of_matches_char (matches_orFail.1 hchar), List.head?_cons]
  exact .rule _ <| .sequence fun c c' ↦ (carries_char (by decide)).bind fun _ ↦
    carries_layout.bind fun _ ↦ hparameters.bind (fun _ t b u ↦ hbar _ t u _ b _) fun _ ↦
    ((carries_char (by decide)).expect c c' _).bind fun _ ↦ carries_layout.bind fun _ ↦
    ((carries_body hA).expect c c' _).andReturn

/-- The branches of a conditional end before its closing parenthesis or its last branch. -/
def EndsBranches (s : Cursor) : Prop :=
  Closes ')' s ∨
    ∃ t u, layout.Matches s () t ∧ (keyword Keyword.otherwise.word).Matches t () u

omit hA in
/-- Where the first reader came to the end of the branches, the second one reads no further branch.
-/
theorem EndsBranches.rejects_branch {s s' : Cursor} (h : EndsBranches s)
    (hs : S.At .any s.rest s'.rest) : (branch g.parts).Rejects s' := by
  rcases h with hclosing | ⟨t, u, hlayout, hword⟩
  · obtain ⟨rest, hread⟩ := hclosing.reads_layout (by decide) hs
    exact Refuses.sequence (fun _ ↦ .bind_right hread <| .bind_left <|
      refuses_expression_closing (by decide) rest) s' rfl
  · obtain ⟨t', hlayout', ht⟩ := carries_layout hlayout hs
    obtain ⟨u', hword', -⟩ := carries_word .otherwise hword ht.any
    obtain ⟨rest, hrest, hend⟩ := endsWord_of_matches_keyword hword'
    have hrejects : g.parts.expression.Rejects t' := by
      change g.expression.Rejects t'
      rw [g.expression_eq]
      exact refuses_unary_else hend t' hrest
    exact rejects_sequence.2 <| rejects_bind.2 <|
      .inr ⟨_, t', hlayout', rejects_bind.2 (.inl hrejects)⟩

omit hA in
/-- What follows the branches tells that they have ended. -/
theorem endsBranches_of_matches {α : Type} {c s t : Cursor} {missing : Fault} {b : α}
    {value : Option (List Expr) → α}
    (h : (do
        let otherwise ← optional (elseBranch A)
        layout
        expect c missing (char ')')
        return value otherwise : Parser α).Matches s b t) : EndsBranches s := by
  obtain ⟨otherwise, u, hotherwise, hclose⟩ := matches_bind.1 h
  rcases matches_orElse.1 hotherwise with hsome | ⟨-, hnone⟩
  · obtain ⟨_, hbranch, -⟩ := matches_map.1 hsome
    obtain ⟨_, v, hlayout, hword⟩ := matches_bind.1 (matches_sequence.1 hbranch)
    obtain ⟨_, w, hword, -⟩ := matches_bind.1 hword
    exact .inr ⟨v, w, hlayout, hword⟩
  · obtain ⟨rfl, rfl⟩ := matches_pure.1 hnone
    exact .inl (closes_of_matches hclose)

omit hA in
theorem consumes_branch : Consumes (branch g.parts) := by
  refine .sequence fun start ↦ ?_
  have hlayout : Built (some start) layout := .layout
  have hbody : Alike g.parts g.parts false (some (start, start)) (body g.parts) (body g.parts) :=
    .body
  exact .after hlayout.obeys fun _ ↦ g.consumes_expression.bind fun _ ↦
    (hlayout.bind fun _ ↦ ((hbody.built g.allBuilt_parts).orFail _).bind fun _ ↦ .pure _).obeys

theorem carries_cond : S.Carries .token (cond A) (cond g.parts) := by
  have hbranches : S.CarriesBefore EndsBranches .any (oneOrMore (branch A))
      (oneOrMore (branch g.parts)) :=
    ((carries_branch hA).many consumes_branch fun _ _ ht hs ↦ ht.rejects_branch hs).oneOrMore
  have hotherwise : S.CarriesBefore (Closes ')') .any (optional (elseBranch A))
      (optional (elseBranch g.parts)) := by
    refine (carries_elseBranch hA).optional fun t t' ht hs ↦ ?_
    obtain ⟨rest, hread⟩ := ht.reads_layout (by decide) hs
    exact Refuses.sequence (fun _ ↦ .bind_right hread <| .bind_left <|
      .keyword_of_head (by simp [Keyword.word])) t' rfl
  exact .rule _ <| .sequence fun c c' ↦ (carries_char (by decide)).bind fun _ ↦
    carries_layout.bind fun _ ↦ (carries_word .cond).bind fun _ ↦
    (hbranches.expect c c' _).bind (fun _ _ _ _ ↦ endsBranches_of_matches) fun _ ↦
    hotherwise.bind (fun _ _ _ _ ↦ closes_of_matches) fun _ ↦ carries_closing c c' _ (by decide) _

/-! ### Operations and calls -/

omit hA in
theorem consumes_binaryOperator : Consumes binaryOperator := by
  refine .choice fun p hp ↦ ?_
  obtain ⟨op, -, rfl⟩ := List.mem_map.1 hp
  have hspace : Built none (satisfy Text.isSpace) := .satisfy _
  have hspelling : Consumes (Grammar.spelling op) := by
    unfold Grammar.spelling
    split
    · exact consumes_keyword _
    · exact (consumes_literal _).bind fun _ ↦ (hspace.map _).obeys
  exact hspelling.map fun _ ↦ op

omit hA in
/-- An operator and the layout after it. -/
theorem carries_binaryOperator {α : Type} {f f' : BinaryOperator → Parser α} {pause : Pause}
    (hf : ∀ op, S.Carries pause (f op) (f' op)) :
    S.Carries pause (do let op ← binaryOperator; layout; f op)
      (do let op ← binaryOperator; layout; f' op) := by
  intro s a t s' hmatch hs
  obtain ⟨op, u, hoperator, hlayouts⟩ := matches_bind.1 hmatch
  obtain ⟨_, v, hlayout, hnext⟩ := matches_bind.1 hlayouts
  have hrelated := hs.related (rest_ne_nil consumes_binaryOperator hoperator)
  obtain ⟨before, before', rest, hread, hbefore, hdrop, hdrop'⟩ :=
    S.binaryOperator_matched hoperator hrelated
  obtain ⟨u', hoperator', rfl⟩ := hread s' rfl
  have hlayout' : layout.Matches u' () _ := matches_layout.2 rfl
  have hv : S.At .layout v.rest (u'.forward (Text.layoutWidth false u'.rest)).rest := by
    rw [rest_of_matches_layout hlayout, rest_of_matches_layout hlayout', hdrop, hdrop']
    have htoken : S.At .token before before' := hbefore
    exact htoken.dropLayout
  obtain ⟨t', hnext', ht⟩ := hf op hnext hv.any
  exact ⟨t', matches_bind.2 ⟨op, u', hoperator', matches_bind.2 ⟨(), _, hlayout', hnext'⟩⟩, ht⟩

theorem carries_binaryCall : S.Carries .token (binaryCall A) (binaryCall g.parts) :=
  .rule _ <| .sequence fun c c' ↦ (carries_char (by decide)).bind fun _ ↦
    carries_layout.bind fun _ ↦ carries_binaryOperator fun _ ↦
    (hA.expression.expect c c' _).bind fun _ ↦ carries_layout.bind fun _ ↦
    (hA.expression.expect c c' _).bind fun _ ↦ carries_closing c c' _ (by decide) _

/-- The arguments of a call end at its closing parenthesis. -/
theorem carries_application : S.Carries .token (application A) (application g.parts) :=
  .sequence fun c c' ↦ (carries_char (by decide)).bind fun _ ↦ carries_layout.bind fun _ ↦
    hA.member.bind fun _ ↦
    (carries_arguments hA (by decide)).bind (fun _ _ _ _ ↦ closes_of_matches) fun _ ↦
    carries_closing c c' _ (by decide) _

theorem carries_call : S.Carries .token (call A) (call g.parts) :=
  .rule _ (carries_application hA).andReturn

omit hA in
/-- The words and signs that begin no member are the same in both texts. -/
theorem BeginsNoMember.similar {s s' : Cursor} (h : BeginsNoMember s)
    (hs : S.At .any s.rest s'.rest) : BeginsNoMember s' := by
  rcases h with ⟨k, t, hk, hword⟩ | ⟨c, hc, hpeek⟩
  · obtain ⟨t', hword', -⟩ := carries_word k hword hs
    exact .inl ⟨k, t', hk, hword'⟩
  · have hne : s.rest ≠ [] := by
      intro hend
      rw [Cursor.peek?, hend] at hpeek
      cases hpeek
    have hplain : ∀ c ∈ symbolStarts, Text.isPlain c = true := List.all_eq_true.1 (by decide)
    exact .inr ⟨c, hc, (hs.peek?_iff hne (hplain c hc)).1 hpeek⟩

/-- Where parentheses stand for a member and not for a call, they do so for both readers. -/
theorem carries_chainCall : S.Carries .token (chainCall A) (chainCall g.parts) := by
  refine (carries_application hA).orElse hA.member.andReturn fun s _ t s' hcall hbare hs ↦ ?_
  obtain ⟨e, v, hmember, -⟩ := matches_bind.1 hbare
  refine rejects_application.2 fun t' u' hopen' hlayout' ↦ ?_
  have hne := rest_ne_nil hA.consumes_member hmember
  obtain ⟨w, x, hopen, hlayout, hx⟩ := exists_inside (hs.related hne) hopen' hlayout'
  have hinside := hA.inside hmember hopen hlayout (rejects_application.1 hcall w x hopen hlayout)
  change g.member.Rejects u'
  rw [g.member_eq]
  exact rejects_member.2 (hinside.similar hx.any).rejects_primary

/-- A chain ends at its closing parenthesis, where no arrow stands. -/
theorem carries_methodChain : S.Carries .token (methodChain A) (methodChain g.parts) := by
  have harrow : S.Carries .token (literal "~>") (literal "~>") :=
    S.mirrors_arrow.carries (consumes_literal _)
  have hcalls (c c' : Cursor) : S.CarriesBefore (Closes ')') .any
      (many (do layout; literal "~>"; layout; expect c .chainCall (chainCall A)))
      (many (do layout; literal "~>"; layout; expect c' .chainCall (chainCall g.parts))) := by
    have hitem : S.Carries .token
        (do layout; literal "~>"; layout; expect c .chainCall (chainCall A))
        (do layout; literal "~>"; layout; expect c' .chainCall (chainCall g.parts)) :=
      carries_layout.bind fun _ ↦ harrow.bind fun _ ↦ carries_layout.bind fun _ ↦
        (carries_chainCall hA).expect c c' _
    have hconsumes : Consumes
        (do layout; literal "~>"; layout; expect c' .chainCall (chainCall g.parts)) := by
      have hlayout : Built (some c') layout := .layout
      have hcall : Alike g.parts g.parts false (some (c', c')) (chainCall g.parts)
        (chainCall g.parts) := .chainCall
      exact .after hlayout.obeys fun _ ↦ (consumes_literal _).bind fun _ ↦
        (hlayout.bind fun _ ↦ (hcall.built g.allBuilt_parts).orFail _).obeys
    refine hitem.many hconsumes fun t t' ht hs ↦ ?_
    obtain ⟨rest, hread⟩ := ht.reads_layout (by decide) hs
    exact Refuses.bind_right hread (.bind_left (.literal (by simp))) t' rfl
  exact .rule _ <| .sequence fun c c' ↦ (carries_char (by decide)).bind fun _ ↦
    carries_layout.bind fun _ ↦ harrow.bind fun _ ↦ carries_layout.bind fun _ ↦
    (hA.expression.expect c c' _).bind fun _ ↦
    (hcalls c c').bind (fun _ _ _ _ ↦ closes_of_matches) fun _ ↦
    carries_closing c c' _ (by decide) _

/-! ### Expressions -/

omit hA in
/-- Words do not begin with a parenthesis. -/
theorem refuses_word_paren {word : String} (hne : word.toList.head? ≠ some '(') (text : List Char) :
    Refuses (keyword word) ('(' :: text) :=
  .keyword_of_head fun h ↦ hne h.symm

omit hA in
/-- Numbers, words and names are told apart by their characters alone. -/
theorem decided_number : Decided S A.number g.parts.number := by
  refine S.mirrors_number.decided (((consumes_lexeme _).filterMap _).rule _ _) fun text ↦
    refuses_number _ fun c hc ↦ ?_
  obtain rfl : '(' = c := Option.some.inj hc
  decide

omit hA in
theorem decided_boolean : Decided S A.boolean g.parts.boolean :=
  S.mirrors_boolean.decided (consumes_boolean _) fun text ↦
    refuses_boolean _ (refuses_word_paren (by decide) text) (refuses_word_paren (by decide) text)

omit hA in
theorem decided_nil : Decided S A.nil g.parts.nil :=
  S.mirrors_nil.decided (((consumes_keyword _).map fun _ ↦ Expr.nil).rule _ _) fun text ↦
    .rule _ _ (.bind_left (refuses_word_paren (by decide) text))

omit hA in
theorem decided_identifier : Decided S A.identifier g.parts.identifier := by
  refine S.mirrors_identifier.decided ((((consumes_lexeme _).filterMap _).map _).rule _ _)
    fun text ↦ .rule _ _ (.map _ (refuses_name fun c hc ↦ ?_))
  obtain rfl : '(' = c := Option.some.inj hc
  decide

omit hA in
theorem carries_string {g' : Grammar} : S.Carries .token g.string g'.string := by
  intro s e t s' hmatch hs
  obtain ⟨body, hrest, -⟩ := matches_string hmatch
  obtain ⟨rest, hread, hrelated⟩ := S.string_matched hmatch (hs.related (by simp [hrest]))
  obtain ⟨t', hmatch', rfl⟩ := hread s' rfl
  exact ⟨t', hmatch', hrelated⟩

/-- The opening quote decides: a string that is not closed is an error, and no other form is tried.
-/
theorem decided_string : Decided S A.string g.parts.string :=
  decided_opening (by decide) (by decide) carries_string
    (consumes_of_opens hA.built Alike.string) (fun _ ↦ rejects_string) fun _ ↦ rejects_string

theorem decided_array : Decided S (array A) (array g.parts) :=
  decided_opening (by decide) (by decide) (carries_array hA)
    (consumes_of_opens hA.built Alike.array) (fun _ ↦ rejects_array) fun _ ↦ rejects_array

theorem decided_closure : Decided S (closure A) (closure g.parts) :=
  decided_opening (by decide) (by decide) (carries_closure hA)
    (consumes_of_opens hA.built Alike.closure) (fun _ ↦ rejects_closure) fun _ ↦ rejects_closure

theorem decided_blockExpression : Decided S (blockExpression A) (blockExpression g.parts) :=
  decided_opening (by decide) (by decide) ((carries_block hA).map _)
    (consumes_of_opens hA.built Alike.blockExpression) (fun _ ↦ rejects_blockExpression)
    fun _ ↦ rejects_blockExpression

/-- A conditional is decided by its keyword. -/
theorem decided_cond : Decided S (cond A) (cond g.parts) :=
  decided_word .cond (carries_cond hA) (consumes_of_opens hA.built Alike.cond)
    (encloses_cond hA.built) (fun _ ↦ rejects_cond) fun _ ↦ rejects_cond

/-- An operation is decided by its operator, and that by the white space behind it. The closing
parenthesis makes sure that the first text does not end right behind a symbol. -/
theorem decided_binaryCall : Decided S (binaryCall A) (binaryCall g.parts) :=
  decided_parenthesized (carries_binaryCall hA) (consumes_of_opens hA.built Alike.binaryCall)
    (encloses_binaryCall hA.built) (fun _ ↦ rejects_binaryCall) (fun _ ↦ rejects_binaryCall)
    fun hrejects hclosing hrelated ↦ S.binaryOperator_rejected hrejects hclosing hrelated _ rfl

/-- A chain is decided by its first arrow. -/
theorem decided_methodChain : Decided S (methodChain A) (methodChain g.parts) :=
  decided_parenthesized (carries_methodChain hA) (consumes_of_opens hA.built Alike.methodChain)
    (encloses_methodChain hA.built) (fun _ ↦ rejects_methodChain) (fun _ ↦ rejects_methodChain)
    fun hrejects _ hrelated ↦ S.mirrors_arrow.rejected hrejects hrelated _ rfl

theorem alternative_call : Alternative S (call A) (call g.parts) where
  carries := carries_call hA
  consumes := consumes_of_opens hA.built Alike.call
  encloses hmatch := by
    obtain ⟨_, happlication, -⟩ := matches_map.1 (matches_rule.1 hmatch)
    exact encloses_application hA.built happlication

/-- A call is tried last, and so nothing has to be decided about it. -/
theorem alternative_primary : Alternative S (primary A) (primary g.parts) := by
  have hforms : List.Forall₂ (Decided S)
      [A.number, A.string, A.boolean, A.nil, array A, A.identifier, cond A, closure A,
        binaryCall A, methodChain A, blockExpression A]
      [g.parts.number, g.parts.string, g.parts.boolean, g.parts.nil, array g.parts,
        g.parts.identifier, cond g.parts, closure g.parts, binaryCall g.parts,
        methodChain g.parts, blockExpression g.parts] :=
    .cons decided_number <| .cons (decided_string hA) <| .cons decided_boolean <|
      .cons decided_nil <| .cons (decided_array hA) <| .cons decided_identifier <|
      .cons (decided_cond hA) <| .cons (decided_closure hA) <| .cons (decided_binaryCall hA) <|
      .cons (decided_methodChain hA) <| .cons (decided_blockExpression hA) .nil
  exact .choice hforms (alternative_call hA)

omit hA in
/-- Only the slash is optional, as a key has to follow it. -/
theorem rejects_key {A : Parts} {c s : Cursor} :
    (do char '/'; expect c .memberKey (primary A) : Parser Expr).Rejects s ↔
      s.peek? ≠ some '/' :=
  (rejects_bind_of_commits fun _ ↦ commits_expect _ _ _).trans rejects_char

omit hA in
theorem consumes_key {A : Parts} (hbuilt : A.AllBuilt) (c : Cursor) :
    Consumes (do char '/'; expect c .memberKey (primary A) : Parser Expr) := by
  have hprimary : Alike A A true (some (c, c)) (primary A) (primary A) := .primary
  exact (consumes_char _).bind fun _ ↦ ((hprimary.built hbuilt).orFail _).obeys

/-- Keys go on as long as there are slashes, for both readers. -/
theorem carries_member : S.Carries .token (member A) (member g.parts) := by
  refine .rule _ (.sequence fun c c' ↦ ?_)
  intro s e t s' hmatch hs
  obtain ⟨target, u, htarget, hmore⟩ := matches_bind.1 hmatch
  obtain ⟨keys, v, hkeys, hvalue⟩ := matches_bind.1 hmore
  obtain ⟨rfl, rfl⟩ := matches_pure.1 hvalue
  have hprimary := (alternative_primary hA).carries
  have hkey : S.Carries .token (do char '/'; expect c .memberKey (primary A))
      (do char '/'; expect c' .memberKey (primary g.parts)) :=
    (carries_char (by decide)).bind fun _ ↦ hprimary.expect c c' _
  have hslash : t.peek? ≠ some '/' := by
    have hconsumes := consumes_key hA.built c
    rcases stop_of_matches_many (fun s a t _ ↦ hconsumes s a t) hkeys with hend | hrejects
    · rw [Cursor.peek?, List.isEmpty_iff.1 hend]
      simp
    · exact rejects_key.1 hrejects
  obtain ⟨u', htarget', hu⟩ := hprimary htarget hs
  obtain ⟨t', hkeys', ht⟩ := hkey.chain (consumes_key g.allBuilt_parts c')
    (chain_of_matches_many hkeys) hu fun t' ht ↦ .inr <| rejects_key.2 <|
      mt (S.head?_eq_some_iff ht (by decide) (by decide)).2 hslash
  exact ⟨t', matches_bind.2 ⟨target, u', htarget', matches_bind.2
    ⟨keys, t', hkeys', matches_pure.2 ⟨rfl, rfl⟩⟩⟩, ht⟩

/-- What a member begins with closes its parentheses, whatever keys follow. -/
theorem encloses_member {s t : Cursor} {e : Expr} (h : (member A).Matches s e t) : Encloses s := by
  obtain ⟨_, _, hprimary⟩ := exists_matches_primary h
  exact (alternative_primary hA).encloses hprimary

omit hA in
/-- The operator is told by its symbol. -/
theorem matches_unaryOperator {s t : Cursor} {op : UnaryOperator}
    (h : unaryOperator.Matches s op t) : s.rest = op.symbol :: t.rest := by
  obtain ⟨before, p, after, hsplit, -, hp⟩ := matches_choice.1 h
  have hmem : p ∈ UnaryOperator.all.map fun op ↦ (do char op.symbol; return op) := by
    rw [hsplit]
    simp
  obtain ⟨a, -, rfl⟩ := List.mem_map.1 hmem
  obtain ⟨_, hchar, rfl⟩ := matches_map.1 hp
  exact rest_of_matches_char hchar

omit hA in
theorem isPlain_symbol (op : UnaryOperator) : Text.isPlain op.symbol = true := by
  cases op <;> decide

omit hA in
theorem carries_unaryOperator : S.Carries .token unaryOperator unaryOperator := by
  intro s op t s' hmatch hs
  have hrest := matches_unaryOperator hmatch
  have hrelated := hs.related (by simp [hrest])
  rw [hrest] at hrelated
  obtain ⟨rest, hs', hrest'⟩ := S.of_cons (isPlain_symbol op) hrelated
  obtain ⟨t', hmatch', rfl⟩ := reads_unaryOperator op rest s' hs'
  exact ⟨t', hmatch', hrest'⟩

/-- No member begins with an operator, so what is no operation for the one reader is none for the
other. -/
theorem alternative_unary : Alternative S (unary A) (unary g.parts) where
  carries := by
    have happlied : S.Carries .token (applied A) (applied g.parts) :=
      carries_unaryOperator.bind fun _ ↦ hA.expression.andReturn
    refine .rule _ (happlied.orElse (carries_member hA) fun s _ t s' _ hmember hs ↦ ?_)
    have hne := rest_ne_nil (consumes_member hA.built) hmember
    obtain ⟨_, _, hprimary⟩ := exists_matches_primary hmember
    refine rejects_bind.2 (.inl (refuses_unaryOperator (fun op hop ↦ ?_) s' rfl))
    have hpeek := (hs.peek?_iff hne (isPlain_symbol op)).2 hop
    have hstart : BeginsNoMember s := .inr ⟨_, by cases op <;> decide, hpeek⟩
    exact hstart.rejects_primary.not_matches hprimary
  consumes := consumes_unary hA.built
  encloses {s e t} hmatch := by
    rcases matches_orElse.1 (matches_rule.1 hmatch) with happlied | ⟨-, hmember⟩
    · obtain ⟨op, u, hop, -⟩ := matches_bind.1 happlied
      apply encloses_of_peek
      rw [Cursor.peek?, matches_unaryOperator hop, List.head?_cons]
      cases op <;> decide
    · exact encloses_member hA hmember

/-! ### Statements -/

omit hA in
/-- The parameters of a function end at the closing parenthesis of its signature. -/
theorem carries_signature : S.Carries .token signature signature := by
  have hparameters : S.CarriesBefore (Closes ')') .any (many (do layout; name))
      (many (do layout; name)) := by
    have hparameter : S.Carries .token (do layout; name) (do layout; name) :=
      carries_layout.bind fun _ ↦ carries_name
    have hlayout : Built none layout := .layout
    refine hparameter.many (.after hlayout.obeys fun _ ↦ (consumes_lexeme _).filterMap _)
      fun t t' ht hs ↦ ?_
    obtain ⟨rest, hread⟩ := ht.reads_layout (by decide) hs
    refine Refuses.bind_right hread (refuses_name fun c hc ↦ ?_) t' rfl
    obtain rfl : ')' = c := Option.some.inj hc
    decide
  exact .sequence fun c c' ↦ (carries_char (by decide)).bind fun _ ↦ carries_layout.bind fun _ ↦
    carries_name.bind fun _ ↦ hparameters.bind (fun _ _ _ _ ↦ closes_of_matches) fun _ ↦
    carries_closing c c' _ (by decide) _

omit hA in
/-- A parenthesis tells whether a function or a constant is defined. -/
theorem carries_head : S.Carries .token head head := by
  refine carries_signature.orElse (carries_name.map _) fun s _ t s' _ hname hs ↦ ?_
  obtain ⟨word, hword, -⟩ := matches_map.1 hname
  have hne := rest_ne_nil ((consumes_lexeme _).filterMap _) hword
  have hpeek : s.peek? ≠ some '(' := by
    intro hparen
    refine (refuses_name (fun c hc ↦ ?_) s rfl).not_matches hword
    obtain rfl : '(' = c := Option.some.inj (hparen.symm.trans hc)
    decide
  have hpeek' := mt (hs.peek?_iff hne (by decide)).2 hpeek
  exact rejects_sequence.2 (rejects_bind.2 (.inl (rejects_char.2 hpeek')))

/-- The body of a function goes on to the closing parenthesis of the definition. -/
theorem carries_defined (c c' : Cursor) (h : Head) :
    S.CarriesBefore (Closes ')') .any (defined A c h) (defined g.parts c' h) := by
  cases h with
  | function name parameters =>
    exact ((carries_statements hA (by decide)).oneOrMore.expect c c' _).andReturn
  | constant name =>
    intro s e t s' hmatch _ hs
    obtain ⟨t', hmatch', ht⟩ := (hA.expression.expect c c' _).andReturn hmatch hs
    exact ⟨t', hmatch', ht.any⟩

theorem carries_definition : S.Carries .token (definition A) (definition g.parts) :=
  .rule _ <| .sequence fun c c' ↦ (carries_char (by decide)).bind fun _ ↦
    carries_layout.bind fun _ ↦ (carries_word .define).bind fun _ ↦ carries_layout.bind fun _ ↦
    (carries_head.expect c c' _).bind fun h ↦ carries_layout.bind fun _ ↦
    (carries_defined hA c c' h).bind (fun _ _ _ _ ↦ closes_of_matches) fun _ ↦
    carries_closing c c' _ (by decide) _

theorem carries_print : S.Carries .token (print A) (print g.parts) :=
  .rule _ <| .sequence fun c c' ↦ (carries_char (by decide)).bind fun _ ↦
    carries_layout.bind fun _ ↦ (carries_word .print).bind fun _ ↦ carries_layout.bind fun _ ↦
    (hA.expression.expect c c' _).bind fun _ ↦ carries_closing c c' _ (by decide) _

theorem decided_definition : Decided S (definition A) (definition g.parts) :=
  decided_word .define (carries_definition hA) (consumes_of_opens hA.built Alike.definition)
    (encloses_definition hA.built) (fun _ ↦ rejects_definition) fun _ ↦ rejects_definition

theorem decided_print : Decided S (print A) (print g.parts) :=
  decided_word .print (carries_print hA) (consumes_of_opens hA.built Alike.print)
    (encloses_print hA.built) (fun _ ↦ rejects_print) fun _ ↦ rejects_print

/-- Keywords decide before an expression is tried, which may be anything else. -/
theorem carries_statement : S.Carries .layout (statement A) (statement g.parts) := by
  have hform := (decided_definition hA).orElse ((decided_print hA).orElse (alternative_unary hA))
  exact .rule _ <| carries_layout.bind fun _ ↦ hform.carries.bind fun _ ↦ carries_layout.andReturn

end Form

/-! ## Grammars -/

/-- Only the first reader unfolds the rules step by step. The second one has them all. -/
theorem carriesParts_ofDepth (S : Similarity) (g : Grammar) (depth : Nat) :
    CarriesParts S (Parts.ofDepth g depth) g.parts := by
  induction depth with
  | zero =>
    have hnone {s t : Cursor} {e : Expr} : ¬ (noMatch : Parser Expr).Matches s e t :=
      not_matches_noMatch
    exact ⟨fun _ _ _ _ h ↦ absurd h hnone, fun _ _ _ _ h ↦ absurd h hnone,
      fun _ _ _ _ h ↦ absurd h hnone, Parts.allBuilt_ofDepth g 0, fun _ _ _ h ↦ absurd h hnone,
      fun _ _ _ h ↦ absurd h hnone, fun h ↦ absurd h hnone⟩
  | succ depth ih =>
    have hbuilt := Parts.allBuilt_ofDepth g depth
    refine ⟨?_, ?_, ?_, Parts.allBuilt_ofDepth g (depth + 1), Form.consumes_unary hbuilt,
      Form.consumes_member hbuilt, Form.beginsNoMember_inside g (depth + 1)⟩
    · change S.Carries _ _ g.statement
      rw [g.statement_eq]
      exact Form.carries_statement ih
    · change S.Carries _ _ g.expression
      rw [g.expression_eq]
      exact (Form.alternative_unary ih).carries
    · change S.Carries _ _ g.member
      rw [g.member_eq]
      exact Form.carries_member ih

/-- A statement that is read from a text is read from each similar text. -/
theorem Grammar.carries_statement (S : Similarity) (g : Grammar) :
    S.Carries .layout g.statement g.statement := by
  intro s e t s' hmatch hs
  have hparts := carriesParts_ofDepth S g (s.remaining + 1)
  have hform : (Form.statement (Parts.ofDepth g (s.remaining + 1))).Matches s e t := by
    rw [Matches, ← g.run_nested]
    exact hmatch
  obtain ⟨t', hmatch', ht⟩ := Form.carries_statement hparts hform hs
  rw [← g.statement_eq] at hmatch'
  exact ⟨t', hmatch', ht⟩

end Lispette
