import Lispette.Proofs.FormReading
import Lispette.Proofs.TopLevel

/-!
# Commitment

A form that does not match says why at its first token. A bracketed form does not match only where
its bracket is missing, and a parenthesised form only where what stands first inside the parentheses
does not match; once that is found, whatever is still missing is a fault. So which form is read is
decided by the first tokens alone, and a parenthesised form that was read has its closing
parenthesis ahead of it.
-/

namespace Lispette

open Lispette.Parser Grammar

/-! ## Parsers that never fail to match -/

/-- Wherever it runs, the parser matches or finds a fault. -/
def Commits {α : Type} (p : Parser α) : Prop := ∀ s : Cursor, ¬ p.Rejects s

section

variable {α β : Type} {p q : Parser α}

/-- A sequence commits itself if all of its steps do. -/
theorem Commits.bind {f : α → Parser β} (hp : Commits p) (hf : ∀ a, Commits (f a)) :
    Commits (p >>= f) := by
  intro s h
  rcases rejects_bind.1 h with hrejects | ⟨a, t, -, hrejects⟩
  · exact hp s hrejects
  · exact hf a t hrejects

theorem commits_pure (a : α) : Commits (pure a : Parser α) := fun _ ↦ not_rejects_pure

theorem commits_many (p : Parser α) : Commits (many p) := fun _ ↦ not_rejects_many

theorem commits_layout : Commits layout := by
  intro s h
  have hmatch : layout.Matches s () _ := matches_layout.2 rfl
  exact h.not_matches hmatch

theorem commits_expect (start : Cursor) (missing : Fault) (p : Parser α) :
    Commits (expect start missing p) :=
  fun _ ↦ not_rejects_orFail

theorem commits_optional (p : Parser α) : Commits (optional p) :=
  fun _ h ↦ not_rejects_pure (rejects_orElse.1 h).2

/-- What closes a form: layout, the closing character, and the value. -/
theorem commits_closing (start : Cursor) (missing : Fault) (p : Parser Unit) (a : α) :
    Commits (do layout; expect start missing p; return a : Parser α) :=
  commits_layout.bind fun _ ↦ (commits_expect _ _ _).bind fun _ ↦ commits_pure a

/-- If the steps behind it never reject, the first parser alone decides. -/
theorem rejects_bind_of_commits {f : α → Parser β} (hf : ∀ a, Commits (f a)) {s : Cursor} :
    (p >>= f).Rejects s ↔ p.Rejects s := by
  constructor
  · intro h
    rcases rejects_bind.1 h with hrejects | ⟨a, t, -, hrejects⟩
    · exact hrejects
    · exact absurd hrejects (hf a t)
  · exact fun h ↦ rejects_bind.2 (.inl h)

/-- A form that commits itself once its first character is there. -/
theorem rejects_opening {opening : Char} {steps : Cursor → Parser α}
    (hsteps : ∀ start, Commits (steps start)) {s : Cursor} :
    (here >>= fun start ↦ char opening >>= fun _ ↦ steps start).Rejects s ↔
      s.peek? ≠ some opening :=
  rejects_sequence.trans <| (rejects_bind_of_commits fun _ ↦ hsteps s).trans rejects_char

end

/-! ## What stands first inside parentheses -/

/-- There is no opening parenthesis, or what follows it and the layout is refused. -/
def RejectsInside {α : Type} (p : Parser α) (s : Cursor) : Prop :=
  ∀ t u : Cursor, (char '(').Matches s () t → layout.Matches t () u → p.Rejects u

/-- A form in parentheses that commits itself to the rest: whether it is tried depends on what
stands first inside. -/
theorem rejects_parenthesized {α β : Type} {first : Parser β} {steps : Cursor → β → Parser α}
    (hsteps : ∀ start b, Commits (steps start b)) {s : Cursor} :
    (here >>= fun start ↦ char '(' >>= fun _ ↦ layout >>= fun _ ↦ first >>= steps start).Rejects s ↔
      RejectsInside first s := by
  refine rejects_sequence.trans ?_
  constructor
  · intro h t u hopen hlayout
    rcases rejects_bind.1 h with hrejects | ⟨_, t', hopen', hinside⟩
    · exact absurd hopen hrejects.not_matches
    · obtain ⟨-, rfl⟩ := hopen.unique hopen'
      rcases rejects_bind.1 hinside with hrejects | ⟨_, u', hlayout', hfirst⟩
      · exact absurd hrejects (commits_layout t)
      · obtain ⟨-, rfl⟩ := hlayout.unique hlayout'
        exact (rejects_bind_of_commits (hsteps s)).1 hfirst
  · intro h
    rcases outcome (char '(') s with ⟨_, t, hopen⟩ | hrejects | ⟨e, t, hrecovers⟩
    · have hlayout : layout.Matches t () _ := matches_layout.2 rfl
      have hfirst := (rejects_bind_of_commits (hsteps s)).2 (h t _ hopen hlayout)
      exact rejects_bind.2 (.inr ⟨_, t, hopen, rejects_bind.2 (.inr ⟨_, _, hlayout, hfirst⟩)⟩)
    · exact rejects_bind.2 (.inl hrejects)
    · exact absurd (recovers_map.1 hrecovers) not_recovers_satisfy

/-- Where there is a parenthesis, the place behind it and its layout is settled. -/
theorem rejectsInside_iff {α : Type} {p : Parser α} {s t u : Cursor}
    (hopen : (char '(').Matches s () t) (hlayout : layout.Matches t () u) :
    RejectsInside p s ↔ p.Rejects u := by
  constructor
  · exact fun h ↦ h t u hopen hlayout
  · intro h t' u' hopen' hlayout'
    obtain ⟨-, rfl⟩ := hopen.unique hopen'
    obtain ⟨-, rfl⟩ := hlayout.unique hlayout'
    exact h

namespace Form

variable {A : Parts} {s : Cursor}

/-! ## When forms do not match -/

/-- The inside of a string may be empty, so that a quote alone decides. -/
theorem rejects_string {g : Grammar} : g.string.Rejects s ↔ s.peek? ≠ some '"' := by
  have htext : Commits (taking Text.stringWidth) := fun _ ↦ not_rejects_taking
  exact rejects_rule.trans <| rejects_opening fun start ↦ htext.bind fun _ ↦
    (commits_expect _ _ _).bind fun _ ↦ commits_pure _

theorem rejects_array : (array A).Rejects s ↔ s.peek? ≠ some '[' :=
  rejects_rule.trans <| rejects_opening fun _ ↦ (commits_many _).bind fun _ ↦
    commits_closing _ _ _ _

theorem rejects_block : (block A).Rejects s ↔ s.peek? ≠ some '\x7b' :=
  rejects_rule.trans <| rejects_opening fun _ ↦ (commits_many _).bind fun _ ↦
    commits_closing _ _ _ _

theorem rejects_blockExpression : (blockExpression A).Rejects s ↔ s.peek? ≠ some '\x7b' :=
  rejects_map.trans rejects_block

/-- Parameters are a repetition, which may be empty, and the second bar is expected. -/
theorem rejects_closure : (closure A).Rejects s ↔ s.peek? ≠ some '|' :=
  rejects_rule.trans <| rejects_opening fun _ ↦ commits_layout.bind fun _ ↦
    (commits_many _).bind fun _ ↦ (commits_expect _ _ _).bind fun _ ↦ commits_layout.bind fun _ ↦
    (commits_expect _ _ _).bind fun _ ↦ commits_pure _

theorem rejects_cond :
    (cond A).Rejects s ↔ RejectsInside (keyword Keyword.cond.word) s :=
  rejects_rule.trans <| rejects_parenthesized fun _ _ ↦ (commits_expect _ _ _).bind fun _ ↦
    (commits_optional _).bind fun _ ↦ commits_closing _ _ _ _

theorem rejects_binaryCall : (binaryCall A).Rejects s ↔ RejectsInside binaryOperator s :=
  rejects_rule.trans <| rejects_parenthesized fun _ _ ↦ commits_layout.bind fun _ ↦
    (commits_expect _ _ _).bind fun _ ↦ commits_layout.bind fun _ ↦
    (commits_expect _ _ _).bind fun _ ↦ commits_closing _ _ _ _

theorem rejects_methodChain : (methodChain A).Rejects s ↔ RejectsInside (literal "~>") s :=
  rejects_rule.trans <| rejects_parenthesized fun _ _ ↦ commits_layout.bind fun _ ↦
    (commits_expect _ _ _).bind fun _ ↦ (commits_many _).bind fun _ ↦ commits_closing _ _ _ _

theorem rejects_application : (application A).Rejects s ↔ RejectsInside A.member s :=
  rejects_parenthesized fun _ _ ↦ (commits_many _).bind fun _ ↦ commits_closing _ _ _ _

/-- A call has no word or sign of its own: anything that can be called may stand first. -/
theorem rejects_call : (call A).Rejects s ↔ RejectsInside A.member s :=
  rejects_rule.trans <| rejects_map.trans rejects_application

theorem rejects_definition :
    (definition A).Rejects s ↔ RejectsInside (keyword Keyword.define.word) s := by
  have hdefined (start : Cursor) (head : Head) : Commits (defined A start head) := by
    cases head with
    | function name parameters => exact (commits_expect _ _ _).bind fun _ ↦ commits_pure _
    | constant name => exact (commits_expect _ _ _).bind fun _ ↦ commits_pure _
  exact rejects_rule.trans <| rejects_parenthesized fun _ _ ↦ commits_layout.bind fun _ ↦
    (commits_expect _ _ _).bind fun _ ↦ commits_layout.bind fun _ ↦
    (hdefined _ _).bind fun _ ↦ commits_closing _ _ _ _

theorem rejects_print : (print A).Rejects s ↔ RejectsInside (keyword Keyword.print.word) s :=
  rejects_rule.trans <| rejects_parenthesized fun _ _ ↦ commits_layout.bind fun _ ↦
    (commits_expect _ _ _).bind fun _ ↦ commits_closing _ _ _ _

/-- A member is decided by what it selects from, as there may be no keys. -/
theorem rejects_member : (member A).Rejects s ↔ (primary A).Rejects s :=
  rejects_rule.trans <| rejects_sequence.trans <| rejects_bind_of_commits fun _ ↦
    (commits_many _).bind fun _ ↦ commits_pure _

theorem exists_matches_primary {t : Cursor} {e : Expr} (h : (member A).Matches s e t) :
    ∃ target u, (primary A).Matches s target u := by
  obtain ⟨target, u, hprimary, -⟩ := matches_bind.1 (matches_sequence.1 (matches_rule.1 h))
  exact ⟨target, u, hprimary⟩

/-! ## Nesting -/

/-- Where the rules are unfolded deeper, no member is refused that was not refused before. -/
theorem rejects_member_of_deeper (g : Grammar) (depth : Nat) (s : Cursor)
    (h : (Parts.ofDepth g (depth + 1)).member.Rejects s) :
    (Parts.ofDepth g depth).member.Rejects s := by
  induction depth generalizing s with
  | zero => exact rejects_noMatch
  | succ depth ih =>
    have hforms := rejects_choice.1 (rejects_member.1 h)
    refine rejects_member.2 (rejects_choice.2 ?_)
    simp only [primaryForms, List.forall_mem_cons] at hforms ⊢
    obtain ⟨hnumber, hstring, hboolean, hnil, harray, hidentifier, hcond, hclosure, hbinary, hchain,
      hblock, hcall, -⟩ := hforms
    -- All but calls are refused for what they begin with, whatever their parts are.
    exact ⟨rejects_rule.2 (rejects_rule.1 hnumber), rejects_string.2 (rejects_string.1 hstring),
      rejects_rule.2 (rejects_rule.1 hboolean), rejects_rule.2 (rejects_rule.1 hnil),
      rejects_array.2 (rejects_array.1 harray), rejects_rule.2 (rejects_rule.1 hidentifier),
      rejects_cond.2 (rejects_cond.1 hcond), rejects_closure.2 (rejects_closure.1 hclosure),
      rejects_binaryCall.2 (rejects_binaryCall.1 hbinary),
      rejects_methodChain.2 (rejects_methodChain.1 hchain),
      rejects_blockExpression.2 (rejects_blockExpression.1 hblock),
      rejects_call.2 fun t u hopen hlayout ↦ ih u (rejects_call.1 hcall t u hopen hlayout),
      by simp⟩

/-- Only four forms of primary expressions begin with a parenthesis. -/
theorem matches_primary_of_paren {t : Cursor} {e : Expr} (h : (primary A).Matches s e t)
    (hpeek : s.peek? = some '(') :
    (cond A).Matches s e t ∨ (binaryCall A).Matches s e t ∨ (methodChain A).Matches s e t ∨
      (call A).Matches s e t := by
  obtain ⟨before, p, after, hsplit, -, hp⟩ := matches_choice.1 h
  obtain ⟨rest, hs⟩ : ∃ rest, s.rest = '(' :: rest := List.head?_eq_some_iff.1 hpeek
  have hmem : p ∈ [A.number, A.string, A.boolean, A.nil] ++ [array A, A.identifier] ++
      [cond A, closure A, binaryCall A, methodChain A, blockExpression A, call A] := by
    change p ∈ primaryForms A
    simp [hsplit]
  rcases List.mem_append.1 hmem with hatoms | hforms
  · have hrefuses : Refuses p ('(' :: rest) := by
      rcases List.mem_append.1 hatoms with hliteral | hname
      · exact refuses_literals (by decide) rest p hliteral
      · exact refuses_array_or_name (by decide) rest p hname
    exact absurd hp (hrefuses s hs).not_matches
  · simp only [List.mem_cons, List.not_mem_nil, or_false] at hforms
    rcases hforms with rfl | rfl | rfl | rfl | rfl | rfl
    · exact .inl hp
    · exact absurd hp (refuses_closure (by decide) rest s hs).not_matches
    · exact .inr (.inl hp)
    · exact .inr (.inr (.inl hp))
    · exact absurd hp (refuses_blockExpression (by decide) rest s hs).not_matches
    · exact .inr (.inr (.inr hp))

/-! ## Where no member begins -/

/-- The first characters of the symbols for operators and chains, apart from the bar, with which
closures begin as well. -/
def symbolStarts : List Char := ['~', '<', '>', '=', '!', '+', '-', '*', '/', '%', '&', '^']

theorem exists_matches_keyword {word : String} (h : ¬ (keyword word).Rejects s) :
    ∃ t, (keyword word).Matches s () t := by
  rcases outcome (keyword word) s with ⟨_, t, hmatch⟩ | hrejects | ⟨_, t, hrecovers⟩
  · exact ⟨t, hmatch⟩
  · exact absurd hrejects h
  · exact absurd hrecovers not_recovers_keyword

theorem endsWord_of_matches_keyword {word : String} {s t : Cursor} {u : Unit}
    (h : (keyword word).Matches s u t) :
    ∃ rest, s.rest = word.toList ++ rest ∧ EndsWord rest := by
  obtain ⟨⟨rest, hrest⟩, -, rfl, hend⟩ := matches_keyword.1 h
  refine ⟨rest, hrest.symm, fun c hc ↦ hend c ?_⟩
  rw [Cursor.peek?, Cursor.rest_forward_length hrest.symm]
  exact hc

/-- Here stands a reserved word or a symbol, with which no member begins. -/
def BeginsNoMember (s : Cursor) : Prop :=
  (∃ k t, k ≠ Keyword.nil ∧ (keyword k.word).Matches s () t) ∨ ∃ c ∈ symbolStarts, s.peek? = some c

/-- Every alternative is told by its first characters, and none of them begins with a reserved word
or such a symbol. -/
theorem BeginsNoMember.rejects_primary (h : BeginsNoMember s) : (primary A).Rejects s := by
  rcases h with ⟨k, t, hk, hword⟩ | ⟨c, hc, hpeek⟩
  · obtain ⟨rest, hrest, hend⟩ := endsWord_of_matches_keyword hword
    exact refuses_primary_keyword hk hend s hrest
  · have hhead : s.rest.head? = some c := hpeek
    have hword (word : String) (hne : word.toList.head? ∉ symbolStarts.map some) :
        Refuses (keyword word) s.rest := by
      refine .keyword_of_head fun heq ↦ hne ?_
      rw [← heq, hhead]
      exact List.mem_map_of_mem hc
    have hall : symbolStarts.all (fun c ↦ !c.isDigit && !Text.isNameStart c &&
        c ∉ ['"', '[', '(', '|', '\x7b']) = true := by
      decide
    have hc' := List.all_eq_true.1 hall c hc
    simp only [Bool.and_eq_true, Bool.not_eq_true', decide_eq_true_eq] at hc'
    refine refuses_primary ?_ (hword _ (by decide)) (hword _ (by decide)) (hword _ (by decide))
      (refuses_name ?_) ?_ s rfl
    · intro d hd
      obtain rfl : c = d := Option.some.inj (hhead.symm.trans hd)
      exact hc'.1.1
    · intro d hd
      obtain rfl : c = d := Option.some.inj (hhead.symm.trans hd)
      exact hc'.1.2
    · intro d hd heq
      obtain rfl : c = d := Option.some.inj (hhead.symm.trans heq)
      exact hc'.2 hd

/-- The one operator that shares its first character with another form is the bar. -/
theorem beginsNoMember_of_spelling {op : BinaryOperator} {t : Cursor} {u : Unit}
    (h : (Grammar.spelling op).Matches s u t) (hbar : s.peek? ≠ some '|') : BeginsNoMember s := by
  unfold Grammar.spelling at h
  have hsymbol (hop : op.isWord = false) : s.peek? = op.symbol.toList.head? := by
    rw [if_neg (by simp [hop])] at h
    obtain ⟨_, v, hliteral, -⟩ := matches_bind.1 h
    obtain ⟨⟨rest, hrest⟩, hne, -⟩ := matches_literal.1 hliteral
    obtain ⟨c, cs, hcs⟩ := List.exists_cons_of_ne_nil hne
    rw [Cursor.peek?, ← hrest, hcs, List.cons_append, List.head?_cons, List.head?_cons]
  cases op with
  | and => exact .inl ⟨.and, t, by decide, h⟩
  | or => exact .inl ⟨.or, t, by decide, h⟩
  | bitOr => exact absurd (hsymbol rfl) hbar
  | _ => exact .inr ⟨_, by decide, hsymbol rfl⟩

/-- If parentheses that are read as a member do not begin with a member themselves, then they begin
with a reserved word or a symbol. -/
theorem beginsNoMember_inside (g : Grammar) (depth : Nat) {t u v : Cursor} {e : Expr}
    (h : (Parts.ofDepth g depth).member.Matches s e t) (hopen : (char '(').Matches s () u)
    (hlayout : layout.Matches u () v) (hrejects : (Parts.ofDepth g depth).member.Rejects v) :
    BeginsNoMember v := by
  cases depth with
  | zero => exact absurd h not_matches_noMatch
  | succ depth =>
    obtain ⟨target, w, hprimary⟩ := exists_matches_primary h
    have hpeek : s.peek? = some '(' := by
      rw [Cursor.peek?, rest_of_matches_char hopen, List.head?_cons]
    -- What stands first inside is not refused by the form that was read.
    have hfirst {α : Type} {p : Parser Expr} {first : Parser α} (hp : p.Matches s target w)
        (hiff : p.Rejects s ↔ RejectsInside first s) : ¬ first.Rejects v := by
      intro hv
      exact (hiff.2 ((rejectsInside_iff hopen hlayout).2 hv)).not_matches hp
    rcases matches_primary_of_paren hprimary hpeek with hcond | hbinary | hchain | hcall
    · obtain ⟨x, hmatch⟩ := exists_matches_keyword (hfirst hcond rejects_cond)
      exact .inl ⟨.cond, x, by decide, hmatch⟩
    · have hbar : v.peek? ≠ some '|' := by
        have hforms := rejects_choice.1 (rejects_member.1 hrejects)
        exact rejects_closure.1 (hforms (closure (Parts.ofDepth g depth)) (by simp [primaryForms]))
      have hoperator := hfirst hbinary rejects_binaryCall
      rw [rejects_binaryOperator, not_forall] at hoperator
      obtain ⟨op, hspelling⟩ := hoperator
      rcases outcome (Grammar.spelling op) v with ⟨_, x, hmatch⟩ | hno | ⟨_, x, hno⟩
      · exact beginsNoMember_of_spelling hmatch hbar
      · exact absurd hno hspelling
      · exact absurd hno not_recovers_spelling
    · have harrow := hfirst hchain rejects_methodChain
      rw [rejects_literal, not_or, not_not] at harrow
      obtain ⟨-, rest, hrest⟩ := harrow
      exact .inr ⟨'~', by decide, by rw [Cursor.peek?, ← hrest]; rfl⟩
    · exact absurd (rejects_member_of_deeper g depth v hrejects) (hfirst hcall rejects_call)

/-! ## Closing parentheses -/

/-- A closing parenthesis is still ahead wherever the parser matches. -/
def Awaits {α : Type} (p : Parser α) : Prop :=
  ∀ s a t, p.Matches s a t → ')' ∈ s.rest

/-- Parsers only move on, so what is ahead after a step was ahead before it. -/
theorem Awaits.after {α β : Type} {p : Parser α} {f : α → Parser β} (start : Cursor)
    (hp : Built (some start) p) (hf : ∀ a, Awaits (f a)) : Awaits (p >>= f) := by
  intro s b u h
  obtain ⟨a, t, hmatch, hnext⟩ := matches_bind.1 h
  obtain ⟨n, rfl⟩ := hp.obeys.matched hmatch
  have hmem := hf a _ b u hnext
  rw [Cursor.rest_forward] at hmem
  exact List.mem_of_mem_drop hmem

theorem awaits_closing {α : Type} (start : Cursor) (missing : Fault) (a : α) :
    Awaits (do layout; expect start missing (char ')'); return a : Parser α) := by
  refine .after start .layout fun _ s b t h ↦ ?_
  obtain ⟨_, u, hchar, -⟩ := matches_bind.1 h
  obtain ⟨c, hc, -⟩ := matches_map.1 (matches_orFail.1 hchar)
  obtain ⟨hpeek, hclosing, -⟩ := matches_satisfy.1 hc
  obtain rfl : c = ')' := by simpa using hclosing
  exact List.mem_of_head? hpeek

/-- If the text begins with a parenthesis, it also holds a closing one, after the layout that may
follow the first. -/
def Encloses (s : Cursor) : Prop :=
  ∀ t u : Cursor, (char '(').Matches s () t → layout.Matches t () u → ')' ∈ u.rest

/-- All forms in parentheses have one argument in common: behind what stands first, the closing
parenthesis is awaited. -/
theorem encloses_parenthesized {α : Type} {steps : Cursor → Parser α}
    (hsteps : ∀ start, Awaits (steps start)) {s t : Cursor} {a : α}
    (h : (here >>= fun start ↦ char '(' >>= fun _ ↦ layout >>= fun _ ↦ steps start).Matches s a t) :
    Encloses s := by
  intro v w hopen hlayout
  obtain ⟨_, _, hopen', hinside⟩ := matches_bind.1 (matches_sequence.1 h)
  obtain ⟨-, rfl⟩ := hopen.unique hopen'
  obtain ⟨_, _, hlayout', hrest⟩ := matches_bind.1 hinside
  obtain ⟨-, rfl⟩ := hlayout.unique hlayout'
  exact hsteps _ _ _ _ hrest

section

variable (hA : A.AllBuilt) {t : Cursor} {e : Expr}

include hA

theorem encloses_cond (h : (cond A).Matches s e t) : Encloses s := by
  refine encloses_parenthesized (fun start ↦ ?_) (matches_rule.1 h)
  have hbranch : Alike A A false (some (start, start)) (branch A) (branch A) := .branch
  have helse : Alike A A false (some (start, start)) (elseBranch A) (elseBranch A) := .elseBranch
  exact .after start (.keyword _) fun _ ↦
    .after start (hbranch.oneOrMore.built hA |>.orFail _) fun _ ↦
    .after start (helse.optional.built hA) fun _ ↦ awaits_closing _ _ _

theorem encloses_binaryCall (h : (binaryCall A).Matches s e t) : Encloses s := by
  refine encloses_parenthesized (fun start ↦ ?_) (matches_rule.1 h)
  have hoperator : Alike A A false (some (start, start)) binaryOperator binaryOperator :=
    .binaryOperator
  have hoperand : Built (some start) A.expression := hA.expression.inside _
  exact .after start (hoperator.built hA) fun _ ↦ .after start .layout fun _ ↦
    .after start (hoperand.orFail _) fun _ ↦ .after start .layout fun _ ↦
    .after start (hoperand.orFail _) fun _ ↦ awaits_closing _ _ _

theorem encloses_application {c : ChainCall Expr} (h : (application A).Matches s c t) :
    Encloses s := by
  refine encloses_parenthesized (fun start ↦ ?_) h
  have harguments : Alike A A false (some (start, start)) (arguments A) (arguments A) := .arguments
  exact .after start (hA.member.inside _) fun _ ↦ .after start (harguments.built hA) fun _ ↦
    awaits_closing _ _ _

theorem encloses_methodChain (h : (methodChain A).Matches s e t) : Encloses s := by
  refine encloses_parenthesized (fun start ↦ ?_) (matches_rule.1 h)
  have hreceiver : Built (some start) A.expression := hA.expression.inside _
  have hcall : Alike A A false (some (start, start)) (chainCall A) (chainCall A) := .chainCall
  have hcalls : Built (some start)
      (many (do layout; literal "~>"; layout; expect start .chainCall (chainCall A))) :=
    .many <| Built.layout.bind fun _ ↦ (Built.literal _).bind fun _ ↦ Built.layout.bind fun _ ↦
      (hcall.built hA).orFail _
  exact .after start (.literal _) fun _ ↦ .after start .layout fun _ ↦
    .after start (hreceiver.orFail _) fun _ ↦ .after start hcalls fun _ ↦ awaits_closing _ _ _

theorem encloses_definition (h : (definition A).Matches s e t) : Encloses s := by
  refine encloses_parenthesized (fun start ↦ ?_) (matches_rule.1 h)
  have hhead : Alike A A false (some (start, start)) head head := .head
  have hdefined (h : Head) :
      Alike A A false (some (start, start)) (defined A start h) (defined A start h) := .defined h
  exact .after start (.keyword _) fun _ ↦ .after start .layout fun _ ↦
    .after start ((hhead.built hA).orFail _) fun _ ↦ .after start .layout fun _ ↦
    .after start ((hdefined _).built hA) fun _ ↦ awaits_closing _ _ _

theorem encloses_print (h : (print A).Matches s e t) : Encloses s := by
  refine encloses_parenthesized (fun start ↦ ?_) (matches_rule.1 h)
  have hvalue : Built (some start) A.expression := hA.expression.inside _
  exact .after start (.keyword _) fun _ ↦ .after start .layout fun _ ↦
    .after start (hvalue.orFail _) fun _ ↦ awaits_closing _ _ _

end

end Form

end Lispette
