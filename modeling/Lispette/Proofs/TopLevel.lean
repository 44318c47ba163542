import Lispette.Proofs.Recursion

/-!
# The top level

A source is read one statement after the other. Whatever a step of that loop finds, it passes some
of the source, and it records an error exactly where it leaves one in place of a statement. So the
loop ends only where nothing but layout is left.
-/

namespace Lispette

open Lispette.Parser Grammar

/-! ## Statements make progress -/

/-- A form that begins with a character of its own consumes at least that character. -/
theorem Opens.consumes {A B : Parts} {opening : Char} {starts : Option (Cursor × Cursor)} {α : Type}
    {p q : Parser α} (h : Opens A B opening starts p q) (hA : A.AllBuilt) : Consumes p := by
  induction h with
  | sequence hsteps =>
    exact .sequence fun c ↦ (consumes_char _).bind fun u ↦ ((hsteps c c u).built hA).obeys
  | rule r _ ih => exact ih.rule _ r
  | bind _ hf ih => exact ih.bind fun a ↦ ((hf a).built hA).obeys

theorem consumes_of_opens {A : Parts} {opening : Char} {α : Type} {p : Parser α} (hA : A.AllBuilt)
    (h : Opens A A opening none p p) : Consumes p := h.consumes hA

theorem consumes_boolean (g : Grammar) : Consumes g.boolean := by
  have hword (word : String) (value : Bool) :
      Consumes (do keyword word; return Expr.boolean value : Parser Expr) :=
    (consumes_keyword word).map fun _ ↦ Expr.boolean value
  exact .rule g _ ((hword _ _).orElse (hword _ _))

namespace Form

variable {A : Parts} (hA : A.AllBuilt)

include hA

/-- Each alternative consumes something: a lexeme is not empty, and a form has its opening
character. -/
theorem consumes_primary : Consumes (primary A) := by
  have hnumber : Consumes A.number := ((consumes_lexeme _).filterMap _).rule _ _
  have hnil : Consumes A.nil := ((consumes_keyword _).map fun _ ↦ Expr.nil).rule _ _
  have hidentifier : Consumes A.identifier :=
    (((consumes_lexeme _).filterMap _).map _).rule _ _
  refine .choice ?_
  simp only [primaryForms, List.forall_mem_cons]
  exact ⟨hnumber, consumes_of_opens hA Alike.string, consumes_boolean _, hnil,
    consumes_of_opens hA Alike.array, hidentifier, consumes_of_opens hA Alike.cond,
    consumes_of_opens hA Alike.closure, consumes_of_opens hA Alike.binaryCall,
    consumes_of_opens hA Alike.methodChain, consumes_of_opens hA Alike.blockExpression,
    consumes_of_opens hA Alike.call, by simp⟩

theorem consumes_member : Consumes (member A) := by
  have hprimary : Alike A A true none (primary A) (primary A) := .primary
  have hkeys (start : Cursor) :
      Built (some start) (many (do char '/'; expect start .memberKey (primary A))) :=
    .many <| (Built.char _).bind fun _ ↦ ((hprimary.built hA).inside _).orFail _
  exact .rule _ _ <| .sequence fun start ↦ (consumes_primary hA).bind fun _ ↦
    ((hkeys start).bind fun _ ↦ .pure _).obeys

theorem consumes_unary : Consumes (unary A) := by
  have happlied : Consumes (applied A) :=
    consumes_unaryOperator.bind fun _ ↦ (hA.expression.bind fun _ ↦ .pure _).obeys
  exact .rule _ _ (happlied.orElse (consumes_member hA))

/-- Layout before and after a statement may be empty, but the statement between is not. -/
theorem consumes_statement : Consumes (statement A) := by
  have hdefinition : Consumes (definition A) := consumes_of_opens hA Alike.definition
  have hprint : Consumes (print A) := consumes_of_opens hA Alike.print
  have hlayout : Built none layout := .layout
  have hform : Consumes (definition A <|> print A <|> unary A) :=
    hdefinition.orElse (hprint.orElse (consumes_unary hA))
  exact .rule _ _ <| .after hlayout.obeys fun _ ↦ hform.bind fun _ ↦
    (hlayout.bind fun _ ↦ .pure _).obeys

end Form

theorem Grammar.consumes_statement (g : Grammar) : Consumes g.statement := by
  rw [g.statement_eq]
  exact Form.consumes_statement g.allBuilt_parts

/-! ## Errors in place of statements -/

/-- A salvaged parser matches by itself, or with an error in place of what broke. -/
theorem matches_salvaged {p : Parser Expr} {s t : Cursor} {e : Expr}
    (h : (salvaged p).Matches s e t) :
    p.Matches s e t ∨
      ∃ d u, p.Recovers s d u ∧ e = .error d ∧ t = Cursor.closeStatement s u := by
  rcases hrun : p.run s with ⟨reply, u, log⟩
  unfold salvaged Matches at h
  simp only [hrun] at h
  cases reply with
  | matched a => exact .inl (by rw [Matches, hrun]; exact h)
  | noMatch => cases h.1
  | recovered d =>
    obtain ⟨hreply, rfl⟩ := h
    obtain rfl := Reply.matched.inj hreply
    exact .inr ⟨d, u, by rw [Recovers, hrun]; exact ⟨rfl, rfl⟩, rfl, rfl⟩

theorem Parser.Matches.salvaged {p : Parser Expr} {s t : Cursor} {e : Expr} (h : p.Matches s e t) :
    (salvaged p).Matches s e t := by
  obtain ⟨hreply, hcursor⟩ := h
  rcases hrun : p.run s with ⟨reply, u, log⟩
  rw [hrun] at hreply hcursor
  dsimp only at hreply hcursor
  subst hreply hcursor
  simp [Grammar.salvaged, Matches, hrun]

theorem Parser.Recovers.salvaged {p : Parser Expr} {s t : Cursor} {e : SyntaxError}
    (h : p.Recovers s e t) :
    (salvaged p).Matches s (.error e) (Cursor.closeStatement s t) := by
  obtain ⟨hreply, hcursor⟩ := h
  rcases hrun : p.run s with ⟨reply, u, log⟩
  rw [hrun] at hreply hcursor
  dsimp only at hreply hcursor
  subst hreply hcursor
  simp [Grammar.salvaged, Matches, hrun]

theorem not_recovers_salvaged {p : Parser Expr} {s t : Cursor} {d : SyntaxError} :
    ¬ (salvaged p).Recovers s d t := by
  rintro ⟨hreply, -⟩
  rcases hrun : p.run s with ⟨reply, u, log⟩
  unfold salvaged at hreply
  cases reply <;> simp [hrun] at hreply

/-- Input is passed up to where reading resumes, and never at the end of the source. -/
theorem matches_skipped {s t : Cursor} {e : Expr} (h : skipped.Matches s e t) :
    s.atEnd = false ∧ ∃ d, e = .error d ∧ t = s.synchronize.withError d := by
  unfold skipped Matches at h
  dsimp only at h
  split at h
  · cases h.1
  · rename_i hend
    obtain ⟨hreply, rfl⟩ := h
    obtain rfl := Reply.matched.inj hreply
    exact ⟨Bool.not_eq_true _ ▸ hend, _, rfl, rfl⟩

theorem atEnd_of_rejects_skipped {s : Cursor} (h : skipped.Rejects s) : s.atEnd = true := by
  unfold skipped Rejects at h
  dsimp only at h
  split at h
  · assumption
  · cases h

theorem not_recovers_skipped {s t : Cursor} {d : SyntaxError} : ¬ skipped.Recovers s d t := by
  rintro ⟨hreply, -⟩
  unfold skipped at hreply
  dsimp only at hreply
  split at hreply <;> cases hreply

namespace Grammar

variable (g : Grammar)

/-- What one step of the loop can do: it reads a statement, or it leaves an error behind at a place
further on. -/
theorem matches_topLevel {s t : Cursor} {e : Expr} (h : g.topLevel.Matches s e t) :
    g.statement.Matches s e t ∨ ∃ d u, e = .error d ∧ t = u.withError d ∧ s.Reaches u ∧
      (s.offset < u.offset ∨ u.atEnd = true) := by
  rcases matches_orElse.1 h with h | ⟨-, h⟩
  · rcases matches_salvaged h with h | ⟨d, u, hbroken, rfl, rfl⟩
    · exact .inl h
    · obtain ⟨c, k, message, hc, hck, hk, -, rfl⟩ :=
        g.allBuilt_parts.statement.obeys.recovered (by simp) hbroken
      obtain ⟨n, hclose⟩ := Cursor.reaches_closeStatement s (k.synchronize.withError d)
      rw [Cursor.forward_withError] at hclose
      have hsync := k.reaches_synchronize
      have hmore := k.synchronize.reaches_forward n
      refine .inr ⟨d, k.synchronize.forward n, rfl, hclose, (hk.trans hsync).trans hmore, ?_⟩
      rcases k.offset_lt_synchronize_or_atEnd with hlt | hend
      · exact .inl (Nat.lt_of_le_of_lt hk.offset_le (Nat.lt_of_lt_of_le hlt hmore.offset_le))
      · exact .inr (hmore.atEnd hend)
  · obtain ⟨_, u, hlayout, h⟩ := matches_bind.1 h
    obtain rfl := matches_layout.1 hlayout
    obtain ⟨hend, d, rfl, rfl⟩ := matches_skipped h
    have hbefore := s.reaches_forward (Text.layoutWidth false s.rest)
    have hlt := Cursor.offset_lt_synchronize hend
    exact .inr ⟨d, _, rfl, rfl, hbefore.trans (Cursor.reaches_synchronize _),
      .inl (Nat.lt_of_le_of_lt hbefore.offset_le hlt)⟩

/-- A statement that broke is left behind as its error. -/
theorem matches_topLevel_of_recovers {s t : Cursor} {e : SyntaxError}
    (h : g.statement.Recovers s e t) :
    g.topLevel.Matches s (.error e) (Cursor.closeStatement s t) :=
  matches_orElse.2 (.inl h.salvaged)

theorem not_recovers_topLevel {s t : Cursor} {d : SyntaxError} : ¬ g.topLevel.Recovers s d t := by
  intro h
  rcases recovers_orElse.1 h with h | ⟨-, h⟩
  · exact not_recovers_salvaged h
  · rcases recovers_bind.1 h with h | ⟨_, _, -, h⟩
    · exact not_recovers_layout h
    · exact not_recovers_skipped h

theorem remaining_lt_of_topLevel {s t : Cursor} {e : Expr} (hend : s.atEnd = false)
    (h : g.topLevel.Matches s e t) : t.remaining < s.remaining := by
  rcases g.matches_topLevel h with h | ⟨d, u, -, rfl, hreaches, hlt | hdone⟩
  · exact g.consumes_statement s e t h
  · exact hreaches.remaining_lt_iff.2 hlt
  · have hzero : u.remaining = 0 := Cursor.remaining_eq_zero.2 hdone
    have hpos : s.remaining ≠ 0 := by
      rw [ne_eq, Cursor.remaining_eq_zero, hend]
      decide
    change u.remaining < s.remaining
    omega

/-- Where the loop cannot go on, only layout is left. -/
theorem atEnd_of_rejects_topLevel {s t : Cursor} {u : Unit} (h : g.topLevel.Rejects s)
    (hlayout : layout.Matches s u t) : t.atEnd = true := by
  obtain ⟨-, h⟩ := rejects_orElse.1 h
  rcases rejects_bind.1 h with h | ⟨_, v, hbefore, h⟩
  · exact absurd hlayout h.not_matches
  · rw [(hlayout.unique hbefore).2]
    exact atEnd_of_rejects_skipped h

/-! ## Programs -/

/-- A program is a chain of steps at the top level, with layout up to the end of the source behind
it. -/
theorem matches_program {s t : Cursor} {p : Program} (h : g.program.Matches s p t) :
    t.atEnd = true ∧ ∃ u, Chain g.topLevel s p.body u ∧ u.Reaches t := by
  obtain ⟨body, u, hbody, h⟩ := matches_bind.1 (matches_rule.1 h)
  obtain ⟨_, v, hlayout, h⟩ := matches_bind.1 h
  obtain ⟨rfl, rfl⟩ := matches_pure.1 h
  obtain ⟨found, hmany, hkept⟩ := matches_filterMap.1 hbody
  have hfound : found = body := by
    cases found with
    | nil => simp at hkept
    | cons e more => simpa using hkept
  have hreaches : u.Reaches t := ⟨_, matches_layout.1 hlayout⟩
  refine ⟨?_, u, hfound ▸ chain_of_matches_many hmany, hreaches⟩
  rcases stop_of_matches_many (fun _ _ _ ↦ g.remaining_lt_of_topLevel) hmany with hend | hrejects
  · exact hreaches.atEnd hend
  · exact g.atEnd_of_rejects_topLevel hrejects hlayout

theorem not_recovers_program {s t : Cursor} {d : SyntaxError} : ¬ g.program.Recovers s d t := by
  intro h
  rcases recovers_bind.1 (recovers_rule.1 h) with h | ⟨_, _, -, h⟩
  · rcases recovers_bind.1 h with h | ⟨found, _, -, h⟩
    · obtain ⟨_, _, -, h⟩ := recovers_many h
      exact g.not_recovers_topLevel h
    · cases found with
      | nil => exact not_recovers_noMatch h
      | cons e more => exact not_recovers_pure h
  · rcases recovers_bind.1 h with h | ⟨_, _, -, h⟩
    · exact not_recovers_layout h
    · exact not_recovers_pure h

theorem cursor_program_of_rejects {s : Cursor} (h : g.program.Rejects s) :
    (g.program.run s).cursor = s := by
  unfold program Grammar.rule at h ⊢
  split
  · rw [if_pos ‹_›] at h
    exact cursor_bind_of_rejects h
  · rw [if_neg ‹_›] at h
    exact cursor_bind_of_rejects h

/-- A source has a program exactly when the rule for programs matches on it. -/
theorem program_parse {source : String} {p : Program} (h : (g.parse source).program = some p) :
    g.program.Matches (Cursor.ofSource source) p (g.parse source).final := by
  change (g.program.run (Cursor.ofSource source)).reply.value? = some p at h
  cases hreply : (g.program.run (Cursor.ofSource source)).reply with
  | matched found =>
    rw [hreply] at h
    obtain rfl := Option.some.inj h
    exact ⟨hreply, rfl⟩
  | noMatch => rw [hreply] at h; cases h
  | recovered e => rw [hreply] at h; cases h

theorem rejects_of_program_eq_none {source : String} (h : (g.parse source).program = none) :
    g.program.Rejects (Cursor.ofSource source) := by
  change (g.program.run (Cursor.ofSource source)).reply.value? = none at h
  rcases outcome g.program (Cursor.ofSource source) with ⟨p, t, hp⟩ | hp | ⟨d, t, hp⟩
  · rw [hp.1] at h
    cases h
  · exact hp
  · exact absurd hp g.not_recovers_program

end Grammar

end Lispette
