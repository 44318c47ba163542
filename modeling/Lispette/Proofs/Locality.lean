import Lispette.Proofs.Displacement
import Lispette.Proofs.Soundness

/-!
# Reading does not look back

A parser sees the text from its cursor on and nothing in front of it. So a text is read in the same
way wherever it stands in a source, up to the displacement of its positions. The one place where
more is looked at is the search for the end of a broken statement, which asks for the first column;
but by then something has been passed, and whether that ended in a newline is part of the text.
-/

namespace Lispette

variable {α β γ δ : Type} {d : Displacement} {source : String}

/-- `f` displaces the value of a match. -/
def Reply.displace (d : Displacement) (f : α → β) : Reply α → Reply β
  | matched a => matched (f a)
  | noMatch => noMatch
  | recovered e => recovered (e.displace d)

def Run.displace (d : Displacement) (f : α → β) (r : Run α) : Run β where
  reply := r.reply.displace d f
  cursor := r.cursor.displace d
  events := r.events.map (Event.displace d)

namespace Parser

/-! ## Parsers that run displaced -/

/-- Wherever `p` is run in the source, `q` runs in the same way at the displaced cursor. -/
def Displaces (d : Displacement) (source : String) (f : α → β) (p : Parser α) (q : Parser β) :
    Prop :=
  ∀ s : Cursor, s.StandsIn source → q.run (s.displace d) = (p.run s).displace d f

/-- Matches of the parser stay in the source. -/
def Stays (source : String) (p : Parser α) : Prop :=
  ∀ s a t, s.StandsIn source → p.Matches s a t → t.StandsIn source

/-- Parsers move on within the source. -/
theorem Built.stays {start : Option Cursor} {p : Parser α} (h : Built start p) : Stays source p :=
  fun _ _ _ hs hmatch ↦ (h.obeys.matched hmatch).standsIn hs

theorem Chain.standsIn {p : Parser α} {s t : Cursor} {items : List α} (h : Chain p s items t)
    (hp : Stays source p) (hs : s.StandsIn source) : t.StandsIn source := by
  induction h with
  | nil => exact hs
  | cons _ hmatch _ ih => exact ih (hp _ _ _ hs hmatch)

theorem Stays.many {p : Parser α} (hp : Stays source p) : Stays source (many p) :=
  fun _ _ _ hs hmatch ↦ (chain_of_matches_many hmatch).standsIn hp hs

theorem Stays.oneOrMore {p : Parser α} (hp : Stays source p) : Stays source (oneOrMore p) := by
  intro s items t hs hmatch
  obtain ⟨found, hfound, -⟩ := matches_filterMap.1 hmatch
  exact hp.many s found t hs hfound

namespace Displaces

variable {f : α → β} {p : Parser α} {q : Parser β}

/-- Two functions on values that agree on everything the parser yields. -/
theorem congr {g : α → β} (hp : Displaces d source f p q)
    (h : ∀ s a t, p.Matches s a t → f a = g a) : Displaces d source g p q := by
  intro s hs
  rw [hp s hs]
  rcases hrun : p.run s with ⟨reply, t, log⟩
  cases reply with
  | matched a => simp only [Run.displace, Reply.displace, h s a t (matches_of_run hrun)]
  | noMatch => rfl
  | recovered e => rfl

theorem pure (f : α → β) (a : α) :
    Displaces d source f (Pure.pure a : Parser α) (Pure.pure (f a)) :=
  fun _ _ ↦ rfl

theorem noMatch (f : α → β) : Displaces d source f (noMatch : Parser α) noMatch := fun _ _ ↦ rfl

theorem here : Displaces d source (Cursor.displace d) here here := fun _ _ ↦ rfl

theorem satisfy (ok : Char → Bool) : Displaces d source id (satisfy ok) (satisfy ok) := by
  intro s hs
  rcases accepts_or_refuses ok s with ⟨c, hpeek, hok⟩ | hrefuses
  · rw [run_satisfy_of_accepts hpeek hok, run_satisfy_of_accepts (s := s.displace d) hpeek hok,
      Cursor.advance_displace d hs.line_pos]
    rfl
  · rw [run_satisfy_of_refuses hrefuses, run_satisfy_of_refuses (s := s.displace d) hrefuses]
    rfl

theorem taking (width : List Char → Nat) :
    Displaces d source id (taking width) (taking width) := by
  intro s hs
  simp only [Parser.taking, Cursor.rest_displace, Cursor.forward_displace d _ hs]
  rfl

/-- The first parser stays in the source, so that the second one may be displaced too. -/
theorem bind {g : γ → δ} {h : α → Parser γ} {k : β → Parser δ} (hstays : Stays source p)
    (hp : Displaces d source f p q) (hnext : ∀ a, Displaces d source g (h a) (k (f a))) :
    Displaces d source g (p >>= h) (q >>= k) := by
  intro s hs
  have hq := hp s hs
  rcases hrun : p.run s with ⟨reply, t, log⟩
  rw [hrun] at hq
  cases reply with
  | matched a =>
    have ht := hnext a t (hstays s a t hs (matches_of_run hrun))
    rcases hmore : (h a).run t with ⟨answer, u, more⟩
    rw [hmore] at ht
    cases answer <;>
      simp [bind_eq, andThen, hrun, hq, hmore, ht, Run.displace, Reply.displace]
  | noMatch => simp [bind_eq, andThen, hrun, hq, Run.displace, Reply.displace]
  | recovered e => simp [bind_eq, andThen, hrun, hq, Run.displace, Reply.displace]

theorem orElse {p' : Parser α} {q' : Parser β} (hp : Displaces d source f p q)
    (hp' : Displaces d source f p' q') : Displaces d source f (p <|> p') (q <|> q') := by
  intro s hs
  have hq := hp s hs
  rcases hrun : p.run s with ⟨reply, t, log⟩
  rw [hrun] at hq
  cases reply <;>
    simp [HOrElse.hOrElse, OrElse.orElse, Parser.orElse, hrun, hq, hp' s hs, Run.displace,
      Reply.displace]

theorem notFollowedBy (hp : Displaces d source f p q) :
    Displaces d source id (notFollowedBy p) (notFollowedBy q) := by
  intro s hs
  have hq := hp s hs
  rcases hrun : p.run s with ⟨reply, t, log⟩
  rw [hrun] at hq
  cases reply <;> simp [Parser.notFollowedBy, hrun, hq, Run.displace, Reply.displace]

/-- The error reaches from the start of the sequence, which has been displaced as well. -/
theorem orFail {start : Cursor} {message : String} (hp : Displaces d source f p q) :
    Displaces d source f (p.orFail start message) (q.orFail (start.displace d) message) := by
  intro s hs
  have hq := hp s hs
  rcases hrun : p.run s with ⟨reply, t, log⟩
  rw [hrun] at hq
  cases reply with
  | matched a => simp [Parser.orFail, hrun, hq, Run.displace, Reply.displace]
  | noMatch =>
    let e : SyntaxError := ⟨message, start.line, start.offset, s.offset⟩
    have hcursor : ((s.displace d).withError (e.displace d)).synchronize =
        (s.withError e).synchronize.displace d := by
      rw [Cursor.withError_displace, Cursor.synchronize_displace d (hs.withError e)]
    simp only [Parser.orFail, hrun, hq, Run.displace, Reply.displace]
    exact congrArg (Run.mk (.recovered (e.displace d)) · _) hcursor
  | recovered e => simp [Parser.orFail, hrun, hq, Run.displace, Reply.displace]

theorem rule (g : Grammar) (r : Rule) (hp : Displaces d source f p q) :
    Displaces d source f (g.rule r p) (g.rule r q) := by
  unfold Grammar.rule
  split
  · intro s hs
    have hverdict : ((p.run s).reply.displace d f).verdict = (p.run s).reply.verdict := by
      cases (p.run s).reply <;> rfl
    simp only [traced, hp s hs, Run.displace, hverdict, List.map_cons, List.map_append,
      List.map_nil, Event.displace, List.cons_append]
    rfl
  · exact hp

/-- By induction on what is left of the source, which is as much in both runs. -/
theorem many (hstays : Stays source p) (hp : Displaces d source f p q) :
    Displaces d source (List.map f) (many p) (many q) := by
  intro s hs
  change runMany q (s.displace d) = (runMany p s).displace d (List.map f)
  induction s using runMany.induct p with
  | case1 s hend =>
    rw [runMany, runMany, Cursor.atEnd_displace, if_pos hend, if_pos hend]
    rfl
  | case2 s hend a t log hrun hlt ih =>
    have hq := hp s hs
    have hmore := ih (hstays s a t hs (matches_of_run hrun))
    rw [hrun] at hq
    rw [runMany, runMany, Cursor.atEnd_displace, if_neg hend, if_neg hend, hrun, hq]
    simp only [Run.displace, Reply.displace, Cursor.remaining_displace, hlt, if_true, hmore,
      List.map_append]
    cases (runMany p t).reply <;> rfl
  | case3 s hend a t log hrun hlt =>
    have hq := hp s hs
    rw [hrun] at hq
    rw [runMany, runMany, Cursor.atEnd_displace, if_neg hend, if_neg hend, hrun, hq]
    simp [Run.displace, Reply.displace, hlt]
  | case4 s hend t log hrun =>
    have hq := hp s hs
    rw [hrun] at hq
    rw [runMany, runMany, Cursor.atEnd_displace, if_neg hend, if_neg hend, hrun, hq]
    rfl
  | case5 s hend e t log hrun =>
    have hq := hp s hs
    rw [hrun] at hq
    rw [runMany, runMany, Cursor.atEnd_displace, if_neg hend, if_neg hend, hrun, hq]
    rfl

theorem oneOrMore (hstays : Stays source p) (hp : Displaces d source f p q) :
    Displaces d source (List.map f) (oneOrMore p) (oneOrMore q) := by
  refine (many hstays hp).bind hstays.many fun items ↦ ?_
  cases items with
  | nil => exact .noMatch _
  | cons a items => exact .pure _ _

end Displaces

end Parser

open Lispette.Parser

/-! ## Forms -/

/-- The parts of forms run displaced. -/
structure Parts.Displaces (d : Displacement) (source : String) (A : Parts) : Prop where
  statement : Parser.Displaces d source id A.statement A.statement
  expression : Parser.Displaces d source id A.expression A.expression
  member : Parser.Displaces d source id A.member A.member

/-- For expressions without errors nothing changes but the cursors, hence the identity on values. -/
theorem Alike.displaces {A : Parts} {guarded : Bool} {starts : Option (Cursor × Cursor)}
    {p q : Parser α} (hbuilt : A.AllBuilt) (hA : A.Displaces d source)
    (h : Alike A A guarded starts p q)
    (hstarts : ∀ c c', starts = some (c, c') → c' = c.displace d) :
    Displaces d source id p q := by
  induction h with
  | statement => exact hA.statement
  | expression => exact hA.expression
  | member => exact hA.member
  | pure a => exact .pure id a
  | noMatch => exact .noMatch id
  | satisfy ok => exact .satisfy ok
  | taking width => exact .taking width
  | bind hp _ ihp ihf =>
    exact (ihp hstarts).bind (hp.built hbuilt).stays fun a ↦ ihf a hstarts
  | orElse _ _ ihp ihq => exact (ihp hstarts).orElse (ihq hstarts)
  | many hp ih =>
    have hmany := (ih hstarts).many (hp.built hbuilt).stays
    rwa [List.map_id_fun] at hmany
  | notFollowedBy _ ih => exact (ih hstarts).notFollowedBy
  | rule r _ ih => exact (ih hstarts).rule _ r
  | expect missing _ ih =>
    obtain rfl := hstarts _ _ rfl
    exact (ih hstarts).orFail
  | sequence _ ih =>
    have hhere : Built none here := .here
    refine Displaces.here.bind hhere.stays fun c ↦ ih c (c.displace d) ?_
    rintro _ _ ⟨⟩
    rfl
  | guard _ hp _ ihp ihf =>
    exact (ihp hstarts).bind (hp.built hbuilt).stays fun a ↦ ihf a hstarts
  | relax _ ih => exact ih hstarts

theorem Parts.displaces_ofDepth (g : Grammar) (depth : Nat) :
    (Parts.ofDepth g depth).Displaces d source := by
  induction depth with
  | zero => exact ⟨.noMatch id, .noMatch id, .noMatch id⟩
  | succ depth ih =>
    have hbuilt := Parts.allBuilt_ofDepth g depth
    have hstarts : ∀ c c' : Cursor, (none : Option (Cursor × Cursor)) = some (c, c') →
        c' = c.displace d := by
      simp
    exact ⟨Alike.statementForm.displaces hbuilt ih hstarts,
      Alike.unary.displaces hbuilt ih hstarts, Alike.memberForm.displaces hbuilt ih hstarts⟩

namespace Grammar

variable (g : Grammar)

/-- A parser without parts. -/
theorem displaces_atom {p : Parser α}
    (h : Alike (Parts.ofDepth g 0) (Parts.ofDepth g 0) false none p p) :
    Displaces d source id p p :=
  h.displaces (Parts.allBuilt_ofDepth g 0) (Parts.displaces_ofDepth g 0) (by simp)

theorem displaces_nested {form : Parts → Parser α}
    (h : ∀ A, Alike A A false none (form A) (form A)) :
    Displaces d source id (g.nested form) (g.nested form) := by
  intro s hs
  rw [run_nested, run_nested, Cursor.remaining_displace]
  exact (h _).displaces (Parts.allBuilt_ofDepth g _) (Parts.displaces_ofDepth g _) (by simp) s hs

/-! ## Programs -/

/-- A statement that broke has passed something, so that its end is found at the same place. -/
theorem displaces_salvaged :
    Displaces d source (Expr.displace d) (salvaged g.statement) (salvaged g.statement) := by
  intro s hs
  have hq : g.statement.run (s.displace d) = (g.statement.run s).displace d id :=
    g.displaces_nested (fun _ ↦ .relax .statementForm) s hs
  rcases hrun : g.statement.run s with ⟨reply, t, log⟩
  rw [hrun] at hq
  cases reply with
  | matched e =>
    have hshaped := g.yields_statement s e t (matches_of_run hrun)
    simp [salvaged, hrun, hq, Run.displace, Reply.displace, hshaped.displace_eq]
  | noMatch => simp [salvaged, hrun, hq, Run.displace, Reply.displace]
  | recovered e =>
    have hrecovers : g.statement.Recovers s e t := by
      rw [Recovers, hrun]
      exact ⟨rfl, rfl⟩
    obtain ⟨ht, -, hstart, hspan, -, -, hpassed⟩ :=
      (g.allBuilt_parts.statement.obeys.recovered (by simp) hrecovers).contract hs
    have hmoved : 0 < t.offset ∨ t.atEnd = true := hpassed.imp_left fun h ↦ by omega
    simp [salvaged, hrun, hq, Run.displace, Reply.displace, Expr.displace,
      Cursor.closeStatement_displace d s ht hmoved]

/-- Where reading resumes is decided by the text that is left, not by where it stands. -/
theorem displaces_skipped : Displaces d source (Expr.displace d) skipped skipped := by
  intro s hs
  unfold skipped
  dsimp only
  rw [Cursor.atEnd_displace, Cursor.synchronize_displace d hs]
  split
  · rfl
  · simp only [Run.displace, Reply.displace, Expr.displace, ← Cursor.withError_displace]
    rfl

theorem displaces_layout : Displaces d source id layout layout := displaces_atom {} .layout

theorem stays_layout : Stays source layout :=
  have hbuilt : Built none layout := .layout
  hbuilt.stays

/-- Errors among the statements carry positions, so that values are displaced from here on. -/
theorem displaces_topLevel : Displaces d source (Expr.displace d) g.topLevel g.topLevel :=
  g.displaces_salvaged.orElse (displaces_layout.bind stays_layout fun _ ↦ displaces_skipped)

theorem stays_topLevel : Stays source g.topLevel := by
  intro s e t hs h
  rcases g.matches_topLevel h with h | ⟨e, u, -, rfl, hreaches, -⟩
  · exact g.allBuilt_parts.statement.stays s e t hs h
  · exact (hreaches.standsIn hs).withError e

theorem displaces_program : Displaces d source (Program.displace d) g.program g.program := by
  refine .rule g _ ?_
  refine (g.displaces_topLevel.oneOrMore g.stays_topLevel).bind g.stays_topLevel.oneOrMore
    fun body ↦ displaces_layout.bind stays_layout fun _ ↦ .pure (Program.displace d) ⟨body⟩

end Grammar

/-! ## All rules -/

/-- The rules at which a grammar can be entered, each with the type of what it reads. -/
inductive Entry : Type → Type 1 where
  | program : Entry Program
  | statement : Entry Expr
  | definition : Entry Expr
  | print : Entry Expr
  | block : Entry (List Expr)
  | body : Entry (List Expr)
  | expression : Entry Expr
  | unary : Entry Expr
  | member : Entry Expr
  | primary : Entry Expr
  | array : Entry Expr
  | cond : Entry Expr
  | closure : Entry Expr
  | binaryCall : Entry Expr
  | binaryOperator : Entry BinaryOperator
  | methodChain : Entry Expr
  | blockExpression : Entry Expr
  | call : Entry Expr
  | number : Entry Expr
  | string : Entry Expr
  | boolean : Entry Expr
  | nil : Entry Expr
  | name : Entry String
  | identifier : Entry Expr
  | keyword (word : String) : Entry Unit

namespace Entry

def parser (g : Grammar) {α : Type} : Entry α → Parser α
  | program => g.program
  | statement => g.statement
  | definition => g.definition
  | print => g.print
  | block => g.block
  | body => g.body
  | expression => g.expression
  | unary => g.unary
  | member => g.member
  | primary => g.primary
  | array => g.array
  | cond => g.cond
  | closure => g.closure
  | binaryCall => g.binaryCall
  | binaryOperator => Grammar.binaryOperator
  | methodChain => g.methodChain
  | blockExpression => g.blockExpression
  | call => g.call
  | number => g.number
  | string => g.string
  | boolean => g.boolean
  | nil => g.nil
  | name => Grammar.name
  | identifier => g.identifier
  | keyword word => Parser.keyword word

/-- Displaces what a rule has read. -/
def displace (d : Displacement) {α : Type} : Entry α → α → α
  | program => Program.displace d
  | block | body => List.map (Expr.displace d)
  | binaryOperator | name | keyword _ => id
  | statement | definition | print | expression | unary | member | primary | array | cond | closure
  | binaryCall | methodChain | blockExpression | call | number | string | boolean | nil
  | identifier => Expr.displace d

end Entry

namespace Grammar

variable (g : Grammar)

/-- Where only well-shaped expressions are read, none of them holds a position. -/
theorem displaces_wellShaped {place : Place} {p : Parser Expr} (hp : Displaces d source id p p)
    (hshaped : Yields p (Expr.WellShaped place)) : Displaces d source (Expr.displace d) p p :=
  hp.congr fun s e t h ↦ (hshaped s e t h).displace_eq.symm

theorem yields_nested {form : Parts → Parser α} {P : α → Prop}
    (h : ∀ A : Parts, A.WellShaped → Yields (form A) P) : Yields (g.nested form) P := by
  intro s a t hmatch
  refine h _ (Parts.wellShaped_ofDepth g (s.remaining + 1)) s a t ?_
  rwa [Matches, ← g.run_nested]

/-- For a form that yields something well-shaped, displacing its value changes nothing. -/
theorem displaces_form {place : Place} {form : Parts → Parser Expr}
    (halike : ∀ A, Alike A A false none (form A) (form A))
    (hshaped : ∀ A : Parts, A.WellShaped → Yields (form A) (Expr.WellShaped place)) :
    Displaces d source (Expr.displace d) (g.nested form) (g.nested form) :=
  displaces_wellShaped (g.displaces_nested halike) (g.yields_nested hshaped)

theorem displaces_statements {form : Parts → Parser (List Expr)}
    (halike : ∀ A, Alike A A false none (form A) (form A))
    (hshaped : ∀ A : Parts, A.WellShaped →
      Yields (form A) fun body ↦ ∀ e ∈ body, e.WellShaped .statement) :
    Displaces d source (List.map (Expr.displace d)) (g.nested form) (g.nested form) := by
  refine (g.displaces_nested halike).congr fun s body t h ↦ ?_
  have hbody := g.yields_nested hshaped s body t h
  have hsame : body.map (Expr.displace d) = body.map id :=
    List.map_congr_left fun e he ↦ (hbody e he).displace_eq
  rw [hsame, List.map_id_fun]

/-- One case for each rule, sorted by what it yields. -/
theorem displaces_entry {α : Type} (entry : Entry α) :
    Displaces d source (entry.displace d) (entry.parser g) (entry.parser g) := by
  cases entry with
  | program => exact g.displaces_program
  | statement =>
    exact g.displaces_form (fun _ ↦ .relax .statementForm) fun _ ↦ Form.yields_statement
  | definition =>
    exact g.displaces_form (fun _ ↦ .relax Alike.definition.alike) fun _ ↦ Form.yields_definition
  | print => exact g.displaces_form (fun _ ↦ .relax Alike.print.alike) fun _ ↦ Form.yields_print
  | block =>
    exact g.displaces_statements (fun _ ↦ .relax Alike.block.alike) fun _ ↦ Form.yields_block
  | body => exact g.displaces_statements (fun _ ↦ .body) fun _ ↦ Form.yields_body
  | expression => exact g.displaces_form (fun _ ↦ .relax .unary) fun _ ↦ Form.yields_unary
  | unary => exact g.displaces_form (fun _ ↦ .relax .unary) fun _ ↦ Form.yields_unary
  | member => exact g.displaces_form (fun _ ↦ .relax .memberForm) fun _ ↦ Form.yields_member
  | primary => exact g.displaces_form (fun _ ↦ .relax .primary) fun _ ↦ Form.yields_primary
  | array => exact g.displaces_form (fun _ ↦ .relax Alike.array.alike) fun _ ↦ Form.yields_array
  | cond => exact g.displaces_form (fun _ ↦ .relax Alike.cond.alike) fun _ ↦ Form.yields_cond
  | closure =>
    exact g.displaces_form (fun _ ↦ .relax Alike.closure.alike) fun _ ↦ Form.yields_closure
  | binaryCall =>
    exact g.displaces_form (fun _ ↦ .relax Alike.binaryCall.alike) fun _ ↦ Form.yields_binaryCall
  | binaryOperator => exact displaces_atom {} .binaryOperator
  | methodChain =>
    exact g.displaces_form (fun _ ↦ .relax Alike.methodChain.alike) fun _ ↦ Form.yields_methodChain
  | blockExpression =>
    exact g.displaces_form (fun _ ↦ .relax Alike.blockExpression.alike)
      fun _ ↦ Form.yields_blockExpression
  | call => exact g.displaces_form (fun _ ↦ .relax Alike.call.alike) fun _ ↦ Form.yields_call
  | number => exact displaces_wellShaped (g.displaces_atom .number) (yields_number g)
  | string =>
    exact displaces_wellShaped (g.displaces_atom (.relax Alike.string.alike)) (yields_string g)
  | boolean => exact displaces_wellShaped (g.displaces_atom .boolean) (yields_boolean g)
  | nil => exact displaces_wellShaped (g.displaces_atom .nil) (yields_nil g)
  | name => exact displaces_atom {} .name
  | identifier =>
    refine (g.displaces_atom .identifier).congr fun s e t h ↦ ?_
    -- Read by itself, a name may also be spelled like a truth value, which is not well-shaped.
    obtain ⟨word, -, rfl⟩ := matches_map.1 (matches_rule.1 h)
    change Expr.identifier word = Expr.displace d (.identifier word)
    rw [Expr.displace]
  | keyword word => exact displaces_atom {} (.keyword word)

end Grammar

/-- Whatever a rule of the grammar does at some place of a source, it does at the beginning of what
is left of the source there, but for the displacement of all positions. -/
theorem run_suffix (g : Grammar) {α : Type} (entry : Entry α) (before after : String) :
    let d := Displacement.after before.toList
    (entry.parser g).run
        ((Cursor.ofSource (before ++ after)).advanceBytes (byteLength before.toList)) =
      ((entry.parser g).run (Cursor.ofSource after)).displace d (entry.displace d) := by
  intro d
  rw [Cursor.advanceBytes_ofSource]
  exact g.displaces_entry entry _ (Cursor.standsIn_ofSource after)

end Lispette
