import Lispette.Proofs.Recursion

/-!
# Tracing does not interfere

A trace is a by-product: no parser looks at the log that it writes. So the reading of a source, that
is, the answer and the cursor that come out of it, is the same for a grammar that logs its rules and
for one that does not.
-/

namespace Lispette

open Lispette.Parser

namespace Parser

variable {α β : Type}

/-- What comes out of a run besides its log. -/
def reading (p : Parser α) (s : Cursor) : Reply α × Cursor :=
  ((p.run s).reply, (p.run s).cursor)

/-- Only the logs of the two parsers may differ. -/
def ReadAlike (p q : Parser α) : Prop := ∀ s, p.reading s = q.reading s

/-- The equations of this section give the reading of a parser by the readings of its parts, with no
logs in them. -/
theorem reading_bind (p : Parser α) (f : α → Parser β) (s : Cursor) :
    (p >>= f).reading s =
      match p.reading s with
      | (.matched a, t) =>
        match (f a).reading t with
        | (.noMatch, _) => (.noMatch, s)
        | (reply, u) => (reply, u)
      | (.noMatch, _) => (.noMatch, s)
      | (.recovered e, t) => (.recovered e, t) := by
  rcases hrun : p.run s with ⟨reply, t, log⟩
  cases reply with
  | matched a =>
    rcases hnext : (f a).run t with ⟨answer, u, more⟩
    cases answer <;> simp [reading, bind_eq, andThen, hrun, hnext]
  | noMatch => simp [reading, bind_eq, andThen, hrun]
  | recovered e => simp [reading, bind_eq, andThen, hrun]

theorem reading_orElse (p q : Parser α) (s : Cursor) :
    (p <|> q).reading s =
      match p.reading s with
      | (.noMatch, _) => q.reading s
      | (reply, t) => (reply, t) := by
  rcases hrun : p.run s with ⟨reply, t, log⟩
  cases reply <;> simp [reading, HOrElse.hOrElse, OrElse.orElse, orElse, hrun]

theorem reading_notFollowedBy (p : Parser α) (s : Cursor) :
    (notFollowedBy p).reading s =
      match p.reading s with
      | (.noMatch, _) => (.matched (), s)
      | _ => (.noMatch, s) := by
  rcases hrun : p.run s with ⟨reply, t, log⟩
  cases reply <;> simp [reading, notFollowedBy, hrun]

theorem reading_orFail (p : Parser α) (start : Cursor) (message : String) (s : Cursor) :
    (p.orFail start message).reading s =
      match p.reading s with
      | (.noMatch, _) =>
        let e : SyntaxError := ⟨message, start.line, start.offset, s.offset⟩
        (.recovered e, (s.withError e).synchronize)
      | (reply, t) => (reply, t) := by
  rcases hrun : p.run s with ⟨reply, t, log⟩
  cases reply <;> simp [reading, orFail, hrun]

/-- One round of a repetition, followed by the repetition where the round ended. -/
theorem reading_many (p : Parser α) (s : Cursor) :
    (many p).reading s =
      if s.atEnd then (.matched [], s)
      else
        match p.reading s with
        | (.matched a, t) =>
          if t.remaining < s.remaining then
            (((many p).reading t).1.map (a :: ·), ((many p).reading t).2)
          else (.matched [a], t)
        | (.noMatch, _) => (.matched [], s)
        | (.recovered e, t) => (.recovered e, t) := by
  change ((runMany p s).reply, (runMany p s).cursor) = _
  rw [runMany]
  rcases hrun : p.run s with ⟨reply, t, log⟩
  split
  · rfl
  · cases reply with
    | matched a =>
      simp only [reading, hrun]
      split <;> rfl
    | noMatch => simp [reading, hrun]
    | recovered e => simp [reading, hrun]

/-- A rule adds to the log and to nothing else. -/
@[simp] theorem reading_rule (g : Grammar) (r : Rule) (p : Parser α) :
    (g.rule r p).reading = p.reading := by
  unfold Grammar.rule
  split <;> rfl

/-- What recovers is kept as an error among the statements, and what it left open is passed. -/
theorem reading_salvaged (p : Parser Expr) (s : Cursor) :
    (Grammar.salvaged p).reading s =
      match p.reading s with
      | (.recovered e, t) => (.matched (.error e), Cursor.closeStatement s t)
      | (reply, t) => (reply, t) := by
  rcases hrun : p.run s with ⟨reply, t, log⟩
  cases reply <;> simp [reading, Grammar.salvaged, hrun]

namespace ReadAlike

variable {p q : Parser α}

theorem refl (p : Parser α) : ReadAlike p p := fun _ ↦ rfl

theorem bind {f g : α → Parser β} (hp : ReadAlike p q) (hf : ∀ a, ReadAlike (f a) (g a)) :
    ReadAlike (p >>= f) (q >>= g) := by
  intro s
  have hnext (a : α) (t : Cursor) : (f a).reading t = (g a).reading t := hf a t
  simp only [reading_bind, hp s, hnext]

theorem orElse {p' q' : Parser α} (hp : ReadAlike p q) (hq : ReadAlike p' q') :
    ReadAlike (p <|> p') (q <|> q') := by
  intro s
  simp only [reading_orElse, hp s, hq s]

/-- After an item, both repetitions go on from the same cursor, with less of the source left. -/
theorem many (h : ReadAlike p q) : ReadAlike (many p) (many q) := by
  intro s
  induction hbytes : s.remaining using Nat.strongRecOn generalizing s with
  | ind bytes ih =>
    rw [reading_many p, reading_many q, h s]
    split
    · rfl
    · split
      · rename_i t _
        split
        · rename_i hlt
          rw [ih t.remaining (hbytes ▸ hlt) t rfl]
        · rfl
      · rfl
      · rfl

theorem notFollowedBy (h : ReadAlike p q) :
    ReadAlike (notFollowedBy p) (notFollowedBy q) := by
  intro s
  simp only [reading_notFollowedBy, h s]

theorem orFail (h : ReadAlike p q) (start : Cursor) (message : String) :
    ReadAlike (p.orFail start message) (q.orFail start message) := by
  intro s
  simp only [reading_orFail, h s]

theorem rule (h : ReadAlike p q) (g g' : Grammar) (r : Rule) :
    ReadAlike (g.rule r p) (g'.rule r q) := by
  intro s
  simpa using h s

/-- Both sequences begin where they are run. -/
theorem sequence {f g : Cursor → Parser α} (h : ∀ c, ReadAlike (f c) (g c)) :
    ReadAlike (here >>= f) (here >>= g) :=
  bind (refl here) h

theorem filterMap (f : α → Option β) (h : ReadAlike p q) :
    ReadAlike (filterMap f p) (filterMap f q) :=
  h.bind fun _ ↦ refl _

theorem salvaged {p q : Parser Expr} (h : ReadAlike p q) :
    ReadAlike (Grammar.salvaged p) (Grammar.salvaged q) := by
  intro s
  simp only [reading_salvaged, h s]

end ReadAlike

end Parser

/-! ## Forms over parts that read alike -/

/-- Nothing is said of the two grammars, so one may be traced and the other not. -/
structure Parts.ReadAlike (A B : Parts) : Prop where
  statement : Parser.ReadAlike A.statement B.statement
  expression : Parser.ReadAlike A.expression B.expression
  member : Parser.ReadAlike A.member B.member

/-- The sequences around the two parsers have to begin at the same places, as errors reach back to
those. -/
theorem Alike.readAlike {A B : Parts} {guarded : Bool} {starts : Option (Cursor × Cursor)}
    {α : Type} {p q : Parser α} (hAB : A.ReadAlike B) (h : Alike A B guarded starts p q)
    (hstarts : ∀ c d, starts = some (c, d) → c = d) : Parser.ReadAlike p q := by
  induction h with
  | statement => exact hAB.statement
  | expression => exact hAB.expression
  | member => exact hAB.member
  | pure a => exact .refl _
  | noMatch => exact .refl _
  | satisfy ok => exact .refl _
  | taking width => exact .refl _
  | bind _ _ ihp ihf => exact (ihp hstarts).bind fun a ↦ ihf a hstarts
  | orElse _ _ ihp ihq => exact (ihp hstarts).orElse (ihq hstarts)
  | many _ ih => exact (ih hstarts).many
  | notFollowedBy _ ih => exact (ih hstarts).notFollowedBy
  | rule r _ ih => exact (ih hstarts).rule _ _ r
  | expect missing _ ih =>
    obtain rfl := hstarts _ _ rfl
    exact (ih hstarts).orFail _ missing.message
  | sequence _ ih =>
    refine .sequence fun c ↦ ih c c ?_
    rintro _ _ ⟨⟩
    rfl
  | guard _ _ _ ihp ihf => exact (ihp hstarts).bind fun a ↦ ihf a hstarts
  | relax _ ih => exact ih hstarts

/-- By induction on the depth, with the grammars told apart by nothing but their traces. -/
theorem Parts.readAlike_ofDepth (g g' : Grammar) (depth : Nat) :
    (Parts.ofDepth g depth).ReadAlike (Parts.ofDepth g' depth) := by
  induction depth with
  | zero => exact ⟨.refl _, .refl _, .refl _⟩
  | succ depth ih =>
    have hstarts : ∀ c d : Cursor, (none : Option (Cursor × Cursor)) = some (c, d) → c = d := by
      simp
    exact ⟨Alike.statementForm.readAlike ih hstarts, Alike.unary.readAlike ih hstarts,
      Alike.memberForm.readAlike ih hstarts⟩

/-! ## Sources -/

namespace Grammar

variable (g g' : Grammar)

theorem readAlike_statement : ReadAlike g.statement g'.statement := by
  intro s
  let A := Parts.ofDepth g (s.remaining + 1)
  let B := Parts.ofDepth g' (s.remaining + 1)
  have hform : Alike A B true none (Form.statement A) (Form.statement B) := .statementForm
  have hread := hform.readAlike (Parts.readAlike_ofDepth g g' _) (by simp) s
  unfold reading statement at *
  rw [run_nested, run_nested]
  exact hread

theorem readAlike_program : ReadAlike g.program g'.program := by
  have hitem : ReadAlike g.topLevel g'.topLevel :=
    (readAlike_statement g g').salvaged.orElse (.refl _)
  exact ((hitem.many.filterMap _).bind fun _ ↦ .refl _).rule g g' .program

/-- What is read from a source does not depend on whether a trace is kept. -/
theorem parse_untraced (source : String) :
    (g.parse source).program = (g'.parse source).program ∧
      (g.parse source).final = (g'.parse source).final := by
  have hread := readAlike_program g g' (Cursor.ofSource source)
  exact ⟨congrArg (fun outcome ↦ outcome.1.value?) hread, congrArg Prod.snd hread⟩

end Grammar

end Lispette
