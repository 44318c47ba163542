import Lispette.Proofs.Alike

/-!
# Rules that call each other

The rules of a grammar are unfolded only as deep as the source is long. Deeper unfolding changes
nothing, since every level of nesting passes at least one character. So the rules satisfy the
equations that a grammar is usually written as: each rule is its form over the rules themselves.
-/

namespace Lispette

open Lispette.Parser

/-! ## Forms of built parts are built -/

/-- All parts are parsers outside of any sequence. -/
structure Parts.AllBuilt (A : Parts) : Prop where
  statement : Built none A.statement
  expression : Built none A.expression
  member : Built none A.member

/-- What is built outside of every sequence may also be used as a step of one. -/
theorem Parser.Built.inside {α : Type} {p : Parser α} (h : Built none p) (start : Option Cursor) :
    Built start p := by
  cases start with
  | none => exact h
  | some c => exact h.step

/-- Forms are made of the ways of building parsers and nothing else; over parts that are built, they
are built. -/
theorem Alike.built {A B : Parts} {guarded : Bool} {starts : Option (Cursor × Cursor)} {α : Type}
    {p q : Parser α} (hA : A.AllBuilt) (h : Alike A B guarded starts p q) :
    Built (starts.map Prod.fst) p := by
  induction h with
  | statement => exact hA.statement.inside _
  | expression => exact hA.expression.inside _
  | member => exact hA.member.inside _
  | pure a => exact .pure a
  | noMatch => exact .noMatch
  | satisfy ok => exact .satisfy ok
  | taking width => exact .taking width
  | bind _ _ ihp ihf => exact ihp.bind ihf
  | orElse _ _ ihp ihq => exact ihp.orElse ihq
  | many _ ih => exact ih.many
  | notFollowedBy _ ih => exact ih.notFollowedBy
  | rule r _ ih => exact ih.rule _ r
  | expect missing _ ih => exact ih.orFail missing.message
  | sequence _ ih => exact .sequence fun c ↦ ih c c
  | guard _ _ _ ihp ihf => exact ihp.bind ihf
  | relax _ ih => exact ih

theorem Parts.allBuilt_ofDepth (g : Grammar) (depth : Nat) : (Parts.ofDepth g depth).AllBuilt := by
  induction depth with
  | zero => exact ⟨.noMatch, .noMatch, .noMatch⟩
  | succ depth ih =>
    let A := Parts.ofDepth g depth
    have hstatement : Alike A A true none (Form.statement A) (Form.statement A) := .statementForm
    have hunary : Alike A A true none (Form.unary A) (Form.unary A) := .unary
    have hmember : Alike A A true none (Form.member A) (Form.member A) := .memberForm
    exact ⟨hstatement.built ih, hunary.built ih, hmember.built ih⟩

/-! ## Parsers that agree on short sources -/

/-- The two parsers run alike wherever fewer than `bytes` bytes are left. -/
def AgreeBelow {α : Type} (bytes : Nat) (p q : Parser α) : Prop :=
  ∀ s : Cursor, s.remaining < bytes → p.run s = q.run s

section

variable {α β : Type}

/-- Two sequences run alike if their first parsers do and the others do wherever the first one ends.
-/
theorem run_bind_congr {p q : Parser α} {f g : α → Parser β} {s : Cursor} (hp : p.run s = q.run s)
    (hf : ∀ a t, p.Matches s a t → (f a).run t = (g a).run t) :
    (p >>= f).run s = (q >>= g).run s := by
  rcases hrun : p.run s with ⟨reply, t, log⟩
  have hq : q.run s = ⟨reply, t, log⟩ := hp.symm.trans hrun
  cases reply with
  | matched a =>
    have hnext : (f a).run t = (g a).run t := hf a t (matches_of_run hrun)
    simp [bind_eq, andThen, hrun, hq, hnext]
  | noMatch => simp [bind_eq, andThen, hrun, hq]
  | recovered e => simp [bind_eq, andThen, hrun, hq]

theorem run_orElse_congr {p q p' q' : Parser α} {s : Cursor} (hp : p.run s = q.run s)
    (hq : p'.run s = q'.run s) : (p <|> p').run s = (q <|> q').run s := by
  simp only [HOrElse.hOrElse, OrElse.orElse, orElse, hp, hq]

/-- Repetition stays within the bound: it goes on only where less of the source is left. -/
theorem run_many_congr {p q : Parser α} {bytes : Nat} (h : AgreeBelow bytes p q) :
    AgreeBelow bytes (many p) (many q) := by
  intro s hs
  change runMany p s = runMany q s
  induction s using runMany.induct p with
  | case1 s hend => rw [runMany, runMany, if_pos hend, if_pos hend]
  | case2 s hend a t log hrun hlt ih =>
    have hq : q.run s = _ := (h s hs).symm.trans hrun
    rw [runMany, runMany, if_neg hend, if_neg hend, hrun, hq]
    simp only [hlt, if_true, ih (Nat.lt_trans hlt hs)]
  | case3 s hend a t log hrun hlt =>
    have hq : q.run s = _ := (h s hs).symm.trans hrun
    rw [runMany, runMany, if_neg hend, if_neg hend, hrun, hq]
    simp only [hlt, if_false]
  | case4 s hend t log hrun =>
    have hq : q.run s = _ := (h s hs).symm.trans hrun
    rw [runMany, runMany, if_neg hend, if_neg hend, hrun, hq]
  | case5 s hend e t log hrun =>
    have hq : q.run s = _ := (h s hs).symm.trans hrun
    rw [runMany, runMany, if_neg hend, if_neg hend, hrun, hq]

end

/-- All parts agree, and so do the names of the rules in traces. -/
structure Parts.AgreeBelow (bytes : Nat) (A B : Parts) : Prop where
  grammar : A.toGrammar = B.toGrammar
  statement : Lispette.AgreeBelow bytes A.statement B.statement
  expression : Lispette.AgreeBelow bytes A.expression B.expression
  member : Lispette.AgreeBelow bytes A.member B.member

/-- Where parts agree, parsers built alike agree; guarded ones do so on sources of one byte more. -/
theorem Alike.agreeBelow {A B : Parts} {guarded : Bool} {starts : Option (Cursor × Cursor)}
    {α : Type} {p q : Parser α} {bytes : Nat} (hA : A.AllBuilt) (hAB : A.AgreeBelow bytes B)
    (h : Alike A B guarded starts p q) (hstarts : ∀ c d, starts = some (c, d) → c = d) :
    AgreeBelow (if guarded then bytes + 1 else bytes) p q := by
  induction h with
  | statement => exact hAB.statement
  | expression => exact hAB.expression
  | member => exact hAB.member
  | pure a => exact fun s _ ↦ rfl
  | noMatch => exact fun s _ ↦ rfl
  | satisfy ok => exact fun s _ ↦ rfl
  | taking width => exact fun s _ ↦ rfl
  | bind hp _ ihp ihf =>
    intro s hs
    refine run_bind_congr (ihp hstarts s hs) fun a t hmatch ↦ ?_
    have hle := ((hp.built hA).obeys.matched hmatch).remaining_le
    exact ihf a hstarts t (Nat.lt_of_le_of_lt hle hs)
  | orElse _ _ ihp ihq =>
    intro s hs
    exact run_orElse_congr (ihp hstarts s hs) (ihq hstarts s hs)
  | many _ ih => exact run_many_congr (ih hstarts)
  | notFollowedBy _ ih =>
    intro s hs
    simp only [Parser.notFollowedBy, ih hstarts s hs]
  | rule r _ ih =>
    intro s hs
    unfold Grammar.rule
    rw [hAB.grammar]
    split
    · simp only [traced, ih hstarts s hs]
    · exact ih hstarts s hs
  | expect missing _ ih =>
    intro s hs
    obtain rfl := hstarts _ _ rfl
    simp only [Parser.expect, Parser.orFail, ih hstarts s hs]
  | sequence _ ih =>
    intro s hs
    refine run_bind_congr rfl fun c t hhere ↦ ?_
    obtain ⟨rfl, rfl⟩ := matches_here.1 hhere
    -- Both sequences are run here, so they also begin at the same cursor.
    refine ih t t ?_ t hs
    rintro c d ⟨⟩
    rfl
  | guard hconsumes _ _ ihp ihf =>
    intro s hs
    refine run_bind_congr (ihp hstarts s hs) fun a t hmatch ↦ ?_
    -- What was consumed first makes up for the one byte more.
    have hlt := hconsumes s a t hmatch
    have ht : t.remaining < bytes := by
      simp only [if_true] at hs
      omega
    exact ihf a hstarts t ht
  | relax _ ih =>
    intro s hs
    have hs' : s.remaining < bytes + 1 := Nat.lt_succ_of_lt hs
    exact ih hstarts s hs'

/-! ## The equations -/

/-- Unfolding deeper than the source is long changes nothing. -/
theorem Parts.agreeBelow_ofDepth (g : Grammar) {bytes m n : Nat} (hm : bytes ≤ m) (hn : bytes ≤ n) :
    (Parts.ofDepth g m).AgreeBelow bytes (Parts.ofDepth g n) := by
  have hgrammar (depth : Nat) : (Parts.ofDepth g depth).toGrammar = g := by
    cases depth <;> rfl
  induction bytes generalizing m n with
  | zero =>
    refine ⟨(hgrammar m).trans (hgrammar n).symm, ?_, ?_, ?_⟩ <;>
      exact fun s hs ↦ absurd hs (Nat.not_lt_zero _)
  | succ bytes ih =>
    obtain ⟨m, rfl⟩ : ∃ k, m = k + 1 := ⟨m - 1, by omega⟩
    obtain ⟨n, rfl⟩ : ∃ k, n = k + 1 := ⟨n - 1, by omega⟩
    have hparts := ih (Nat.le_of_succ_le_succ hm) (Nat.le_of_succ_le_succ hn)
    have hbuilt := Parts.allBuilt_ofDepth g m
    have hstarts : ∀ c d : Cursor, (none : Option (Cursor × Cursor)) = some (c, d) → c = d := by
      simp
    exact ⟨(hgrammar _).trans (hgrammar _).symm,
      Alike.statementForm.agreeBelow hbuilt hparts hstarts,
      Alike.unary.agreeBelow hbuilt hparts hstarts,
      Alike.memberForm.agreeBelow hbuilt hparts hstarts⟩

theorem Parser.run_anew {α : Type} (p : Cursor → Parser α) (s : Cursor) :
    (⟨fun s ↦ (p s).run s⟩ : Parser α).run s = (p s).run s := rfl

namespace Grammar

variable (g : Grammar)

theorem run_nested {α : Type} (form : Parts → Parser α) (s : Cursor) :
    (g.nested form).run s = (form (Parts.ofDepth g (s.remaining + 1))).run s :=
  Parser.run_anew (fun s ↦ form (Parts.ofDepth g (s.remaining + 1))) s

/-- The rules of the grammar as parts of their own forms. -/
def parts : Parts :=
  { g with statement := g.statement, expression := g.expression, member := g.member }

/-- The grammar runs each part to a depth that suffices for what is left of the source. On short
sources, any fixed depth that suffices gives the same. -/
theorem agreeBelow_parts (bytes : Nat) :
    (Parts.ofDepth g bytes).AgreeBelow bytes g.parts := by
  have hgrammar : (Parts.ofDepth g bytes).toGrammar = g := by
    cases bytes <;> rfl
  refine ⟨hgrammar, fun s hs ↦ ?_, fun s hs ↦ ?_, fun s hs ↦ ?_⟩
  all_goals
    have hdeep : s.remaining + 1 ≤ s.remaining + 1 + 1 := Nat.le_succ _
    have hagree := Parts.agreeBelow_ofDepth g (Nat.succ_le_of_lt hs) hdeep
  · exact hagree.statement s (Nat.lt_succ_self _)
  · exact hagree.expression s (Nat.lt_succ_self _)
  · exact hagree.member s (Nat.lt_succ_self _)

/-- The equation behind the recursion: a form over parts of sufficient depth is the same form over
the grammar itself. -/
theorem nested_eq {α : Type} {form : Parts → Parser α}
    (h : ∀ A B, Alike A B false none (form A) (form B)) : g.nested form = form g.parts := by
  refine congrArg Parser.mk (funext fun s ↦ ?_)
  have hbuilt := Parts.allBuilt_ofDepth g (s.remaining + 1)
  have hagree := g.agreeBelow_parts (s.remaining + 1)
  exact (h _ _).agreeBelow hbuilt hagree (by simp) s (Nat.lt_succ_self _)

theorem statement_eq : g.statement = Form.statement g.parts :=
  g.nested_eq fun _ _ ↦ .relax .statementForm

theorem expression_eq : g.expression = Form.unary g.parts :=
  g.nested_eq fun _ _ ↦ .relax .unary

theorem member_eq : g.member = Form.member g.parts :=
  g.nested_eq fun _ _ ↦ .relax .memberForm

theorem built_nested {α : Type} {form : Parts → Parser α}
    (h : ∀ A B, Alike A B false none (form A) (form B)) : Built none (g.nested form) :=
  .anew fun s ↦ (h _ (Parts.ofDepth g 0)).built (Parts.allBuilt_ofDepth g (s.remaining + 1))

/-- The grammar in place of its own parts. -/
theorem allBuilt_parts : g.parts.AllBuilt where
  statement := g.built_nested fun _ _ ↦ .relax .statementForm
  expression := g.built_nested fun _ _ ↦ .relax .unary
  member := g.built_nested fun _ _ ↦ .relax .memberForm

end Grammar

end Lispette
