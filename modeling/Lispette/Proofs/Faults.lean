import Lispette.Proofs.Alike
import Lispette.Proofs.ErrorSpans

/-!
# What errors say

Where a form breaks, its error says which of its parts is missing. So there are only as many
messages as there are faults, whatever the source holds, and each of them fits on one line.
-/

namespace Lispette

open Lispette.Parser Grammar

/-- The message of the error is that of some fault. -/
def SyntaxError.NamesFault (e : SyntaxError) : Prop := ∃ fault : Fault, e.message = fault.message

theorem Fault.newline_not_mem_message (fault : Fault) : '\n' ∉ fault.message.toList := by
  cases fault <;> simp [message]

/-! ## Parsers -/

/-- Whatever breaks the parser, its error names a fault. -/
def Parser.NamesFaults {α : Type} (p : Parser α) : Prop :=
  ∀ s e t, p.Recovers s e t → e.NamesFault

structure Parts.NamesFaults (A : Parts) : Prop where
  statement : A.statement.NamesFaults
  expression : A.expression.NamesFaults
  member : A.member.NamesFaults

/-- A form breaks where one of its parts does, or where it expects a part that is missing. -/
theorem Alike.namesFaults {A B : Parts} (hA : A.NamesFaults) {guarded : Bool}
    {starts : Option (Cursor × Cursor)} {α : Type} {p q : Parser α}
    (h : Alike A B guarded starts p q) : p.NamesFaults := by
  have hbind {α β : Type} {p : Parser α} {f : α → Parser β} (hp : p.NamesFaults)
      (hf : ∀ a, (f a).NamesFaults) : (p >>= f).NamesFaults := by
    intro s e u h
    rcases recovers_bind.1 h with h | ⟨a, t, -, h⟩
    · exact hp s e u h
    · exact hf a t e u h
  induction h with
  | statement => exact hA.statement
  | expression => exact hA.expression
  | member => exact hA.member
  | pure a => exact fun s e t h ↦ absurd h not_recovers_pure
  | noMatch => exact fun s e t h ↦ absurd h not_recovers_noMatch
  | satisfy ok => exact fun s e t h ↦ absurd h not_recovers_satisfy
  | taking width => exact fun s e t h ↦ absurd h not_recovers_taking
  | bind _ _ ihp ihf => exact hbind ihp ihf
  | orElse _ _ ihp ihq =>
    intro s e t h
    rcases recovers_orElse.1 h with h | ⟨-, h⟩
    · exact ihp s e t h
    · exact ihq s e t h
  | many _ ih =>
    intro s e u h
    obtain ⟨items, t, -, h⟩ := recovers_many h
    exact ih t e u h
  | notFollowedBy _ _ => exact fun s e t h ↦ absurd h not_recovers_notFollowedBy
  | rule r _ ih => exact fun s e t h ↦ ih s e t (recovers_rule.1 h)
  | expect missing _ ih =>
    intro s e t h
    rcases recovers_orFail h with h | ⟨rfl, -⟩
    · exact ih s e t h
    · exact ⟨missing, rfl⟩
  | sequence _ ih => exact hbind (fun s e t h ↦ absurd h not_recovers_here) fun c ↦ ih c c
  | guard _ _ _ ihp ihf => exact hbind ihp ihf
  | relax _ ih => exact ih

namespace Grammar

variable (g : Grammar)

/-- By induction on the depth, since the parts of one depth are the forms over those below it. -/
theorem namesFaults_ofDepth (depth : Nat) : (Parts.ofDepth g depth).NamesFaults := by
  induction depth with
  | zero =>
    have hnone : (noMatch : Parser Expr).NamesFaults := fun s e t h ↦ absurd h not_recovers_noMatch
    exact ⟨hnone, hnone, hnone⟩
  | succ depth ih =>
    let A := Parts.ofDepth g depth
    have hstatement : Alike A A true none (Form.statement A) (Form.statement A) := .statementForm
    have hunary : Alike A A true none (Form.unary A) (Form.unary A) := .unary
    have hmember : Alike A A true none (Form.member A) (Form.member A) := .memberForm
    exact ⟨hstatement.namesFaults ih, hunary.namesFaults ih, hmember.namesFaults ih⟩

theorem namesFaults_nested {α : Type} {form : Parts → Parser α}
    (h : ∀ A, Alike A A false none (form A) (form A)) : (g.nested form).NamesFaults := by
  intro s e t hbroken
  rw [Recovers, g.run_nested] at hbroken
  exact (h _).namesFaults (g.namesFaults_ofDepth (s.remaining + 1)) s e t hbroken

theorem namesFaults_statement : g.statement.NamesFaults :=
  g.namesFaults_nested fun _ ↦ .relax .statementForm

/-! ## Programs -/

/-- An error among the statements of a program stands where a statement broke, or for input that is
no statement. -/
theorem yields_topLevel_error : Yields g.topLevel fun e ↦ ∀ d ∈ e.error?, d.NamesFault := by
  intro s e t h d hd
  obtain rfl := Expr.error?_eq_some.1 hd
  rcases matches_orElse.1 h with h | ⟨-, h⟩
  · rcases matches_salvaged h with h | ⟨d', u, hbroken, herror, -⟩
    · cases (g.yields_statement s _ t h).isError_eq_false
    · obtain rfl := Expr.error.inj herror
      exact g.namesFaults_statement s d u hbroken
  · obtain ⟨_, a, -, h⟩ := matches_bind.1 h
    obtain rfl := error_of_matches_skipped h
    exact ⟨.unexpectedInput, rfl⟩

theorem yields_program_errors : Yields g.program fun p ↦ ∀ d ∈ p.errors, d.NamesFault := by
  refine .rule g _ <| g.yields_topLevel_error.oneOrMore.bind fun body hbody ↦
    .next fun _ ↦ .pure fun d hd ↦ ?_
  obtain ⟨e, he, hd⟩ := List.mem_filterMap.1 hd
  exact hbody.2 e he d hd

end Grammar

end Lispette
