import Lispette.Proofs.Soundness

/-!
# Errors in programs

The errors that are recorded while a source is read are those that stand among the statements of its
program, in the same order. None stands deeper inside, and none is recorded for a source without a
program.
-/

namespace Lispette

open Lispette.Parser

theorem Expr.error?_eq_some {e : Expr} {d : SyntaxError} : e.error? = some d ↔ e = .error d := by
  cases e <;> simp [error?]

theorem Expr.filterMap_error?_cons (e : Expr) (body : List Expr) :
    (e :: body).filterMap error? = e.error?.toList ++ body.filterMap error? := by
  cases herror : e.error? <;> simp [herror]

namespace Grammar

variable (g : Grammar)

/-- No syntax error stands anywhere inside a statement. -/
theorem IsTopLevel.isError_inside {d e : Expr} (h : IsTopLevel e) (hd : d.Inside e) :
    d.isError = false := by
  obtain ⟨_, hshaped⟩ := h.inside hd
  exact hshaped.isError_eq_false

/-- A step records an error exactly if it leaves that error in place of a statement. -/
theorem errors_of_topLevel {s t : Cursor} {e : Expr} (h : g.topLevel.Matches s e t) :
    t.errors = s.errors ++ e.error?.toList := by
  rcases g.matches_topLevel h with h | ⟨d, u, rfl, rfl, hreaches, -⟩
  · have hread : e.error? = none := by
      simpa [Expr.isError] using (g.yields_statement s e t h).isError_eq_false
    have hreaches : s.Reaches t := g.allBuilt_parts.statement.obeys.matched h
    rw [hreaches.errors_eq, hread, Option.toList_none, List.append_nil]
  · rw [Cursor.withError, hreaches.errors_eq]
    rfl

/-- Step by step, the record grows by the errors that stand in place of statements. -/
theorem errors_of_chain {s t : Cursor} {body : List Expr} (h : Chain g.topLevel s body t) :
    t.errors = s.errors ++ body.filterMap Expr.error? := by
  induction h with
  | nil => simp
  | @cons s t u e body _ he _ ih =>
    calc
      u.errors = t.errors ++ body.filterMap Expr.error? := ih
      _ = s.errors ++ (e.error?.toList ++ body.filterMap Expr.error?) := by
        rw [g.errors_of_topLevel he, List.append_assoc]
      _ = s.errors ++ (e :: body).filterMap Expr.error? := by
        rw [Expr.filterMap_error?_cons]

theorem errors_of_program {s t : Cursor} {p : Program} (h : g.program.Matches s p t) :
    t.errors = s.errors ++ p.errors := by
  obtain ⟨-, u, hchain, hreaches⟩ := g.matches_program h
  rw [hreaches.errors_eq, g.errors_of_chain hchain, Program.errors]

end Grammar

/-- A source with a program is read to its end, and the errors among the statements of the program
are those that the final cursor has recorded, in the same order; no error stands below them. A
source without a program is left untouched and has no errors. -/
theorem parse_errors (source : String) :
    match (parse source).program with
    | some p =>
      p.errors = (parse source).final.errors ∧
        (∀ e ∈ p.body, ∀ d : Expr, d.Inside e → d.isError = false) ∧
        (parse source).final.atEnd = true
    | none => (parse source).final.errors = [] ∧ (parse source).final = Cursor.ofSource source := by
  cases hp : (parse source).program with
  | some p =>
    have hmatch := Grammar.program_parse {} hp
    have htop := (Grammar.yields_program {} _ p _ hmatch).2
    have herrors := Grammar.errors_of_program {} hmatch
    exact ⟨herrors.symm, fun e he d hd ↦ (htop e he).isError_inside hd,
      (Grammar.matches_program {} hmatch).1⟩
  | none =>
    have hfinal : (parse source).final = Cursor.ofSource source :=
      Grammar.cursor_program_of_rejects {} (Grammar.rejects_of_program_eq_none {} hp)
    rw [hfinal]
    exact ⟨rfl, rfl⟩

end Lispette
