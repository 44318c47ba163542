import Lispette.Compiler
import Lispette.Proofs.LayoutExtent
import Lispette.Proofs.SimilarPrograms

/-!
# Outcomes of compilation

A source is compiled, or refused for its syntax errors, or refused since it holds no statement. The
last happens exactly if the source is layout from end to end: anything else either begins a
statement or is reported. A source that is refused for its errors still has a program, in which the
errors stand in the order in which they are listed.
-/

namespace Lispette

/-! ## Texts of layout alone -/

namespace Text

/-- White space and comments, one after the other. A comment begins with a semicolon and runs to the
next newline, or to the end of the text. -/
inductive IsLayout : List Char → Prop where
  | nil : IsLayout []
  | space {c : Char} {text : List Char} : isSpace c = true → IsLayout text → IsLayout (c :: text)
  | comment {words text : List Char} : '\n' ∉ words → (∀ c ∈ text.head?, c = '\n') →
    IsLayout text → IsLayout (';' :: words ++ text)

theorem isLayout_iff_layoutBefore {text : List Char} : IsLayout text ↔ LayoutBefore [] text := by
  constructor
  · intro h
    induction h with
    | nil => exact .nil
    | space hspace _ ih => exact .space hspace ih
    | comment hwords hrest _ ih => exact .comment hwords (by rwa [List.append_nil]) ih
  · intro h
    induction h with
    | nil => exact .nil
    | space hspace _ ih => exact .space hspace ih
    | comment hwords hrest _ ih => exact .comment hwords (by rwa [List.append_nil] at hrest) ih

/-- Layout described on its own, and what the scanner skips: a text is layout alone exactly if
skipping leaves nothing of it. -/
theorem isLayout_iff {text : List Char} : IsLayout text ↔ dropLayout text = [] := by
  rw [isLayout_iff_layoutBefore]
  constructor
  · intro h
    have hwidth := h.layoutWidth_append
    rw [List.append_nil] at hwidth
    rw [dropLayout, hwidth, layoutWidth, Nat.add_zero, List.drop_length]
  · intro h
    obtain ⟨skipped, rest, rfl, hlayout, hsolid⟩ := exists_layoutBefore text
    rw [dropLayout, hlayout.layoutWidth_append, layoutWidth_of_solid hsolid, Nat.add_zero,
      List.drop_left] at h
    rwa [h, List.append_nil, ← h]

end Text

/-! ## Programs and refusals -/

/-- There is no program exactly if there is nothing to read. -/
theorem Grammar.program_eq_none_iff (g : Grammar) (source : String) :
    (g.parse source).program = none ↔ Text.IsLayout source.toList := by
  rw [Text.isLayout_iff]
  exact ⟨g.dropLayout_of_program_eq_none, fun h ↦ (g.parse_of_layout h).1⟩

theorem Program.isError_of_errors_eq_nil {p : Program} (h : p.errors = []) {e : Expr}
    (he : e ∈ p.body) : e.isError = false := by
  have hnone : e.error? = none := List.filterMap_eq_nil_iff.1 h e he
  rw [Expr.isError, hnone, Option.isSome_none]

/-- A source is refused as empty exactly if it is layout from end to end. Otherwise it is refused if
errors were recorded, and its program then holds those errors; and if there are none, the code is
that of a program without errors at any depth. -/
theorem compile_outcome (source : String) :
    (compile source = .error .emptyProgram ↔ Text.IsLayout source.toList) ∧
      match compile source with
      | .error .emptyProgram => (parse source).final.errors = [] ∧ (parse source).program = none
      | .error (.malformed errors found) =>
        errors ≠ [] ∧ errors = (parse source).final.errors ∧
          ∃ p, found = some p ∧ (parse source).program = some p ∧ p.errors = errors
      | .ok code =>
        (parse source).final.errors = [] ∧
          ∃ p, (parse source).program = some p ∧ p.body ≠ [] ∧ code = generate p ∧
            ∀ e ∈ p.body, e.isError = false ∧ ∀ d : Expr, d.Inside e → d.isError = false := by
  have hnone : (parse source).program = none ↔ Text.IsLayout source.toList :=
    Grammar.program_eq_none_iff {} source
  cases hp : (parse source).program with
  | none =>
    have herrors : (parse source).final.errors = [] :=
      (Grammar.parse_of_layout (Text.isLayout_iff.1 (hnone.1 hp))).2
    have hcompile : compile source = .error .emptyProgram := by simp [compile, herrors, hp]
    simp [hcompile, herrors, hnone.1 hp]
  | some p =>
    have hmatch := Grammar.program_parse {} hp
    have herrors : (parse source).final.errors = p.errors := Grammar.errors_of_program {} hmatch
    have hlayout : ¬ Text.IsLayout source.toList := by simp [← hnone, hp]
    obtain ⟨hbody, htop⟩ := Grammar.yields_program {} _ p _ hmatch
    by_cases hclean : p.errors = []
    · have hcompile : compile source = .ok (generate p) := by simp [compile, herrors, hclean, hp]
      have hread : ∀ e ∈ p.body, e.isError = false ∧ ∀ d : Expr, d.Inside e → d.isError = false :=
        fun e he ↦ ⟨Program.isError_of_errors_eq_nil hclean he, fun d ↦ (htop e he).isError_inside⟩
      simpa [hcompile, hlayout, herrors, hclean, hbody] using hread
    · have hcompile : compile source = .error (.malformed p.errors (some p)) := by
        simp [compile, herrors, hclean, hp]
      simp [hcompile, hlayout, herrors, hclean]

end Lispette
