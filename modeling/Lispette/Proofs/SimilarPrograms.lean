import Lispette.Proofs.Errors
import Lispette.Proofs.SimilarForms

/-!
# Programs in similar texts

A source that is read without errors is a chain of statements up to its end. From a similar text the
same statements are read, and then its fixed remainder is left.
-/

namespace Lispette

open Lispette.Parser Grammar

namespace Grammar

variable {g : Grammar}

/-! ## Programs as repetitions -/

theorem matches_program_iff {s t : Cursor} {p : Program} :
    g.program.Matches s p t ↔ ∃ u, (many g.topLevel).Matches s p.body u ∧ p.body ≠ [] ∧
      layout.Matches u () t := by
  have hkept (found body : List Expr) :
      (if found.isEmpty then none else some found) = some body ↔ found = body ∧ body ≠ [] := by
    cases found with
    | nil => simp +contextual [eq_comm]
    | cons e more =>
      simp only [List.isEmpty_cons, Bool.false_eq_true, if_false, Option.some.injEq]
      constructor
      · rintro rfl
        exact ⟨rfl, List.cons_ne_nil _ _⟩
      · exact And.left
  refine matches_rule.trans ?_
  constructor
  · intro h
    obtain ⟨body, u, hbody, hend⟩ := matches_bind.1 h
    obtain ⟨_, v, hlayout, hvalue⟩ := matches_bind.1 hend
    obtain ⟨rfl, rfl⟩ := matches_pure.1 hvalue
    obtain ⟨found, hfound, hfilter⟩ := matches_filterMap.1 hbody
    obtain ⟨rfl, hne⟩ := (hkept found body).1 hfilter
    exact ⟨u, hfound, hne, hlayout⟩
  · rintro ⟨u, hbody, hne, hlayout⟩
    exact matches_bind.2 ⟨p.body, u, matches_filterMap.2 ⟨p.body, hbody, (hkept _ _).2 ⟨rfl, hne⟩⟩,
      matches_bind.2 ⟨(), t, hlayout, matches_pure.2 ⟨rfl, rfl⟩⟩⟩

/-- The loop over the statements of a source settles what the source is read as. -/
theorem parse_of_many {source : String} {body : List Expr} {t : Cursor}
    (h : (many g.topLevel).Matches (Cursor.ofSource source) body t) :
    (g.parse source).program = (if body = [] then none else some ⟨body⟩) ∧
      (g.parse source).final.errors = t.errors := by
  by_cases hbody : body = []
  · subst hbody
    have hnone : (g.parse source).program = none := by
      cases hp : (g.parse source).program with
      | none => rfl
      | some p =>
        obtain ⟨u, hmany, hne, -⟩ := matches_program_iff.1 (g.program_parse hp)
        exact absurd (hmany.unique h).1 hne
    have hfinal : (g.parse source).final = Cursor.ofSource source :=
      g.cursor_program_of_rejects (g.rejects_of_program_eq_none hnone)
    rw [hnone, hfinal, if_pos rfl]
    cases chain_of_matches_many h
    exact ⟨rfl, rfl⟩
  · have hlayout : layout.Matches t () _ := matches_layout.2 rfl
    have hprogram : g.program.Matches (Cursor.ofSource source) ⟨body⟩ _ :=
      matches_program_iff.2 ⟨t, h, hbody, hlayout⟩
    rw [if_neg hbody]
    constructor
    · change (g.program.run (Cursor.ofSource source)).reply.value? = _
      rw [hprogram.1]
      rfl
    · change (g.program.run (Cursor.ofSource source)).cursor.errors = _
      rw [hprogram.2, Cursor.errors_forward]

/-- Every source is read to the end of that loop. -/
theorem exists_matches_many (g : Grammar) (s : Cursor) :
    ∃ body t, (many g.topLevel).Matches s body t := by
  rcases outcome (many g.topLevel) s with hmatch | hrejects | ⟨e, t, hrecovers⟩
  · exact hmatch
  · exact absurd hrejects not_rejects_many
  · obtain ⟨_, _, -, hbroken⟩ := recovers_many hrecovers
    exact absurd hbroken g.not_recovers_topLevel

/-! ## Statements without errors -/

theorem chain_statement {s t : Cursor} {body : List Expr} (h : Chain g.topLevel s body t)
    (hbody : body.filterMap Expr.error? = []) : Chain g.statement s body t := by
  induction h with
  | nil => exact .nil
  | cons hend hmatch _ ih =>
    rw [List.filterMap_eq_nil_iff, List.forall_mem_cons] at hbody
    rcases g.matches_topLevel hmatch with hstatement | ⟨d, u, rfl, -⟩
    · exact .cons hend hstatement (ih (List.filterMap_eq_nil_iff.2 hbody.2))
    · cases hbody.1

/-- Statements that are read one after the other are read by the loop, which then goes on. -/
theorem many_of_chain {s t u : Cursor} {body more : List Expr} (h : Chain g.statement s body t)
    (hmore : (many g.topLevel).Matches t more u) :
    (many g.topLevel).Matches s (body ++ more) u := by
  induction h with
  | nil => exact hmore
  | cons _ hmatch _ ih =>
    have htop : g.topLevel.Matches _ _ _ := matches_orElse.2 (.inl hmatch.salvaged)
    exact matches_many_cons htop (g.consumes_statement _ _ _ hmatch) (ih hmore)

theorem solid_of_matches_statement {s t : Cursor} {e : Expr} (h : g.statement.Matches s e t) :
    Solid t.rest := by
  rw [g.statement_eq] at h
  obtain ⟨_, u, -, hform⟩ := matches_bind.1 (matches_rule.1 h)
  obtain ⟨_, v, -, hend⟩ := matches_bind.1 hform
  obtain ⟨_, w, hlayout, hvalue⟩ := matches_bind.1 hend
  obtain ⟨rfl, rfl⟩ := matches_pure.1 hvalue
  rw [rest_of_matches_layout hlayout]
  exact Text.solid_dropLayout v.rest

theorem solid_of_chain {s t : Cursor} {body : List Expr} (h : Chain g.statement s body t)
    (hne : body ≠ []) : Solid t.rest := by
  induction h with
  | nil => exact absurd rfl hne
  | cons _ hmatch hrest ih =>
    cases hrest with
    | nil => exact solid_of_matches_statement hmatch
    | cons => exact ih (List.cons_ne_nil _ _)

/-- Where the loop over the statements ends, only layout is left. -/
theorem dropLayout_of_matches_many {s t : Cursor} {body : List Expr}
    (h : (many g.topLevel).Matches s body t) : Text.dropLayout t.rest = [] := by
  rcases stop_of_matches_many (fun _ _ _ ↦ g.remaining_lt_of_topLevel) h with hend | hrejects
  · rw [List.isEmpty_iff.1 hend]
    rfl
  · have hlayout : layout.Matches t () _ := matches_layout.2 rfl
    rw [← rest_of_matches_layout hlayout]
    exact List.isEmpty_iff.1 (g.atEnd_of_rejects_topLevel hrejects hlayout)

/-- Where only layout is left, there is no statement, and nothing to complain of. -/
theorem rejects_topLevel_of_layout {s : Cursor} (h : Text.dropLayout s.rest = []) :
    g.topLevel.Rejects s := by
  have hstatement : g.statement.Rejects s :=
    Form.refuses_statement (h ▸ reads_dropLayout s.rest) (by simp) Form.refuses_unary_nil s rfl
  rcases outcome g.topLevel s with ⟨e, t, hmatch⟩ | hrejects | ⟨d, t, hrecovers⟩
  · rcases matches_orElse.1 hmatch with hsalvaged | ⟨-, hunreadable⟩
    · rcases matches_salvaged hsalvaged with hread | ⟨d, u, hbroken, -, -⟩
      · exact absurd hread hstatement.not_matches
      · exact absurd hbroken hstatement.not_recovers
    · obtain ⟨_, u, hlayout, hskipped⟩ := matches_bind.1 hunreadable
      have hend := (matches_skipped hskipped).1
      rw [Cursor.atEnd, rest_of_matches_layout hlayout, h] at hend
      cases hend
  · exact hrejects
  · exact absurd hrecovers g.not_recovers_topLevel

/-- A source of layout alone is read as no program, without errors. -/
theorem parse_of_layout {source : String} (h : Text.dropLayout source.toList = []) :
    (g.parse source).program = none ∧ (g.parse source).final.errors = [] :=
  parse_of_many (matches_many_nil (.inr (rejects_topLevel_of_layout h)))

theorem dropLayout_of_program_eq_none {source : String} (h : (g.parse source).program = none) :
    Text.dropLayout source.toList = [] := by
  obtain ⟨body, t, hbody⟩ := g.exists_matches_many (Cursor.ofSource source)
  obtain ⟨hprogram, -⟩ := parse_of_many hbody
  have hnil : body = [] := by
    by_contra hne
    rw [h, if_neg hne] at hprogram
    cases hprogram
  subst hnil
  have hend := dropLayout_of_matches_many hbody
  cases chain_of_matches_many hbody
  exact hend

theorem reaches_of_chain {s t : Cursor} {body : List Expr} (h : Chain g.statement s body t) :
    s.Reaches t :=
  h.reaches fun hmatch ↦ g.allBuilt_parts.statement.obeys.matched hmatch

/-- A source that is read without errors is a chain of statements up to its end. -/
theorem chain_of_parse {source : String} {p : Program} (hp : (g.parse source).program = some p)
    (herrors : (g.parse source).final.errors = []) :
    p.body ≠ [] ∧ ∃ t, Chain g.statement (Cursor.ofSource source) p.body t ∧ t.rest = [] := by
  have hprogram := g.program_parse hp
  obtain ⟨t, hmany, hne, -⟩ := matches_program_iff.1 hprogram
  have hall : p.body.filterMap Expr.error? = [] := by
    have hrecorded := g.errors_of_program hprogram
    rwa [herrors, Cursor.ofSource, List.nil_append, eq_comm] at hrecorded
  have hchain := chain_statement (chain_of_matches_many hmany) hall
  have hend := dropLayout_of_matches_many hmany
  rw [Text.dropLayout_of_solid (solid_of_chain hchain hne)] at hend
  exact ⟨hne, t, hchain, hend⟩

end Grammar

/-! ## Similar sources -/

namespace Similarity

variable {S : Similarity} {g : Grammar}

theorem chain_statement {s t s' : Cursor} {body : List Expr} (h : Chain g.statement s body t)
    (hne : body ≠ []) (hs : S.At .any s.rest s'.rest) :
    ∃ t', Chain g.statement s' body t' ∧ S.At .layout t.rest t'.rest := by
  induction h generalizing s' with
  | nil => exact absurd rfl hne
  | cons _ hmatch hrest ih =>
    obtain ⟨u', hmatch', hu⟩ := g.carries_statement S hmatch hs
    have hend : s'.atEnd = false := by
      have hs' := rest_ne_nil g.consumes_statement hmatch'
      simpa [Cursor.atEnd] using hs'
    cases hrest with
    | nil => exact ⟨u', .cons hend hmatch' .nil, hu⟩
    | cons =>
      obtain ⟨t', hchain', ht⟩ := ih (List.cons_ne_nil _ _) hu.any
      exact ⟨t', .cons hend hmatch' hchain', ht⟩

/-- From a text similar to a source without errors, the statements of the source are read, up to the
fixed remainder. -/
theorem chain_of_parse {source : String} {p : Program} (hp : (g.parse source).program = some p)
    (herrors : (g.parse source).final.errors = []) {s : Cursor}
    (hs : S.Related source.toList s.rest) :
    p.body ≠ [] ∧ ∃ t, Chain g.statement s p.body t ∧ t.rest = S.finish := by
  obtain ⟨hne, u, hchain, hend⟩ := Grammar.chain_of_parse hp herrors
  obtain ⟨t, hchain', ht⟩ := chain_statement hchain hne (.inl hs)
  refine ⟨hne, t, hchain', ?_⟩
  rcases ht with ⟨hmore, -⟩ | ⟨-, hfinish⟩
  · exact absurd hend hmore
  · exact hfinish

end Similarity

end Lispette
