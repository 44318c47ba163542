import Lispette.Proofs.Breakage
import Lispette.Proofs.Errors
import Lispette.Proofs.Locality

/-!
# Where errors lie

An error is recorded where a statement broke, or for input that no statement accepts. Either way it
covers some of what that step of the loop has passed. The steps follow each other through the
source, and so do their errors: in order, and without overlap.
-/

namespace Lispette

open Lispette.Parser

/-! ## Errors in a source -/

/-- The error covers some of the source, from one place between characters to another, and names the
line on which it begins. -/
structure SyntaxError.Covers (source : String) (e : SyntaxError) : Prop where
  nonempty : e.start < e.stop
  inside : e.stop ≤ byteLength source.toList
  begins : ∃ before after, source.toList = before ++ after ∧ e.start = byteLength before ∧
    e.line = 1 + before.count '\n'
  ends : ∃ before after, source.toList = before ++ after ∧ e.stop = byteLength before

/-- An error that reaches from one cursor of the source to a later one covers a piece of it. -/
theorem SyntaxError.Covers.of_standsIn {source : String} {a b : Cursor} (ha : a.StandsIn source)
    (hb : b.StandsIn source) (hlt : a.offset < b.offset) (message : String) :
    Covers source ⟨message, a.line, a.offset, b.offset⟩ := by
  obtain ⟨before, hsource, hbefore⟩ := ha
  obtain ⟨before', hsource', hbefore'⟩ := hb
  refine ⟨hlt, ?_, ⟨before, _, hsource, hbefore.offset, hbefore.line⟩,
    ⟨before', _, hsource', hbefore'.offset⟩⟩
  rw [hsource', byteLength_append]
  exact Nat.le_trans (Nat.le_of_eq hbefore'.offset) (Nat.le_add_right _ _)

/-- The errors cover parts of the source between the two offsets, one after the other. -/
structure OrderedErrors (source : String) (low high : Nat) (errors : List SyntaxError) : Prop where
  covers : ∀ e ∈ errors, e.Covers source
  within : ∀ e ∈ errors, low ≤ e.start ∧ e.stop ≤ high
  ordered : errors.Pairwise fun e f ↦ e.stop ≤ f.start

namespace OrderedErrors

variable {source : String} {low middle high : Nat} {errors more : List SyntaxError}

theorem nil : OrderedErrors source low high [] := ⟨by simp, by simp, .nil⟩

theorem singleton {e : SyntaxError} (hcovers : e.Covers source) (hlow : low ≤ e.start)
    (hhigh : e.stop ≤ high) : OrderedErrors source low high [e] :=
  ⟨by simpa using hcovers, by simpa using ⟨hlow, hhigh⟩, List.pairwise_singleton _ _⟩

/-- Errors of two stretches that meet, taken together, are in order over both. -/
theorem append (h : OrderedErrors source low middle errors)
    (hmore : OrderedErrors source middle high more) (hlow : low ≤ middle) (hhigh : middle ≤ high) :
    OrderedErrors source low high (errors ++ more) where
  covers e he := (List.mem_append.1 he).elim (h.covers e) (hmore.covers e)
  within e he := by
    rcases List.mem_append.1 he with he | he
    · exact ⟨(h.within e he).1, Nat.le_trans (h.within e he).2 hhigh⟩
    · exact ⟨Nat.le_trans hlow (hmore.within e he).1, (hmore.within e he).2⟩
  ordered := by
    refine List.pairwise_append.2 ⟨h.ordered, hmore.ordered, fun e he f hf ↦ ?_⟩
    exact Nat.le_trans (h.within e he).2 (hmore.within f hf).1

end OrderedErrors

/-! ## The loop -/

namespace Grammar

variable (g : Grammar) {source : String} {s t : Cursor}

/-- What is reported as unexpected input reaches up to where reading resumes. -/
theorem error_of_matches_skipped {d : SyntaxError} (h : skipped.Matches s (.error d) t) :
    d = ⟨Fault.unexpectedInput.message, s.line, s.offset, s.synchronize.offset⟩ := by
  unfold skipped Matches at h
  dsimp only at h
  split at h
  · cases h.1
  · exact (Expr.error.inj (Reply.matched.inj h.1)).symm

theorem offset_le_of_topLevel {e : Expr} (h : g.topLevel.Matches s e t) : s.offset ≤ t.offset := by
  rcases g.matches_topLevel h with h | ⟨d, u, -, rfl, hreaches, -⟩
  · exact (g.allBuilt_parts.statement.obeys.matched h).offset_le
  · exact hreaches.offset_le

/-- An error covers some of what the step has passed that left it behind. -/
theorem covers_of_topLevel {d : SyntaxError} (hs : s.StandsIn source)
    (h : g.topLevel.Matches s (.error d) t) :
    d.Covers source ∧ s.offset ≤ d.start ∧ d.stop ≤ t.offset := by
  rcases matches_orElse.1 h with h | ⟨-, h⟩
  · rcases matches_salvaged h with h | ⟨e, u, hbroken, herror, rfl⟩
    · cases (g.yields_statement s _ t h).isError_eq_false
    · obtain rfl := Expr.error.inj herror
      obtain ⟨hspan, -⟩ := g.orderly_statement.recovered trivial hbroken
      have hclose := (Cursor.reaches_closeStatement s u).offset_le
      obtain ⟨a, b, message, ha, -, hb, rfl, rfl⟩ :=
        g.allBuilt_parts.statement.obeys.recovered (by simp) hbroken
      exact ⟨.of_standsIn (ha.standsIn hs) (hb.standsIn hs) hspan message, ha.offset_le,
        Nat.le_trans b.reaches_synchronize.offset_le hclose⟩
  · obtain ⟨_, a, hlayout, h⟩ := matches_bind.1 h
    have ha : s.Reaches a := ⟨_, matches_layout.1 hlayout⟩
    obtain ⟨hend, e, -, rfl⟩ := matches_skipped h
    obtain rfl := error_of_matches_skipped h
    have hsync := a.reaches_synchronize
    exact ⟨.of_standsIn (ha.standsIn hs) ((ha.trans hsync).standsIn hs)
      (Cursor.offset_lt_synchronize hend) _, ha.offset_le, Nat.le_refl _⟩

theorem orderedErrors_of_topLevel {e : Expr} (hs : s.StandsIn source)
    (h : g.topLevel.Matches s e t) : OrderedErrors source s.offset t.offset e.error?.toList := by
  cases e with
  | error d =>
    obtain ⟨hcovers, hlow, hhigh⟩ := g.covers_of_topLevel hs h
    exact .singleton hcovers hlow hhigh
  | _ => exact .nil

/-- Each step begins where the one before it ended, so the errors of a chain of steps lie in order
between its ends. -/
theorem orderedErrors_of_chain {body : List Expr} (h : Chain g.topLevel s body t)
    (hs : s.StandsIn source) :
    s.offset ≤ t.offset ∧
      OrderedErrors source s.offset t.offset (body.filterMap Expr.error?) := by
  induction h with
  | nil => exact ⟨Nat.le_refl _, .nil⟩
  | @cons s t u e body _ he _ ih =>
    obtain ⟨hle, hbody⟩ := ih (g.stays_topLevel _ _ _ hs he)
    have hstep := g.offset_le_of_topLevel he
    rw [Expr.filterMap_error?_cons]
    exact ⟨Nat.le_trans hstep hle, (g.orderedErrors_of_topLevel hs he).append hbody hstep hle⟩

end Grammar

/-- The errors of a source cover parts of it that follow each other. -/
theorem parse_errors_ordered (source : String) :
    (∀ e ∈ (parse source).final.errors, e.Covers source) ∧
      (parse source).final.errors.Pairwise fun e f ↦ e.stop ≤ f.start := by
  cases hp : (parse source).program with
  | some p =>
    have hmatch := Grammar.program_parse {} hp
    obtain ⟨-, t, hchain, -⟩ := Grammar.matches_program {} hmatch
    obtain ⟨-, hordered⟩ := Grammar.orderedErrors_of_chain {} hchain
      (Cursor.standsIn_ofSource source)
    have herrors : (parse source).final.errors = p.errors := Grammar.errors_of_program {} hmatch
    rw [herrors]
    exact ⟨hordered.covers, hordered.ordered⟩
  | none =>
    have hfinal : (parse source).final = Cursor.ofSource source :=
      Grammar.cursor_program_of_rejects {} (Grammar.rejects_of_program_eq_none {} hp)
    rw [hfinal]
    exact ⟨by simp [Cursor.ofSource], .nil⟩

end Lispette
