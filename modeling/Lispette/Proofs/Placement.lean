import Lispette.Proofs.Locality

/-!
# Positions at any time

Offsets count bytes, columns count characters and lines count newlines, so the three counters of a
position could come apart on text that is not plain ASCII. They do not: wherever moving, recording
errors and running rules lead, the offset lies between two characters of the source, and line and
column are those of the text before it.
-/

namespace Lispette

/-! ## The text before an offset -/

/-- The characters of a text that lie wholly before the given byte offset. -/
def textBefore : Nat → List Char → List Char
  | _, [] => []
  | offset, c :: cs =>
    if c.utf8Size ≤ offset then c :: textBefore (offset - c.utf8Size) cs else []

/-- At a boundary between characters, the text before an offset is the part of the text that is as
long. -/
theorem textBefore_byteLength (before rest : List Char) :
    textBefore (byteLength before) (before ++ rest) = before := by
  induction before with
  | nil =>
    cases rest with
    | nil => rfl
    | cons c cs =>
      have hc : ¬ c.utf8Size ≤ 0 := Nat.not_le.2 c.utf8Size_pos
      rw [byteLength, List.nil_append, textBefore, if_neg hc]
  | cons c cs ih =>
    have hc : c.utf8Size ≤ c.utf8Size + byteLength cs := Nat.le_add_right _ _
    rw [byteLength, List.cons_append, textBefore, if_pos hc, Nat.add_sub_cancel_left, ih]

theorem utf8ByteSize_ofList (text : List Char) :
    (String.ofList text).utf8ByteSize = byteLength text := by
  induction text with
  | nil => rfl
  | cons c cs ih =>
    calc
      (String.ofList (c :: cs)).utf8ByteSize =
          (String.ofList [c] ++ String.ofList cs).utf8ByteSize := by
        rw [← String.ofList_append, List.singleton_append]
      _ = c.utf8Size + byteLength cs := by
        rw [String.utf8ByteSize_append, ih]
        exact congrArg (· + _) String.utf8ByteSize_singleton

namespace Cursor

/-! ## Positions -/

/-- The position of the cursor is one of the source, and its counters agree: the offset lies between
two characters, and line and column are counted off the text before it. -/
structure Placed (source : String) (s : Cursor) : Prop where
  offset_le : s.offset ≤ source.utf8ByteSize
  boundary : String.Pos.Raw.IsValid source ⟨s.offset⟩
  line : s.line = 1 + (textBefore s.offset source.toList).count '\n'
  column :
    s.column = ((textBefore s.offset source.toList).reverse.takeWhile (· ≠ '\n')).length

theorem StandsIn.placed {source : String} {s : Cursor} (h : s.StandsIn source) :
    s.Placed source := by
  obtain ⟨before, hsource, hoffset, hline, hcolumn⟩ := h
  have htext : source = String.ofList before ++ String.ofList s.rest := by
    rw [← String.ofList_append, ← hsource, String.ofList_toList]
  have hbefore : textBefore s.offset source.toList = before := by
    rw [hoffset, hsource, textBefore_byteLength]
  have hend : (String.ofList before).utf8ByteSize = s.offset := by
    rw [utf8ByteSize_ofList, hoffset]
  refine ⟨?_, ?_, ?_, ?_⟩
  · rw [htext, String.utf8ByteSize_append, hend]
    exact Nat.le_add_right _ _
  · apply String.Pos.Raw.isValid_iff_exists_append.2
    refine ⟨_, _, htext, ?_⟩
    rw [← hend]
    rfl
  · rw [hbefore, hline]
  · rw [hbefore, hcolumn]

end Cursor

/-! ## Rules -/

open Lispette.Parser

/-- Whatever the outcome, a parser leaves a cursor that stands in the source. -/
theorem Parser.Built.standsIn_run {α : Type} {p : Parser α} {source : String} {s : Cursor}
    (h : Built none p) (hs : s.StandsIn source) : (p.run s).cursor.StandsIn source := by
  rcases p.outcome s with ⟨a, t, hmatch⟩ | hrejects | ⟨e, t, hbroken⟩
  · rw [hmatch.2]
    exact h.stays s a t hs hmatch
  · rw [h.obeys.rejected hrejects]
    exact hs
  · rw [hbroken.2]
    exact ((h.obeys.recovered (by simp) hbroken).contract hs).1

namespace Grammar

variable (g : Grammar) {source : String} {s : Cursor}

/-- The loop over statements stays in the source, and where it finds none nothing has moved. -/
theorem standsIn_run_program (hs : s.StandsIn source) :
    (g.program.run s).cursor.StandsIn source := by
  rcases g.program.outcome s with ⟨p, t, hmatch⟩ | hrejects | ⟨e, t, hbroken⟩
  · obtain ⟨-, u, hchain, hreaches⟩ := g.matches_program hmatch
    rw [hmatch.2]
    exact hreaches.standsIn (hchain.standsIn g.stays_topLevel hs)
  · rw [g.cursor_program_of_rejects hrejects]
    exact hs
  · exact absurd hbroken g.not_recovers_program

theorem standsIn_run_nested {α : Type} {form : Parts → Parser α}
    (h : ∀ A B, Alike A B false none (form A) (form B)) (hs : s.StandsIn source) :
    ((g.nested form).run s).cursor.StandsIn source :=
  (g.built_nested h).standsIn_run hs

/-- A parser without parts. -/
theorem standsIn_run_atom {α : Type} {p : Parser α}
    (h : Alike (Parts.ofDepth g 0) (Parts.ofDepth g 0) false none p p) (hs : s.StandsIn source) :
    (p.run s).cursor.StandsIn source :=
  (h.built (Parts.allBuilt_ofDepth g 0)).standsIn_run hs

theorem standsIn_run_entry {α : Type} (entry : Entry α) (hs : s.StandsIn source) :
    ((entry.parser g).run s).cursor.StandsIn source := by
  cases entry with
  | program => exact g.standsIn_run_program hs
  | statement => exact g.standsIn_run_nested (fun _ _ ↦ .relax .statementForm) hs
  | definition => exact g.standsIn_run_nested (fun _ _ ↦ .relax Alike.definition.alike) hs
  | print => exact g.standsIn_run_nested (fun _ _ ↦ .relax Alike.print.alike) hs
  | block => exact g.standsIn_run_nested (fun _ _ ↦ .relax Alike.block.alike) hs
  | body => exact g.standsIn_run_nested (fun _ _ ↦ .body) hs
  | expression => exact g.standsIn_run_nested (fun _ _ ↦ .relax .unary) hs
  | unary => exact g.standsIn_run_nested (fun _ _ ↦ .relax .unary) hs
  | member => exact g.standsIn_run_nested (fun _ _ ↦ .relax .memberForm) hs
  | primary => exact g.standsIn_run_nested (fun _ _ ↦ .relax .primary) hs
  | array => exact g.standsIn_run_nested (fun _ _ ↦ .relax Alike.array.alike) hs
  | cond => exact g.standsIn_run_nested (fun _ _ ↦ .relax Alike.cond.alike) hs
  | closure => exact g.standsIn_run_nested (fun _ _ ↦ .relax Alike.closure.alike) hs
  | binaryCall => exact g.standsIn_run_nested (fun _ _ ↦ .relax Alike.binaryCall.alike) hs
  | binaryOperator => exact standsIn_run_atom {} .binaryOperator hs
  | methodChain => exact g.standsIn_run_nested (fun _ _ ↦ .relax Alike.methodChain.alike) hs
  | blockExpression =>
    exact g.standsIn_run_nested (fun _ _ ↦ .relax Alike.blockExpression.alike) hs
  | call => exact g.standsIn_run_nested (fun _ _ ↦ .relax Alike.call.alike) hs
  | number => exact g.standsIn_run_atom .number hs
  | string => exact g.standsIn_run_atom (.relax Alike.string.alike) hs
  | boolean => exact g.standsIn_run_atom .boolean hs
  | nil => exact g.standsIn_run_atom .nil hs
  | name => exact standsIn_run_atom {} .name hs
  | identifier => exact g.standsIn_run_atom .identifier hs
  | keyword word => exact standsIn_run_atom {} (.keyword word) hs

end Grammar

/-! ## Whole histories -/

namespace Cursor

/-- The cursors that come up while a source is worked on: by moving, by recording errors and by
running rules, in any order. A statement is closed from an earlier cursor of the same history. -/
inductive Visited (source : String) : Cursor → Prop where
  | ofSource : Visited source (ofSource source)
  | advance {s : Cursor} : Visited source s → Visited source s.advance
  | advanceBytes {s : Cursor} (bytes : Nat) :
    Visited source s → Visited source (s.advanceBytes bytes)
  | withError {s : Cursor} (e : SyntaxError) : Visited source s → Visited source (s.withError e)
  | synchronize {s : Cursor} : Visited source s → Visited source s.synchronize
  | closeStatement {start s : Cursor} : Visited source start → Visited source s →
    start.offset ≤ s.offset → Visited source (closeStatement start s)
  | run {s : Cursor} {α : Type} (g : Grammar) (entry : Entry α) :
    Visited source s → Visited source ((entry.parser g).run s).cursor

theorem Visited.standsIn {source : String} {s : Cursor} (h : s.Visited source) :
    s.StandsIn source := by
  induction h with
  | ofSource => exact standsIn_ofSource source
  | advance _ ih => exact ih.advance
  | advanceBytes bytes _ ih => exact (reaches_forward _ _).standsIn ih
  | withError e _ ih => exact ih.withError e
  | synchronize _ ih => exact (reaches_synchronize _).standsIn ih
  | closeStatement _ _ _ _ ih => exact (reaches_closeStatement _ _).standsIn ih
  | run g entry _ ih => exact g.standsIn_run_entry entry ih

/-- At every time the offset is that of a place between two characters of the source, the line is
one more than the newlines before it, and the column is the number of characters since the last of
them. -/
theorem placed_of_visited {source : String} {s : Cursor} (h : s.Visited source) :
    s.Placed source :=
  h.standsIn.placed

/-- One byte into a character of two, which is rounded up to the whole of it, and from there over a
call that breaks. -/
theorem placed_of_visited_broken_call :
    ∃ s : Cursor, s.toPosition = ⟨10, 2, 4⟩ ∧ s.Visited "é(f\nx ]λ" ∧ s.Placed "é(f\nx ]λ" := by
  have hbegun : ((Cursor.ofSource "é(f\nx ]λ").advanceBytes 1).Visited "é(f\nx ]λ" :=
    .advanceBytes 1 .ofSource
  have h := hbegun.run {} Entry.call
  exact ⟨_, by decide +kernel, h, placed_of_visited h⟩

end Cursor

end Lispette
