import Lispette.Proofs.Similarity

/-!
# How far layout reaches

Layout is skipped in a single pass, which comes to the same as taking one piece after the other: a
run of white space, or a comment. What is skipped is all the layout there, and no other run of white
space and comments goes further. Where a comment ends depends on what follows, since it takes
everything up to the end of its line. Behind the layout stands the end of the source, or a character
that is neither white space nor the beginning of a comment, so that skipping layout once more stays
where it is.
-/

namespace Lispette

open Lispette.Parser

namespace Text

/-! ## Comments -/

/-- Inside a comment all characters are passed up to the end of the line. -/
theorem layoutWidth_words {words : List Char} (h : '\n' ∉ words) (text : List Char) :
    layoutWidth true (words ++ text) = words.length + layoutWidth true text := by
  induction words with
  | nil => simp
  | cons c words ih =>
    obtain ⟨hc, hwords⟩ := not_or.1 (mt List.mem_cons.2 h)
    simp only [List.cons_append, layoutWidth, Ne.symm hc, if_false, Bool.true_or, if_true,
      ih hwords, List.length_cons]
    omega

/-- A comment is skipped up to the end of its line, along with what layout comes after it. -/
theorem layoutWidth_comment {words text : List Char} (hwords : '\n' ∉ words)
    (htext : ∀ c ∈ text.head?, c = '\n') :
    layoutWidth false (';' :: words ++ text) =
      (';' :: words).length + layoutWidth false text := by
  -- At the end of its line it makes no difference whether a comment came before.
  have hline : layoutWidth true text = layoutWidth false text := by
    cases text with
    | nil => rfl
    | cons c text => simp [layoutWidth, htext c rfl]
  rw [List.cons_append, layoutWidth, if_neg (by decide), if_pos (by simp),
    layoutWidth_words hwords, hline, List.length_cons]
  omega

/-! ## Layout in front of a text -/

/-- White space and comments, one after the other, with `rest` behind them. A comment begins with a
semicolon and runs to the next newline, or to the end of everything. -/
inductive LayoutBefore (rest : List Char) : List Char → Prop where
  | nil : LayoutBefore rest []
  | space {c : Char} {text : List Char} : isSpace c = true → LayoutBefore rest text →
    LayoutBefore rest (c :: text)
  | comment {words text : List Char} : '\n' ∉ words → (∀ c ∈ (text ++ rest).head?, c = '\n') →
    LayoutBefore rest text → LayoutBefore rest (';' :: words ++ text)

/-- Layout that stands in front is skipped, along with all that comes after it. -/
theorem LayoutBefore.layoutWidth_append {rest text : List Char} (h : LayoutBefore rest text) :
    layoutWidth false (text ++ rest) = text.length + layoutWidth false rest := by
  induction h with
  | nil => simp
  | space hspace _ ih =>
    rw [List.cons_append, layoutWidth_space hspace, ih, List.length_cons]
    omega
  | comment hwords hrest _ ih =>
    rw [List.append_assoc, layoutWidth_comment hwords hrest, ih, List.length_append, Nat.add_assoc]

/-- Layout with more layout behind it. What stands behind the first part decides where its last
comment ends, and that does not change. -/
theorem LayoutBefore.append {rest text text' : List Char} (h : LayoutBefore (text' ++ rest) text)
    (h' : LayoutBefore rest text') : LayoutBefore rest (text ++ text') := by
  induction h with
  | nil => exact h'
  | space hspace _ ih => exact .space hspace ih
  | comment hwords hrest _ ih =>
    rw [List.append_assoc]
    exact .comment hwords (by rwa [List.append_assoc]) ih

theorem layoutBefore_of_spaces {spaces : List Char} (h : ∀ c ∈ spaces, isSpace c = true)
    (rest : List Char) : LayoutBefore rest spaces := by
  induction spaces with
  | nil => exact .nil
  | cons c spaces ih =>
    obtain ⟨hc, h⟩ := List.forall_mem_cons.1 h
    exact .space hc (ih h)

/-! ## Pieces of layout -/

/-- One piece of layout: a run of white space, or a comment up to the end of its line. -/
def pieceWidth : List Char → Nat
  | [] => 0
  | c :: cs =>
    if isSpace c then 1 + (cs.takeWhile isSpace).length
    else if c = ';' then 1 + (cs.takeWhile (· ≠ '\n')).length
    else 0

/-- A text either begins with a piece of layout, or with none and then with something else. -/
theorem pieceWidth_cases (text : List Char) :
    (∃ piece rest, text = piece ++ rest ∧ pieceWidth text = piece.length ∧ piece ≠ [] ∧
      LayoutBefore rest piece) ∨ pieceWidth text = 0 ∧ Solid text := by
  cases text with
  | nil => exact .inr ⟨rfl, by simp [Solid]⟩
  | cons c cs =>
    by_cases hspace : isSpace c = true
    · refine .inl ⟨c :: cs.takeWhile isSpace, cs.dropWhile isSpace, ?_, ?_, by simp, ?_⟩
      · rw [List.cons_append, List.takeWhile_append_dropWhile]
      · rw [pieceWidth, if_pos hspace, List.length_cons, Nat.add_comm]
      · exact .space hspace (layoutBefore_of_spaces (fun _ ↦ List.mem_takeWhile_imp) _)
    by_cases hsemicolon : c = ';'
    · subst hsemicolon
      -- The words of a comment are what stands before the next newline.
      have hwords : '\n' ∉ cs.takeWhile (· ≠ '\n') := fun hmem ↦ by
        simpa using List.mem_takeWhile_imp hmem
      have hline : ∀ d ∈ (cs.dropWhile (· ≠ '\n')).head?, d = '\n' := fun d hd ↦ by
        simpa using head_dropWhile (· ≠ '\n') cs d hd
      refine .inl ⟨';' :: cs.takeWhile (· ≠ '\n') ++ [], cs.dropWhile (· ≠ '\n'), ?_, ?_, by simp,
        .comment hwords hline .nil⟩
      · rw [List.append_nil, List.cons_append, List.takeWhile_append_dropWhile]
      · rw [List.append_nil, pieceWidth, if_neg hspace, if_pos rfl, List.length_cons, Nat.add_comm]
    · exact .inr ⟨by rw [pieceWidth, if_neg hspace, if_neg hsemicolon],
        solid_cons (Bool.eq_false_iff.2 hspace) hsemicolon⟩

/-- Every text begins with layout, of which there may be none, and goes on with something else. -/
theorem exists_layoutBefore (text : List Char) :
    ∃ skipped rest, text = skipped ++ rest ∧ LayoutBefore rest skipped ∧ Solid rest := by
  induction hlength : text.length using Nat.strong_induction_on generalizing text with
  | _ n ih =>
    subst hlength
    rcases pieceWidth_cases text with ⟨piece, more, rfl, -, hne, hpiece⟩ | ⟨-, hsolid⟩
    · have hshorter : more.length < (piece ++ more).length := by
        have hpositive := List.length_pos_iff.2 hne
        rw [List.length_append]
        omega
      obtain ⟨skipped, rest, rfl, hlayout, hsolid⟩ := ih more.length hshorter more rfl
      exact ⟨piece ++ skipped, rest, by rw [List.append_assoc], hpiece.append hlayout, hsolid⟩
    · exact ⟨[], text, rfl, .nil, hsolid⟩

end Text

/-! ## Skipping layout -/

theorem events_lexeme (width : List Char → Nat) (s : Cursor) :
    ((lexeme width).run s).events = [] := by
  cases hempty : (s.rest.take (width s.rest)).isEmpty <;>
    simp only [lexeme, filterMap, taking, bind_eq, andThen, hempty] <;> rfl

/-- Piece after piece, all the layout is taken. -/
theorem run_many_pieces (s : Cursor) :
    ∃ pieces, (many (lexeme Text.pieceWidth)).run s =
      ⟨.matched pieces, s.forward (Text.layoutWidth false s.rest), []⟩ := by
  induction hlength : s.rest.length using Nat.strong_induction_on generalizing s with
  | _ n ih =>
    subst hlength
    rcases Text.pieceWidth_cases s.rest with
      ⟨piece, rest, hrest, hwidth, hne, hpiece⟩ | ⟨hwidth, hsolid⟩
    · have hpositive := List.length_pos_iff.2 hne
      have hmatch : (lexeme Text.pieceWidth).Matches s piece (s.forward piece.length) := by
        rw [matches_lexeme, hwidth, hrest, List.take_left]
        exact ⟨rfl, hne, rfl⟩
      have hmore : (s.forward piece.length).rest = rest := by
        rw [Cursor.rest_forward, hrest, List.drop_left]
      have hless : (s.forward piece.length).remaining < s.remaining := by
        have hbytes := length_le_byteLength piece
        rw [Cursor.remaining_eq, Cursor.remaining_eq, hmore, hrest, byteLength_append]
        omega
      obtain ⟨pieces, hpieces⟩ := ih _ (by simp [hrest, hpositive]) (s.forward piece.length) rfl
      refine ⟨piece :: pieces, ?_⟩
      rw [run_many_of_matches (Cursor.atEnd_of_remaining_lt hless) hmatch, if_pos hless, hpieces,
        events_lexeme, hmore, hrest, hpiece.layoutWidth_append, Cursor.forward_add]
      rfl
    · rw [layoutWidth_of_solid hsolid]
      cases hend : s.atEnd with
      | true => exact ⟨[], run_many_of_atEnd hend⟩
      | false =>
        have hno : (lexeme Text.pieceWidth).Rejects s := by
          rw [rejects_lexeme, hwidth, List.take_zero]
        exact ⟨[], by rw [run_many_of_rejects hend hno, events_lexeme, Cursor.forward]⟩

/-- Skipping layout in a single pass is repeating one piece of it: the two parsers are the same. -/
theorem layout_eq_pieces : layout = discard (many (lexeme Text.pieceWidth)) := by
  refine congrArg Parser.mk (funext fun s ↦ ?_)
  obtain ⟨pieces, hpieces⟩ := run_many_pieces s
  rw [hpieces]
  rfl

/-- Layout matches everywhere. It takes the longest text in front that is white space and comments,
and what is then left begins with neither, so that there is nothing to take a second time. -/
theorem layout_takes_longest (s : Cursor) :
    ∃ text rest, s.rest = text ++ rest ∧ Text.LayoutBefore rest text ∧
      (∀ text' rest', s.rest = text' ++ rest' → Text.LayoutBefore rest' text' →
        text'.length ≤ text.length) ∧
      layout.Matches s () (s.forward text.length) ∧
      (rest = [] ∨ ∃ c ∈ rest.head?, Text.isSpace c = false ∧ c ≠ ';') ∧
      layout.Matches (s.forward text.length) () (s.forward text.length) := by
  obtain ⟨text, rest, hrest, hlayout, hsolid⟩ := Text.exists_layoutBefore s.rest
  have hwidth : Text.layoutWidth false s.rest = text.length := by
    rw [hrest, hlayout.layoutWidth_append, layoutWidth_of_solid hsolid, Nat.add_zero]
  have hleft : (s.forward text.length).rest = rest := by
    rw [Cursor.rest_forward, hrest, List.drop_left]
  refine ⟨text, rest, hrest, hlayout, fun text' rest' hrest' hlayout' ↦ ?_, ?_, ?_, ?_⟩
  · rw [hrest', hlayout'.layoutWidth_append] at hwidth
    omega
  · rw [matches_layout, hwidth]
  · cases rest with
    | nil => exact .inl rfl
    | cons c cs => exact .inr ⟨c, rfl, hsolid c rfl⟩
  · rw [matches_layout, hleft, layoutWidth_of_solid hsolid, Cursor.forward]

end Lispette
