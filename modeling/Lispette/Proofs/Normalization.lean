import Lispette.Proofs.SimilarPrograms

/-!
# Normalized layout

How much layout stands between two tokens makes no difference, nor what its comments say. A source
without errors keeps its program if every run of layout outside of strings is written in the
shortest way: as one space, or, if it begins with a comment, as an empty comment. The two are kept
apart since the symbol of an operator must be followed by white space, and a comment is none.
-/

namespace Lispette

open Lispette.Parser Grammar

namespace Text

/-- A run of layout that begins with the given character, written in the shortest way. -/
def shortLayout (c : Char) : List Char := if c = ';' then [';', '\n'] else [' ']

/-- The width of a string literal after its opening quote, if the text begins with one that is
closed. -/
def literalWidth (c : Char) (cs : List Char) : Nat :=
  if c = '"' ∧ (cs.drop (stringWidth cs)).head? = some '"' then stringWidth cs + 1 else 0

/-- The text with every run of layout in the shortest way. String literals are kept as they are. -/
def normalize : List Char → List Char
  | [] => []
  | c :: cs =>
    if layoutWidth false (c :: cs) = 0 then
      let width := literalWidth c cs
      c :: (cs.take width ++ normalize (cs.drop width))
    else shortLayout c ++ normalize (dropLayout (c :: cs))
termination_by text => text.length
decreasing_by
  · simp only [List.length_drop, List.length_cons]
    omega
  · simp only [dropLayout, List.length_drop, List.length_cons]
    omega

/-! ## Normalizing token by token -/

theorem normalize_of_solid {c : Char} {cs : List Char} (h : Solid (c :: cs)) :
    normalize (c :: cs) =
      c :: (cs.take (literalWidth c cs) ++ normalize (cs.drop (literalWidth c cs))) := by
  rw [normalize, if_pos (layoutWidth_of_solid h)]

theorem normalize_of_plain {c : Char} (hc : isPlain c = true) (text : List Char) :
    normalize (c :: text) = c :: normalize text := by
  obtain ⟨hspace, hsemicolon, hquote⟩ := Similarity.not_layout_of_isPlain hc
  have hwidth : literalWidth c text = 0 := if_neg fun h ↦ hquote h.1
  rw [normalize_of_solid (solid_cons hspace hsemicolon), hwidth]
  rfl

theorem normalize_string {body : List Char} (hbody : IsStringBody body) (text : List Char) :
    normalize ('"' :: (body ++ '"' :: text)) = '"' :: (body ++ '"' :: normalize text) := by
  have hwidth : literalWidth '"' (body ++ '"' :: text) = body.length + 1 := by
    simp [literalWidth, stringWidth_append hbody]
  have hsplit : body ++ '"' :: text = (body ++ ['"']) ++ text := by simp
  have hlength : body.length + 1 = (body ++ ['"']).length := by simp
  rw [normalize_of_solid (solid_cons (by decide) (by decide)), hwidth, hsplit, hlength,
    List.take_left, List.drop_left, List.append_assoc]
  rfl

theorem normalize_of_layout {c : Char} {cs : List Char} (h : layoutWidth false (c :: cs) ≠ 0) :
    normalize (c :: cs) = shortLayout c ++ normalize (dropLayout (c :: cs)) := by
  rw [normalize, if_neg h]

/-- Layout begins with white space or a comment. -/
theorem isSpace_of_layoutWidth_ne_zero {c : Char} {cs : List Char}
    (h : layoutWidth false (c :: cs) ≠ 0) (hc : c ≠ ';') : isSpace c = true := by
  cases hspace : isSpace c with
  | true => rfl
  | false => exact absurd (layoutWidth_of_solid (solid_cons hspace hc)) h

theorem solid_normalize {text : List Char} (h : Solid text) : Solid (normalize text) := by
  cases text with
  | nil => rwa [normalize]
  | cons c cs =>
    rw [normalize_of_solid h]
    exact h

theorem dropLayout_shortLayout (c : Char) {text : List Char} (h : Solid text) :
    dropLayout (shortLayout c ++ text) = text := by
  rw [shortLayout]
  split
  · have hwidth : layoutWidth false (';' :: '\n' :: text) = 2 := by
      simp [layoutWidth, layoutWidth_of_solid h]
    rw [dropLayout]
    exact congrArg (fun n ↦ List.drop n (';' :: '\n' :: text)) hwidth
  · exact (dropLayout_space (by decide) text).trans (dropLayout_of_solid h)

/-- Layout may be passed before or after normalizing. -/
theorem dropLayout_normalize (text : List Char) :
    dropLayout (normalize text) = normalize (dropLayout text) := by
  by_cases hwidth : layoutWidth false text = 0
  · have htext : dropLayout text = text := by rw [dropLayout, hwidth, List.drop_zero]
    have hsolid : Solid text := htext ▸ solid_dropLayout text
    rw [htext, dropLayout_of_solid (solid_normalize hsolid)]
  · cases text with
    | nil => exact absurd rfl hwidth
    | cons c cs =>
      rw [normalize_of_layout hwidth]
      exact dropLayout_shortLayout c (solid_normalize (solid_dropLayout _))

end Text

/-- A text and its normalized form. -/
def Similarity.normalized : Similarity where
  Related text text' := text' = Text.normalize text
  finish := []
  stop := by
    rintro _ rfl c hc
    simp [Text.normalize] at hc
  first := by
    rintro c text _ rfl
    by_cases hwidth : Text.layoutWidth false (c :: text) = 0
    · exact ⟨c, _, by rw [Text.normalize, if_pos hwidth], .inl rfl⟩
    · rw [Text.normalize_of_layout hwidth, Text.shortLayout]
      split
      · next hc => exact ⟨';', _, rfl, .inl hc.symm⟩
      · next hc =>
        exact ⟨' ', _, rfl, .inr ⟨Text.isSpace_of_layoutWidth_ne_zero hwidth hc, by decide⟩⟩
  after_plain := by
    rintro c text text' hc h
    rw [Text.normalize_of_plain hc] at h
    exact (List.cons.inj h).2
  after_string := by
    rintro body text _ hbody rfl
    exact ⟨_, Text.normalize_string hbody text, rfl⟩
  after_layout := by
    rintro text _ rfl _
    exact Text.dropLayout_normalize text
  after_layout_finish := by
    rintro text _ rfl hend
    rw [Text.dropLayout_normalize, hend, Text.normalize]
  solid_finish := by simp [Solid]

/-! ## Normalized sources -/

/-- The source with every run of layout outside of strings in the shortest way. -/
def normalizeSource (source : String) : String := String.ofList (Text.normalize source.toList)

/-- A source without errors is read the same if its layout is normalized. -/
theorem parse_normalizeSource (source : String) (h : (parse source).final.errors = []) :
    (parse (normalizeSource source)).program = (parse source).program ∧
      (parse (normalizeSource source)).final.errors = [] := by
  let s := Cursor.ofSource (normalizeSource source)
  have hsource : s.rest = Text.normalize source.toList := String.toList_ofList
  cases hp : (parse source).program with
  | some p =>
    obtain ⟨hne, t, hchain, hrest⟩ :=
      Similarity.chain_of_parse (S := .normalized) hp h (s := s) hsource
    have hend : t.atEnd = true := List.isEmpty_iff.2 hrest
    have hmany := many_of_chain hchain (matches_many_nil (.inl hend))
    obtain ⟨hprogram, herrors⟩ := parse_of_many hmany
    rw [List.append_nil, if_neg hne] at hprogram
    exact ⟨hprogram, herrors.trans (reaches_of_chain hchain).errors_eq⟩
  | none =>
    have hlayout : Text.dropLayout (normalizeSource source).toList = [] := by
      change Text.dropLayout s.rest = []
      rw [hsource, Text.dropLayout_normalize, dropLayout_of_program_eq_none hp, Text.normalize]
    exact parse_of_layout hlayout

/-- Blanks, comments and line ends, and a string that holds the like. -/
theorem parse_normalizeSource_comments :
    normalizeSource "(def  x ; one\n 1)\t(print;now\n\"a  ; b\")" =
        "(def x 1) (print;\n\"a  ; b\")" ∧
      (parse "(def x 1) (print;\n\"a  ; b\")").program =
        (parse "(def  x ; one\n 1)\t(print;now\n\"a  ; b\")").program ∧
      (parse "(def  x ; one\n 1)\t(print;now\n\"a  ; b\")").program.isSome = true := by
  have hnormal : normalizeSource "(def  x ; one\n 1)\t(print;now\n\"a  ; b\")" =
      "(def x 1) (print;\n\"a  ; b\")" := by decide +kernel
  have hsame := parse_normalizeSource "(def  x ; one\n 1)\t(print;now\n\"a  ; b\")"
    (by decide +kernel)
  rw [hnormal] at hsame
  exact ⟨hnormal, hsame.1, by decide +kernel⟩

end Lispette
