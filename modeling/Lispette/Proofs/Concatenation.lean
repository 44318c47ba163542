import Lispette.Proofs.Locality
import Lispette.Proofs.SimilarPrograms

/-!
# Concatenation of sources

A source that is read without errors stays what it is if another source is put on the lines below:
its statements are followed by those of the other, and the errors are those of the other, displaced.
-/

namespace Lispette

open Lispette.Parser Grammar

/-! ## Layout before a further line -/

namespace Text

/-- Layout that ends within a text ends there whatever follows the text. -/
theorem layoutWidth_append {inComment : Bool} {text : List Char}
    (h : text.drop (layoutWidth inComment text) ≠ []) (more : List Char) :
    layoutWidth inComment (text ++ more) = layoutWidth inComment text := by
  induction text generalizing inComment with
  | nil => exact absurd List.drop_nil h
  | cons c cs ih =>
    rcases layoutWidth_cons inComment c with ⟨next, hwidth⟩ | ⟨-, -, hwidth⟩
    · rw [hwidth, List.drop_succ_cons] at h
      rw [List.cons_append, hwidth, hwidth, ih h]
    · rw [List.cons_append, hwidth, hwidth]

theorem dropLayout_append {text : List Char} (h : dropLayout text ≠ []) (more : List Char) :
    dropLayout (text ++ more) = dropLayout text ++ more := by
  have hle : layoutWidth false text ≤ text.length := by
    have hlength := List.length_pos_iff.2 h
    rw [dropLayout, List.length_drop] at hlength
    omega
  rw [dropLayout, layoutWidth_append h, List.drop_append_of_le_length hle, dropLayout]

/-- If a text ends in layout, a newline also ends its last comment, and the next line is left. -/
theorem drop_layoutWidth_newline {inComment : Bool} {text more : List Char}
    (h : text.drop (layoutWidth inComment text) = []) (hmore : Solid more) :
    (text ++ '\n' :: more).drop (layoutWidth inComment (text ++ '\n' :: more)) = more := by
  induction text generalizing inComment with
  | nil =>
    rw [List.nil_append, layoutWidth, if_pos rfl, layoutWidth_of_solid hmore]
    rfl
  | cons c cs ih =>
    rcases layoutWidth_cons inComment c with ⟨next, hwidth⟩ | ⟨-, -, hwidth⟩
    · rw [hwidth, List.drop_succ_cons] at h
      rw [List.cons_append, hwidth, List.drop_succ_cons]
      exact ih h
    · rw [hwidth, List.drop_zero] at h
      cases h

end Text

/-- The first text, and the first text with a further line below it that does not begin with
layout. -/
def Similarity.below (line : List Char) (hline : Solid line) : Similarity where
  Related text text' := text' = text ++ '\n' :: line
  finish := line
  stop := by
    rintro _ rfl c hc
    obtain rfl : '\n' = c := Option.some.inj hc
    exact .inl rfl
  first := by
    rintro c text _ rfl
    exact ⟨c, _, rfl, .inl rfl⟩
  after_plain _ h := (List.cons.inj h).2
  after_string := by
    rintro body text _ _ rfl
    exact ⟨text ++ '\n' :: line, by simp, rfl⟩
  after_layout := by
    rintro text _ rfl hne
    exact Text.dropLayout_append hne _
  after_layout_finish := by
    rintro text _ rfl hend
    exact Text.drop_layoutWidth_newline hend hline
  solid_finish := hline

/-! ## Sources below each other -/

/-- How far a text is displaced that begins on the line below the given text. -/
def Displacement.below (text : List Char) : Displacement where
  bytes := byteLength text + 1
  lines := text.count '\n' + 1
  columns := 0

theorem Displacement.after_newline (text : String) :
    Displacement.after (text ++ "\n").toList = .below text.toList := by
  have htext : (text ++ "\n").toList = text.toList ++ ['\n'] := String.toList_append
  rw [Displacement.after, Displacement.below, htext, byteLength_append, List.count_append,
    List.reverse_append]
  rfl

/-- The loop over the statements of a source runs alike where the source stands below another. -/
theorem Grammar.many_displace {g : Grammar} {d : Displacement} {source : String} {body : List Expr}
    {t : Cursor} (h : (many g.topLevel).Matches (Cursor.ofSource source) body t) :
    (many g.topLevel).Matches ((Cursor.ofSource source).displace d) (body.map (Expr.displace d))
      (t.displace d) := by
  have hrun := g.displaces_topLevel.many g.stays_topLevel (Cursor.ofSource source)
    (Cursor.standsIn_ofSource source) (d := d)
  obtain ⟨hreply, hcursor⟩ := h
  rw [Matches, hrun, Run.displace, hreply, hcursor]
  exact ⟨rfl, rfl⟩

/-- Where the first source is read without errors, the two together are read as the first and then
the second. -/
theorem parse_append (a b : String) (p : Program) (ha : (parse a).program = some p)
    (herrors : (parse a).final.errors = []) (hb : Solid b.toList) :
    (parse (a ++ "\n" ++ b)).program = some ⟨p.body ++
        (((parse b).program.map Program.body).getD []).map (Expr.displace (.below a.toList))⟩ ∧
      (parse (a ++ "\n" ++ b)).final.errors =
        (parse b).final.errors.map (SyntaxError.displace (.below a.toList)) := by
  let s := Cursor.ofSource (a ++ "\n" ++ b)
  have hsource : s.rest = a.toList ++ '\n' :: b.toList := by
    change (a ++ "\n" ++ b).toList = _
    rw [String.toList_append, String.toList_append, List.append_assoc]
    rfl
  obtain ⟨hne, t, hchain, hrest⟩ :=
    Similarity.chain_of_parse (S := .below b.toList hb) ha herrors (s := s) hsource
  -- Below the first source, the cursor stands as at the beginning of the second.
  have hreaches := reaches_of_chain hchain
  have ht : t = (Cursor.ofSource b).displace (.below a.toList) := by
    rw [← Displacement.after_newline]
    exact (hreaches.standsIn (Cursor.standsIn_ofSource _)).eq_displace hrest hreaches.errors_eq
  obtain ⟨body, u, hbody⟩ := Grammar.exists_matches_many {} (Cursor.ofSource b)
  have hboth := many_of_chain hchain (ht ▸ Grammar.many_displace (d := .below a.toList) hbody)
  obtain ⟨hprogram, hfinal⟩ := parse_of_many hboth
  obtain ⟨hprogram', hfinal'⟩ := parse_of_many hbody
  have hread : ((parse b).program.map Program.body).getD [] = body := by
    change ((Grammar.parse {} b).program.map Program.body).getD [] = body
    rw [hprogram']
    split <;> simp_all
  have hnonempty : p.body ++ body.map (Expr.displace (.below a.toList)) ≠ [] :=
    List.append_ne_nil_of_left_ne_nil hne _
  rw [hread]
  constructor
  · exact hprogram.trans (if_neg hnonempty)
  · exact hfinal.trans (congrArg (List.map _) hfinal'.symm)

/-- A line that ends in a comment, with an unfinished operation below it. -/
theorem parse_append_unfinished :
    ∃ p, (parse "(def x 1) ; one").program = some p ∧
      (parse "(def x 1) ; one\n(+ x").program = some ⟨p.body ++
        (((parse "(+ x").program.map Program.body).getD []).map (Expr.displace ⟨16, 1, 0⟩)⟩ ∧
      (parse "(def x 1) ; one\n(+ x").final.errors =
        (parse "(+ x").final.errors.map (SyntaxError.displace ⟨16, 1, 0⟩) ∧
      (parse "(+ x").final.errors ≠ [] := by
  have hread : (parse "(def x 1) ; one").program.isSome = true := by decide +kernel
  obtain ⟨p, hp⟩ := Option.isSome_iff_exists.1 hread
  obtain ⟨hprogram, hfinal⟩ := parse_append "(def x 1) ; one" "(+ x" p hp (by decide +kernel)
    (solid_cons (by decide) (by decide))
  exact ⟨p, hp, hprogram, hfinal, by decide +kernel⟩

end Lispette
