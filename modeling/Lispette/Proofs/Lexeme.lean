import Mathlib.Data.List.TakeWhile
import Lispette.Grammar.Atom
import Lispette.Proofs.Outcome
import Lispette.Proofs.Shape

/-!
# What lexemes consist of

The widths of names and strings, described by the characters they cover and by what may follow.
-/

namespace Lispette

namespace Text

/-! ## Runs of one kind of characters -/

theorem takeWhile_of_head {kind : Char → Bool} {text : List Char}
    (h : ∀ c ∈ text.head?, kind c = false) : text.takeWhile kind = [] := by
  cases text with
  | nil => rfl
  | cons c cs => simp [h c rfl]

/-- Behind the longest run of one kind, the text ends or goes on with another kind. -/
theorem head_dropWhile (kind : Char → Bool) (text : List Char) :
    ∀ c ∈ (text.dropWhile kind).head?, kind c = false := by
  intro c hc
  have hhead := List.head?_dropWhile_not kind text
  rw [Option.mem_def.1 hc] at hhead
  exact hhead

/-! ## Names -/

/-- A name reaches up to the first character that cannot continue it. -/
theorem nameWidth_append {c : Char} {cs more : List Char} (hc : isNameStart c = true)
    (hcs : ∀ d ∈ cs, isNameChar d = true) (hmore : ∀ d ∈ more.head?, isNameChar d = false) :
    nameWidth (c :: cs ++ more) = cs.length + 1 := by
  rw [List.cons_append, nameWidth, if_pos hc, List.takeWhile_append_of_pos hcs,
    takeWhile_of_head hmore, List.append_nil, Nat.add_comm]

/-- Either no name stands in front, or a whole one does, with something behind it that no name could
go on with. -/
theorem nameWidth_cases (rest : List Char) :
    nameWidth rest = 0 ∨ ∃ c cs more, rest = c :: cs ++ more ∧ isNameStart c = true ∧
      (∀ d ∈ cs, isNameChar d = true) ∧ (∀ d ∈ more.head?, isNameChar d = false) ∧
      nameWidth rest = cs.length + 1 := by
  cases rest with
  | nil => exact .inl rfl
  | cons c cs =>
    cases hc : isNameStart c with
    | false => exact .inl (by simp [nameWidth, hc])
    | true =>
      refine .inr ⟨c, cs.takeWhile isNameChar, cs.dropWhile isNameChar, ?_, hc, ?_,
        head_dropWhile isNameChar cs, ?_⟩
      · rw [List.cons_append, List.takeWhile_append_dropWhile]
      · intro d hd
        exact List.mem_takeWhile_imp hd
      · rw [nameWidth, if_pos hc, Nat.add_comm]

/-! ## Strings -/

theorem isStringBody_take_stringWidth (rest : List Char) :
    IsStringBody (rest.take (stringWidth rest)) := by
  induction rest using stringWidth.induct with
  | case1 => exact .nil
  | case2 c h =>
    rw [stringWidth, if_pos h]
    exact .nil
  | case3 c h =>
    rw [stringWidth, if_neg h]
    simp only [Bool.or_eq_true, decide_eq_true_eq, not_or] at h
    exact .plain h.1.1 h.2 h.1.2 .nil
  | case4 c d cs h =>
    rw [stringWidth, if_pos h]
    exact .nil
  | case5 cs h =>
    rw [stringWidth, if_neg h, if_pos rfl, if_pos rfl]
    exact .nil
  | case6 d cs hd h ih =>
    rw [stringWidth, if_neg h, if_pos rfl, if_neg hd, Nat.add_comm]
    exact .escape hd ih
  | case7 c d cs h hc ih =>
    rw [stringWidth, if_neg h, if_neg hc, Nat.add_comm]
    simp only [Bool.or_eq_true, decide_eq_true_eq, not_or] at h
    exact .plain h.1 hc h.2 ih

/-- A string reaches up to the quote that closes it. -/
theorem stringWidth_append {body : List Char} (h : IsStringBody body) (rest : List Char) :
    stringWidth (body ++ '"' :: rest) = body.length := by
  induction h with
  | nil => cases rest <;> rfl
  | @plain c cs hquote hbackslash hnewline _ ih =>
    obtain ⟨d, ds, hmore⟩ : ∃ d ds, cs ++ '"' :: rest = d :: ds := by
      cases cs with
      | nil => exact ⟨_, _, rfl⟩
      | cons d ds => exact ⟨_, _, rfl⟩
    rw [List.cons_append, hmore, stringWidth, ← hmore, ih]
    simp [hquote, hbackslash, hnewline, Nat.add_comm]
  | @escape c cs hnewline _ ih =>
    rw [List.cons_append, List.cons_append, stringWidth, ih]
    simp only [hnewline, decide_false, Bool.or_self, Bool.false_eq_true, if_false, if_true,
      List.length_cons, Char.reduceEq]
    omega

end Text

/-! ## The parser of names -/

open Lispette.Parser

theorem matches_name {word : String} {s t : Cursor} :
    Grammar.name.Matches s word t ↔ word.toList = s.rest.take (Text.nameWidth s.rest) ∧
      word.toList ≠ [] ∧ isReserved word = false ∧ t = s.forward (Text.nameWidth s.rest) := by
  rw [Grammar.name, matches_filterMap]
  constructor
  · rintro ⟨text, htext, hkept⟩
    obtain ⟨rfl, hne, rfl⟩ := matches_lexeme.1 htext
    dsimp only at hkept
    split at hkept
    · cases hkept
    · rename_i hreserved
      obtain rfl := Option.some.inj hkept
      rw [String.toList_ofList]
      exact ⟨rfl, hne, by simpa using hreserved, rfl⟩
  · rintro ⟨htext, hne, hreserved, rfl⟩
    refine ⟨word.toList, matches_lexeme.2 ⟨htext, hne, rfl⟩, ?_⟩
    simp [String.ofList_toList, hreserved]

/-- What the parser of names accepts is a name, and a keyword would end at the same place. -/
theorem isName_of_matches_name {word : String} {s t : Cursor} (h : Grammar.name.Matches s word t) :
    isName word = true ∧ (keyword word).Matches s () t := by
  obtain ⟨htext, hne, hreserved, rfl⟩ := matches_name.1 h
  rcases Text.nameWidth_cases s.rest with hzero | ⟨c, cs, more, hrest, hc, hcs, hmore, hwidth⟩
  · rw [hzero, List.take_zero] at htext
    exact absurd htext hne
  · have hword : word.toList = c :: cs := by
      rw [htext, hwidth, hrest]
      simp
    have hlength : word.length = cs.length + 1 := by
      rw [← String.length_toList, hword, List.length_cons]
    constructor
    · rw [isName, hword]
      simpa [hc, hreserved] using hcs
    · refine matches_keyword.2 ⟨⟨more, by rw [hword, hrest]⟩, hne, by rw [hwidth, hlength], ?_⟩
      intro d hd
      refine hmore d ?_
      rw [Cursor.peek?, Cursor.rest_forward, hwidth, hrest] at hd
      simpa using hd

end Lispette
