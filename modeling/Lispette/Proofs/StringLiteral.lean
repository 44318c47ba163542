import Mathlib.Algebra.Group.Nat.Even
import Mathlib.Data.List.Induction
import Mathlib.Order.Bounds.Basic
import Lispette.Proofs.Breakage

/-!
# Where string literals end

A string literal ends at the first quote on its line that is not escaped. Whether a character is
escaped is seen from the backslashes directly in front of it: in a run of backslashes each one
escapes the next, so what follows the run is escaped if their number is odd. If the line has no such
quote, the literal is broken. Its error then ends where the line ends, or one character earlier if
the line ends in a backslash that is not escaped itself, since that backslash has nothing on its
line to escape.
-/

namespace Lispette

open Lispette.Parser

namespace Text

/-! ## Escapes -/

/-- How many backslashes stand at the end of the text. -/
def trailingBackslashes (text : List Char) : Nat := (text.reverse.takeWhile (· = '\\')).length

/-- The character at the place is not escaped: the backslashes in front of it escape each other. -/
def Unescaped (text : List Char) (i : Nat) : Prop := Even (trailingBackslashes (text.take i))

/-- Whether the text ends in a backslash that escapes what follows, read from the front. -/
def endsEscaping (text : List Char) : Bool :=
  text.foldl (fun escaped c ↦ !escaped && c = '\\') false

/-- Reading from the front and counting from the end come to the same. -/
theorem even_trailingBackslashes_iff (text : List Char) :
    Even (trailingBackslashes text) ↔ endsEscaping text = false := by
  induction text using List.reverseRecOn with
  | nil => simp [trailingBackslashes, endsEscaping]
  | append_singleton text c ih =>
    have hcount : trailingBackslashes (text ++ [c]) =
        if c = '\\' then trailingBackslashes text + 1 else 0 := by
      by_cases hc : c = '\\' <;> simp [trailingBackslashes, hc]
    have hescaping : endsEscaping (text ++ [c]) = (!endsEscaping text && c = '\\') := by
      simp [endsEscaping]
    rw [hcount, hescaping]
    by_cases hc : c = '\\' <;> simp [hc, Nat.even_add_one, ih]

/-- Whether a backslash escapes the next character can be told while reading on. -/
theorem unescaped_iff {text : List Char} {i : Nat} :
    Unescaped text i ↔ endsEscaping (text.take i) = false :=
  even_trailingBackslashes_iff _

/-! ## The inside of a string -/

theorem endsEscaping_plain {c : Char} (hc : c ≠ '\\') (text : List Char) :
    endsEscaping (c :: text) = endsEscaping text := by
  simp [endsEscaping, hc]

theorem endsEscaping_escape (c : Char) (text : List Char) :
    endsEscaping ('\\' :: c :: text) = endsEscaping text := by
  simp [endsEscaping]

/-- Escapes are complete in the inside of a string. -/
theorem endsEscaping_stringBody {body : List Char} (h : IsStringBody body) :
    endsEscaping body = false := by
  induction h with
  | nil => rfl
  | plain _ hbackslash _ _ ih => rw [endsEscaping_plain hbackslash, ih]
  | escape _ _ ih => rw [endsEscaping_escape, ih]

theorem newline_not_mem_stringBody {body : List Char} (h : IsStringBody body) : '\n' ∉ body := by
  induction h with
  | nil => exact List.not_mem_nil
  | plain _ _ hnewline _ ih => simp [Ne.symm hnewline, ih]
  | escape hnewline _ ih => simp [Ne.symm hnewline, ih]

/-- Inside of a string, a character that is not escaped is no quote, and a backslash that is not
escaped escapes a character of the same line. -/
theorem unescaped_stringBody {body : List Char} (h : IsStringBody body) {i : Nat} {c : Char}
    (hc : body[i]? = some c) (hi : endsEscaping (body.take i) = false) :
    c ≠ '"' ∧ (c = '\\' → ∃ d, body[i + 1]? = some d ∧ d ≠ '\n') := by
  induction h generalizing i with
  | nil => simp at hc
  | plain hquote hbackslash _ _ ih =>
    cases i with
    | zero =>
      obtain rfl := Option.some.inj hc
      exact ⟨hquote, fun h ↦ absurd h hbackslash⟩
    | succ i =>
      rw [List.take_succ_cons, endsEscaping_plain hbackslash] at hi
      exact ih hc hi
  | @escape d cs hnewline _ ih =>
    match i with
    | 0 =>
      obtain rfl := Option.some.inj hc
      exact ⟨by decide, fun _ ↦ ⟨d, rfl, hnewline⟩⟩
    | 1 => cases hi
    | i + 2 =>
      rw [List.take_succ_cons, List.take_succ_cons, endsEscaping_escape] at hi
      exact ih hc hi

/-! ## Where a string literal ends -/

/-- The quote at this place closes the string literal that was opened in front of the text. -/
def ClosesAt (text : List Char) (i : Nat) : Prop :=
  text[i]? = some '"' ∧ Unescaped text i ∧ '\n' ∉ text.take i

/-- A string literal that was opened in front of the text goes no further than to this place: here
is a newline, or a backslash that has no character of its line to escape, or the end. -/
def BreaksAt (text : List Char) (i : Nat) : Prop :=
  text[i]? = some '\n' ∨
    text[i]? = some '\\' ∧ Unescaped text i ∧ (text[i + 1]? = some '\n' ∨ i + 1 = text.length) ∨
    i = text.length

instance (text : List Char) (i : Nat) : Decidable (Unescaped text i) :=
  inferInstanceAs (Decidable (Even _))

instance (text : List Char) (i : Nat) : Decidable (ClosesAt text i) :=
  inferInstanceAs (Decidable (_ ∧ _))

instance (text : List Char) (i : Nat) : Decidable (BreaksAt text i) :=
  inferInstanceAs (Decidable (_ ∨ _))

theorem isLeast_of_first {P : Nat → Prop} {k : Nat} (hk : P k) (hbefore : ∀ i < k, ¬ P i) :
    IsLeast {i | P i} k :=
  ⟨hk, fun i hi ↦ Nat.le_of_not_lt fun hlt ↦ hbefore i hlt hi⟩

section

variable {body tail : List Char} {i : Nat} (hbody : IsStringBody body)

include hbody

/-- What follows the inside is not escaped by it. -/
theorem unescaped_length : Unescaped (body ++ tail) body.length := by
  rw [unescaped_iff, List.take_left]
  exact endsEscaping_stringBody hbody

theorem not_closesAt_of_lt (hi : i < body.length) : ¬ ClosesAt (body ++ tail) i := by
  rintro ⟨hquote, hunescaped, -⟩
  rw [List.getElem?_append_left hi] at hquote
  rw [unescaped_iff, List.take_append_of_le_length (Nat.le_of_lt hi)] at hunescaped
  exact (unescaped_stringBody hbody hquote hunescaped).1 rfl

/-- Inside there is no newline, and every backslash has its character. -/
theorem not_breaksAt_of_lt (hi : i < body.length) : ¬ BreaksAt (body ++ tail) i := by
  rintro (hnewline | ⟨hbackslash, hunescaped, hnext⟩ | hend)
  · rw [List.getElem?_append_left hi] at hnewline
    exact newline_not_mem_stringBody hbody (List.mem_of_getElem? hnewline)
  · rw [List.getElem?_append_left hi] at hbackslash
    rw [unescaped_iff, List.take_append_of_le_length (Nat.le_of_lt hi)] at hunescaped
    obtain ⟨d, hd, hne⟩ := (unescaped_stringBody hbody hbackslash hunescaped).2 rfl
    obtain ⟨hlt, -⟩ := List.getElem?_eq_some_iff.1 hd
    rcases hnext with hnewline | hend
    · rw [List.getElem?_append_left hlt, hd] at hnewline
      exact hne (Option.some.inj hnewline)
    · rw [List.length_append] at hend
      omega
  · rw [List.length_append] at hend
    omega

/-- The quote behind the inside is the first one to close the literal. -/
theorem isLeast_closesAt (rest : List Char) :
    IsLeast {i | ClosesAt (body ++ '"' :: rest) i} body.length := by
  refine isLeast_of_first ⟨by simp, unescaped_length hbody, ?_⟩ fun i ↦ not_closesAt_of_lt hbody
  rw [List.take_left]
  exact newline_not_mem_stringBody hbody

/-- Where a line ends behind the inside, it does so for the first time. -/
theorem isLeast_breaksAt (htail : EndsLine tail) :
    IsLeast {i | BreaksAt (body ++ tail) i} body.length := by
  refine isLeast_of_first ?_ fun i ↦ not_breaksAt_of_lt hbody
  have hunescaped : Unescaped (body ++ tail) body.length := unescaped_length hbody
  cases htail with
  | atEnd => exact .inr (.inr (by simp))
  | backslash => exact .inr (.inl ⟨by simp, hunescaped, .inr (by simp)⟩)
  | newline more => exact .inl (by simp)
  | backslashNewline more => exact .inr (.inl ⟨by simp, hunescaped, .inl (by simp)⟩)

/-- Where the line ends, no quote can close the literal any more. -/
theorem not_closesAt_of_endsLine (htail : EndsLine tail) : ¬ ClosesAt (body ++ tail) i := by
  intro hcloses
  obtain ⟨j, rfl⟩ : ∃ j, i = body.length + j :=
    Nat.exists_eq_add_of_le (Nat.le_of_not_lt fun hlt ↦ not_closesAt_of_lt hbody hlt hcloses)
  obtain ⟨hquote, -, hline⟩ := hcloses
  rw [List.getElem?_append_right (Nat.le_add_right _ _), Nat.add_sub_cancel_left] at hquote
  rw [List.take_length_add_append] at hline
  have hnewline : '\n' ∉ tail.take j := fun h ↦ hline (List.mem_append_right _ h)
  cases htail with
  | atEnd => simp at hquote
  | backslash => rcases j with _ | j <;> simp at hquote
  | newline more => rcases j with _ | j <;> simp at hquote hnewline
  | backslashNewline more => rcases j with _ | _ | j <;> simp at hquote hnewline

end

theorem stringWidth_le_length (text : List Char) : stringWidth text ≤ text.length := by
  fun_induction stringWidth text <;> simp only [List.length_cons, List.length_nil] at * <;> omega

/-- A string literal takes the inside of a string, and then it is closed or the line ends. -/
theorem exists_stringBody (text : List Char) :
    ∃ body tail, text = body ++ tail ∧ stringWidth text = body.length ∧ IsStringBody body ∧
      (tail.head? = some '"' ∨ EndsLine tail) := by
  refine ⟨text.take (stringWidth text), text.drop (stringWidth text), ?_, ?_,
    isStringBody_take_stringWidth text, endsLine_drop_stringWidth text⟩
  · rw [List.take_append_drop]
  · rw [List.length_take, Nat.min_eq_left (stringWidth_le_length text)]

end Text

/-! ## Reading string literals -/

theorem Parser.matches_char {c : Char} {s : Cursor} (h : s.peek? = some c) :
    (char c).Matches s () s.advance :=
  matches_map.2 ⟨c, matches_satisfy.2 ⟨h, by simp, rfl⟩, rfl⟩

namespace Grammar

section

variable (g : Grammar) {s : Cursor} {body tail : List Char} (hrest : s.rest = '"' :: (body ++ tail))
  (hwidth : Text.stringWidth (body ++ tail) = body.length)

include hrest

theorem rest_forward_stringBody : (s.forward (body.length + 1)).rest = tail := by
  rw [Cursor.rest_forward, hrest, List.drop_succ_cons, List.drop_left]

include hwidth

/-- The opening quote and the inside are passed, whatever follows. -/
theorem passes_stringBody : (char '"').Matches s () s.advance ∧
    (taking Text.stringWidth).Matches s.advance body (s.forward (body.length + 1)) := by
  have hinside : s.advance.rest = body ++ tail := by rw [Cursor.rest_advance, hrest, List.tail_cons]
  refine ⟨matches_char (by rw [Cursor.peek?, hrest, List.head?_cons]), matches_taking.2 ?_⟩
  rw [hinside, hwidth, List.take_left]
  exact ⟨rfl, rfl⟩

/-- The inside and both quotes are taken. -/
theorem string_of_closed (htail : tail.head? = some '"') :
    g.string.Matches s (.string (String.ofList body)) (s.forward (body.length + 2)) := by
  obtain ⟨hopen, hinside⟩ := passes_stringBody hrest hwidth
  have hend : s.forward (body.length + 2) = (s.forward (body.length + 1)).advance :=
    Cursor.forward_add (body.length + 1) 1 s
  have hclose :
      (char '"').Matches (s.forward (body.length + 1)) () (s.forward (body.length + 2)) := by
    rw [hend]
    exact matches_char (by rwa [Cursor.peek?, rest_forward_stringBody hrest])
  refine matches_rule.2 (matches_sequence.2 ?_)
  exact matches_bind.2 ⟨_, _, hopen, matches_bind.2 ⟨_, _, hinside,
    matches_bind.2 ⟨_, _, matches_orFail.2 hclose, matches_pure.2 ⟨rfl, rfl⟩⟩⟩⟩

/-- The error covers the opening quote and the inside. -/
theorem string_of_unclosed (htail : tail.head? ≠ some '"') {e : SyntaxError}
    (he : e = ⟨Fault.stringEnd.message, s.line, s.offset, (s.forward (body.length + 1)).offset⟩) :
    g.string.Recovers s e ((s.forward (body.length + 1)).withError e).synchronize := by
  subst he
  obtain ⟨hopen, hinside⟩ := passes_stringBody hrest hwidth
  have hmissing : (char '"').Rejects (s.forward (body.length + 1)) :=
    rejects_char.2 (by rwa [Cursor.peek?, rest_forward_stringBody hrest])
  refine recovers_rule.2 (recovers_sequence.2 ?_)
  exact recovers_bind.2 (.inr ⟨_, _, hopen, recovers_bind.2 (.inr ⟨_, _, hinside,
    recovers_bind.2 (.inl (run_orFail_of_rejects hmissing))⟩)⟩)

end

/-- After an opening quote, a string literal is read exactly if an unescaped quote follows on the
line. It then ends with the first such quote, and its text is what stands in between. If there is
none, the error starts at the opening quote and ends where the literal first breaks. -/
theorem string_literal (g : Grammar) (s : Cursor) (h : s.peek? = some '"') :
    ((∃ e t, g.string.Matches s e t) ↔ ∃ i, Text.ClosesAt s.rest.tail i) ∧
      (∀ i, IsLeast {i | Text.ClosesAt s.rest.tail i} i →
        g.string.Matches s (.string (String.ofList (s.rest.tail.take i))) (s.forward (i + 2))) ∧
      ((¬ ∃ i, Text.ClosesAt s.rest.tail i) →
        ∃ k e, IsLeast {i | Text.BreaksAt s.rest.tail i} k ∧
          e = ⟨Fault.stringEnd.message, s.line, s.offset, (s.forward (k + 1)).offset⟩ ∧
          g.string.Recovers s e ((s.forward (k + 1)).withError e).synchronize) := by
  obtain ⟨text, hrest⟩ : ∃ text, s.rest = '"' :: text := List.head?_eq_some_iff.1 h
  obtain ⟨body, tail, rfl, hwidth, hbody, hclosed | hline⟩ := Text.exists_stringBody text
  · obtain ⟨rest, rfl⟩ := List.head?_eq_some_iff.1 hclosed
    have hleast := Text.isLeast_closesAt hbody rest
    have hmatch := string_of_closed g hrest hwidth hclosed
    rw [hrest, List.tail_cons]
    refine ⟨⟨fun _ ↦ ⟨_, hleast.1⟩, fun _ ↦ ⟨_, _, hmatch⟩⟩, fun i hi ↦ ?_, fun hnone ↦ ?_⟩
    · obtain rfl := hi.unique hleast
      rwa [List.take_left]
    · exact absurd ⟨_, hleast.1⟩ hnone
  · have hnone : ¬ ∃ i, Text.ClosesAt (body ++ tail) i :=
      fun ⟨i, hi⟩ ↦ Text.not_closesAt_of_endsLine hbody hline hi
    have hhead : tail.head? ≠ some '"' := by cases hline <;> simp
    have hbroken := string_of_unclosed g hrest hwidth hhead rfl
    rw [hrest, List.tail_cons]
    refine ⟨⟨fun ⟨_, _, hmatch⟩ ↦ absurd hbroken hmatch.not_recovers,
        fun hsome ↦ absurd hsome hnone⟩,
      fun i hi ↦ absurd ⟨i, hi.1⟩ hnone, fun _ ↦ ?_⟩
    exact ⟨_, _, Text.isLeast_breaksAt hbody hline, rfl, hbroken⟩

/-- The first literal holds an escaped quote and an escaped backslash. The second one breaks at the
last of the three backslashes with which its line ends. -/
theorem string_literal_backslashes :
    (string {}).Matches (Cursor.ofSource "\"\\\"\\\\\" \"") (.string "\\\"\\\\")
        ((Cursor.ofSource "\"\\\"\\\\\" \"").forward 6) ∧
      ∃ e t, (string {}).Recovers (Cursor.ofSource "\"\\\\\\\n\"") e t ∧ e.start = 0 ∧
        e.stop = 3 := by
  constructor
  · have hleast : IsLeast {i | Text.ClosesAt "\\\"\\\\\" \"".toList i} 4 :=
      Text.isLeast_of_first (by decide) (by decide)
    exact (string_literal {} (Cursor.ofSource "\"\\\"\\\\\" \"") rfl).2.1 4 hleast
  · have hnone : ¬ ∃ i, Text.ClosesAt "\\\\\\\n\"".toList i := by
      rintro ⟨i, hi⟩
      have hall : ∀ i < 5, ¬ Text.ClosesAt "\\\\\\\n\"".toList i := by decide
      obtain ⟨hlt, -⟩ := List.getElem?_eq_some_iff.1 hi.1
      exact hall i hlt hi
    have hleast : IsLeast {i | Text.BreaksAt "\\\\\\\n\"".toList i} 2 :=
      Text.isLeast_of_first (by decide) (by decide)
    obtain ⟨k, e, hk, rfl, hbroken⟩ :=
      (string_literal {} (Cursor.ofSource "\"\\\\\\\n\"") rfl).2.2 hnone
    obtain rfl : k = 2 := hk.unique hleast
    exact ⟨_, _, hbroken, rfl, by decide⟩

end Grammar

end Lispette
