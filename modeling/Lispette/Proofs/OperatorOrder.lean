import Lispette.Proofs.AlternativeOrder

/-!
# Telling operators apart

Many spellings of operators begin with other spellings: `>` opens `>=`, `>>` and `>>>`. What has to
follow tells them apart: after a symbol there is white space, and after a word no character that
would go on with a name. So a text begins with one operator at most. The operators are listed so
that longer spellings come first, but they could be tried in any order.
-/

namespace Lispette

open Lispette.Parser Grammar

/-- The text begins with the operator, which takes up `width` characters of it: those of a symbol
and of the white space behind it, or those of a word behind which no name goes on. -/
inductive BinaryOperator.Begins (op : BinaryOperator) : List Char → (width : Nat) → Prop where
  | symbol {c : Char} {rest : List Char} : op.isWord = false → Text.isSpace c = true →
    Begins op (op.symbol.toList ++ c :: rest) (op.symbol.length + 1)
  | word {rest : List Char} : op.isWord = true → EndsWord rest →
    Begins op (op.symbol.toList ++ rest) op.symbol.length

namespace Grammar

variable {op : BinaryOperator} {s t : Cursor} {u : Unit}

/-- An operator is read where the text begins with it. -/
theorem matches_spelling :
    (spelling op).Matches s u t ↔ ∃ width, op.Begins s.rest width ∧ t = s.forward width := by
  cases hop : op.isWord with
  | false =>
    rw [matches_spelling_symbol hop]
    constructor
    · rintro ⟨c, rest, hrest, hspace, rfl⟩
      exact ⟨_, hrest ▸ .symbol hop hspace, rfl⟩
    · rintro ⟨width, hbegins, rfl⟩
      generalize s.rest = text at hbegins ⊢
      cases hbegins with
      | symbol _ hspace => exact ⟨_, _, rfl, hspace, rfl⟩
      | word hword => cases hop.symm.trans hword
  | true =>
    rw [matches_spelling_word hop]
    constructor
    · rintro ⟨rest, hrest, hend, rfl⟩
      exact ⟨_, hrest ▸ .word hop hend, rfl⟩
    · rintro ⟨width, hbegins, rfl⟩
      generalize s.rest = text at hbegins ⊢
      cases hbegins with
      | symbol hsymbol => cases hop.symm.trans hsymbol
      | word _ hend => exact ⟨_, rfl, hend, rfl⟩

/-- A text begins with at most one operator. -/
theorem begins_unique {a b : BinaryOperator} {m n : Nat} (ha : a.Begins s.rest m)
    (hb : b.Begins s.rest n) : a = b := by
  have hmatch : (spelling a).Matches s () (s.forward m) := matches_spelling.2 ⟨m, ha, rfl⟩
  have hmatch' : (spelling b).Matches s () (s.forward n) := matches_spelling.2 ⟨n, hb, rfl⟩
  exact spelling_unique hmatch hmatch'

theorem begins_of_not_rejects
    (h : ¬ (do spelling op; return op : Parser BinaryOperator).Rejects s) :
    ∃ width, op.Begins s.rest width := by
  rcases outcome (spelling op) s with ⟨_, t, hmatch⟩ | hno | ⟨_, t, hbroken⟩
  · obtain ⟨width, hbegins, -⟩ := matches_spelling.1 hmatch
    exact ⟨width, hbegins⟩
  · exact absurd (rejects_bind.2 (.inl hno)) h
  · exact absurd hbroken not_recovers_spelling

/-- An operator is read where the text begins with it, a text begins with at most one operator, and
so the operators may be tried in any order. -/
theorem binaryOperator_unambiguous (s : Cursor) :
    (∀ op t, binaryOperator.Matches s op t ↔
        ∃ width, op.Begins s.rest width ∧ t = s.forward width) ∧
      (∀ (a b : BinaryOperator) (m n : Nat), a.Begins s.rest m → b.Begins s.rest n → a = b) ∧
      ∀ order : List BinaryOperator, order.Perm BinaryOperator.all →
        (choice (order.map fun op ↦ do spelling op; return op)).reading s =
          binaryOperator.reading s := by
  refine ⟨fun op t ↦ ?_, fun a b m n ↦ begins_unique, fun order horder ↦ ?_⟩
  · simp only [matches_binaryOperator, matches_spelling, exists_const]
  · -- No two operators can be read here, so none has to stay in front of another.
    refine reading_choice_of_perm horder (by decide) fun a b hne ha hb ↦ ?_
    obtain ⟨m, hm⟩ := begins_of_not_rejects ha
    obtain ⟨n, hn⟩ := begins_of_not_rejects hb
    exact absurd (begins_unique hm hn) hne

/-- The longest spellings may come last. -/
theorem binaryOperator_unambiguous_reversed :
    let s := Cursor.ofSource ">>>\u2003(a)"
    BinaryOperator.all.reverse.Perm BinaryOperator.all ∧
      BinaryOperator.Begins .ushr s.rest 4 ∧
      binaryOperator.Matches s .ushr (s.forward 4) ∧
      (∀ (op : BinaryOperator) (width : Nat), op.Begins s.rest width → op = .ushr) ∧
      (choice (BinaryOperator.all.reverse.map fun op ↦ do spelling op; return op)).reading s =
        binaryOperator.reading s := by
  intro s
  have hrest : s.rest = BinaryOperator.ushr.symbol.toList ++ '\u2003' :: "(a)".toList := by decide
  have hwidth : BinaryOperator.ushr.symbol.length + 1 = 4 := by decide
  have hbegins : BinaryOperator.Begins .ushr s.rest 4 := by
    rw [hrest, ← hwidth]
    exact .symbol rfl (by decide)
  obtain ⟨hmatches, hunique, horder⟩ := binaryOperator_unambiguous s
  have hperm : BinaryOperator.all.reverse.Perm BinaryOperator.all := List.reverse_perm _
  exact ⟨hperm, hbegins, (hmatches _ _).2 ⟨4, hbegins, rfl⟩,
    fun op width h ↦ hunique op .ushr width 4 h hbegins, horder _ hperm⟩

end Grammar

end Lispette
