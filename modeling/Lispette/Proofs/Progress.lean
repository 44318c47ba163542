import Lispette.Proofs.Contract

/-!
# Progress

Parsers that pass at least one character whenever they match.
-/

namespace Lispette.Parser

variable {α β : Type}

/-- Every match leaves strictly less source. -/
def Consumes (p : Parser α) : Prop :=
  ∀ s a t, p.Matches s a t → t.remaining < s.remaining

/-- If the first step consumes something, the whole does, since what follows never goes back. -/
theorem Consumes.bind {p : Parser α} {f : α → Parser β} {start : Option Cursor}
    (hp : Consumes p) (hf : ∀ a, Obeys start (f a)) : Consumes (p >>= f) := by
  intro s b u h
  obtain ⟨a, t, hmatch, hnext⟩ := matches_bind.1 h
  exact Nat.lt_of_le_of_lt ((hf a).matched hnext).remaining_le (hp s a t hmatch)

/-- What goes before takes nothing back. -/
theorem Consumes.after {p : Parser α} {f : α → Parser β} {start : Option Cursor}
    (hp : Obeys start p) (hf : ∀ a, Consumes (f a)) : Consumes (p >>= f) := by
  intro s b u h
  obtain ⟨a, t, hmatch, hnext⟩ := matches_bind.1 h
  exact Nat.lt_of_lt_of_le (hf a t b u hnext) (hp.matched hmatch).remaining_le

theorem Consumes.map {p : Parser α} (f : α → β) (hp : Consumes p) : Consumes (f <$> p) := by
  intro s b t h
  obtain ⟨a, hmatch, rfl⟩ := matches_map.1 h
  exact hp s a t hmatch

theorem Consumes.filterMap {p : Parser α} (f : α → Option β) (hp : Consumes p) :
    Consumes (filterMap f p) := by
  intro s b t h
  obtain ⟨a, hmatch, -⟩ := matches_filterMap.1 h
  exact hp s a t hmatch

theorem Consumes.orElse {p q : Parser α} (hp : Consumes p) (hq : Consumes q) :
    Consumes (p <|> q) := by
  intro s a t h
  rcases matches_orElse.1 h with h | ⟨-, h⟩
  · exact hp s a t h
  · exact hq s a t h

/-- An ordered choice consumes something if each of its alternatives does. -/
theorem Consumes.choice {ps : List (Parser α)} (h : ∀ p ∈ ps, Consumes p) :
    Consumes (choice ps) := by
  intro s a t hmatch
  obtain ⟨before, p, after, rfl, -, hp⟩ := matches_choice.1 hmatch
  exact h p (by simp) s a t hp

theorem Consumes.sequence {steps : Cursor → Parser α} (h : ∀ c, Consumes (steps c)) :
    Consumes (here >>= steps) :=
  fun s a t hmatch ↦ h s s a t (matches_sequence.1 hmatch)

theorem Consumes.rule {p : Parser α} (g : Grammar) (r : Rule) (hp : Consumes p) :
    Consumes (g.rule r p) := by
  unfold Grammar.rule
  split
  · exact hp
  · exact hp

/-- A character is at least one byte. -/
theorem consumes_satisfy (ok : Char → Bool) : Consumes (satisfy ok) := by
  intro s c t h
  obtain ⟨hpeek, -, rfl⟩ := matches_satisfy.1 h
  have hend : s.atEnd = false := by
    cases hrest : s.rest with
    | nil => simp [Cursor.peek?, hrest] at hpeek
    | cons d ds => simp [Cursor.atEnd, hrest]
  exact s.reaches_advance.remaining_lt_iff.2 (Cursor.offset_lt_advance hend)

theorem consumes_char (c : Char) : Consumes (char c) := (consumes_satisfy _).map _

/-- A lexeme is never empty, whatever its width may be measured as. -/
theorem consumes_lexeme (width : List Char → Nat) : Consumes (lexeme width) := by
  intro s text t h
  obtain ⟨rfl, hne, rfl⟩ := matches_lexeme.1 h
  have hend : s.atEnd = false := by
    cases hrest : s.rest with
    | nil => simp [hrest] at hne
    | cons d ds => simp [Cursor.atEnd, hrest]
  cases hwidth : width s.rest with
  | zero => simp [hwidth] at hne
  | succ n =>
    exact (s.reaches_forward _).remaining_lt_iff.2 (Cursor.offset_lt_forward_succ n hend)

theorem consumes_literal (text : String) : Consumes (literal text) := (consumes_lexeme _).map _

theorem consumes_keyword (word : String) : Consumes (keyword word) := by
  have hnext : Obeys none (notFollowedBy (satisfy Text.isNameChar)) := .notFollowedBy
  exact (consumes_literal word).bind fun _ ↦ hnext

end Lispette.Parser
