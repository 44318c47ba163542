import Lispette.Proofs.Outcome
import Lispette.Proofs.Spelling

/-!
# Reading a given text

A parser reads a value from an input and leaves a rest, or it refuses the input. Both depend on the
unconsumed text alone, so they are stated without cursors. The rules below follow the ways of
building parsers; with them a parse is put together from the readings of its parts.
-/

namespace Lispette.Parser

variable {α β : Type}

/-- At every cursor before `input` the parser matches with `a`, and `rest` is then left. -/
def Reads (p : Parser α) (input : List Char) (a : α) (rest : List Char) : Prop :=
  ∀ s : Cursor, s.rest = input → ∃ t, p.Matches s a t ∧ t.rest = rest

def Refuses (p : Parser α) (input : List Char) : Prop := ∀ s : Cursor, s.rest = input → p.Rejects s

namespace Reads

variable {p q : Parser α} {a : α} {input rest : List Char}

theorem pure (a : α) (input : List Char) : Reads (Pure.pure a : Parser α) input a input :=
  fun s hs ↦ ⟨s, matches_pure.2 ⟨rfl, rfl⟩, hs⟩

/-- What is left after the first parser is the input of the second. -/
theorem bind {f : α → Parser β} {middle : List Char} {b : β} (hp : Reads p input a middle)
    (hf : Reads (f a) middle b rest) : Reads (p >>= f) input b rest := by
  intro s hs
  obtain ⟨t, hmatch, ht⟩ := hp s hs
  obtain ⟨u, hnext, hu⟩ := hf t ht
  exact ⟨u, matches_bind.2 ⟨a, t, hmatch, hnext⟩, hu⟩

/-- The place where a sequence begins makes no difference to what it reads, as errors alone reach
back to it. -/
theorem sequence {f : Cursor → Parser α} (h : ∀ c, Reads (f c) input a rest) :
    Reads (here >>= f) input a rest := by
  intro s hs
  obtain ⟨t, hmatch, ht⟩ := h s s hs
  exact ⟨t, matches_sequence.2 hmatch, ht⟩

theorem map (f : α → β) (hp : Reads p input a rest) : Reads (f <$> p) input (f a) rest :=
  hp.bind (.pure _ _)

theorem filterMap {f : α → Option β} {b : β} (hp : Reads p input a rest) (hf : f a = some b) :
    Reads (filterMap f p) input b rest := by
  intro s hs
  obtain ⟨t, hmatch, ht⟩ := hp s hs
  exact ⟨t, matches_filterMap.2 ⟨a, hmatch, hf⟩, ht⟩

theorem orElse_left (hp : Reads p input a rest) : Reads (p <|> q) input a rest := by
  intro s hs
  obtain ⟨t, hmatch, ht⟩ := hp s hs
  exact ⟨t, matches_orElse.2 (.inl hmatch), ht⟩

/-- To read by the second alternative, the first one has to refuse the input. -/
theorem orElse_right (hp : Refuses p input) (hq : Reads q input a rest) :
    Reads (p <|> q) input a rest := by
  intro s hs
  obtain ⟨t, hmatch, ht⟩ := hq s hs
  exact ⟨t, matches_orElse.2 (.inr ⟨hp s hs, hmatch⟩), ht⟩

/-- All alternatives before the one that reads have to refuse; those after it do not matter. -/
theorem choice (before after : List (Parser α)) (hbefore : ∀ q ∈ before, Refuses q input)
    (hp : Reads p input a rest) : Reads (choice (before ++ p :: after)) input a rest := by
  intro s hs
  obtain ⟨t, hmatch, ht⟩ := hp s hs
  exact ⟨t, matches_choice.2 ⟨before, p, after, rfl, fun q hq ↦ hbefore q hq s hs, hmatch⟩, ht⟩

theorem orFail {start : Cursor} {message : String} (hp : Reads p input a rest) :
    Reads (p.orFail start message) input a rest := by
  intro s hs
  obtain ⟨t, hmatch, ht⟩ := hp s hs
  exact ⟨t, matches_orFail.2 hmatch, ht⟩

theorem rule (g : Grammar) (r : Rule) (hp : Reads p input a rest) :
    Reads (g.rule r p) input a rest := by
  intro s hs
  obtain ⟨t, hmatch, ht⟩ := hp s hs
  exact ⟨t, matches_rule.2 hmatch, ht⟩

theorem optional_some (hp : Reads p input a rest) : Reads (optional p) input (some a) rest :=
  (hp.map some).orElse_left

theorem optional_none (hp : Refuses p input) : Reads (optional p) input none input := by
  refine .orElse_right (fun s hs ↦ ?_) (.pure none input)
  exact rejects_map.2 (hp s hs)

/-! ## Single steps -/

theorem satisfy {ok : Char → Bool} {c : Char} (hc : ok c = true) (rest : List Char) :
    Reads (satisfy ok) (c :: rest) c rest := by
  intro s hs
  have hpeek : s.peek? = some c := by rw [Cursor.peek?, hs, List.head?_cons]
  have hrest : s.advance.rest = rest := by rw [Cursor.rest_advance, hs, List.tail_cons]
  exact ⟨s.advance, matches_satisfy.2 ⟨hpeek, hc, rfl⟩, hrest⟩

theorem char (c : Char) (rest : List Char) : Reads (char c) (c :: rest) () rest :=
  (satisfy (by simp) rest).map _

/-- To read exactly `text`, the width measured on it and what follows must be its length. -/
theorem taking {width : List Char → Nat} {text : List Char}
    (h : width (text ++ rest) = text.length) :
    Reads (taking width) (text ++ rest) text rest := by
  intro s hs
  refine ⟨_, matches_taking.2 ⟨?_, rfl⟩, ?_⟩
  · rw [hs, h, List.take_left]
  · rw [Cursor.rest_forward, hs, h, List.drop_left]

theorem lexeme {width : List Char → Nat} {text : List Char} (hne : text ≠ [])
    (h : width (text ++ rest) = text.length) : Reads (lexeme width) (text ++ rest) text rest :=
  (taking h).filterMap (by simpa using hne)

theorem literal {text : String} (hne : text.toList ≠ []) :
    Reads (literal text) (text.toList ++ rest) () rest := by
  intro s hs
  exact ⟨_, matches_literal.2 ⟨⟨rest, hs.symm⟩, hne, rfl⟩, Cursor.rest_forward_length hs⟩

/-- A keyword is read where no name would go on. -/
theorem keyword {word : String} (hne : word.toList ≠ [])
    (hrest : ∀ c ∈ rest.head?, Text.isNameChar c = false) :
    Reads (keyword word) (word.toList ++ rest) () rest := by
  intro s hs
  have hleft : (s.forward word.length).rest = rest := Cursor.rest_forward_length hs
  refine ⟨_, matches_keyword.2 ⟨⟨rest, hs.symm⟩, hne, rfl, fun c hc ↦ hrest c ?_⟩, hleft⟩
  rwa [Cursor.peek?, hleft] at hc

/-! ## Repetition -/

theorem many_nil (h : input = [] ∨ Refuses p input) : Reads (many p) input [] input := by
  intro s hs
  refine ⟨s, matches_many_nil ?_, hs⟩
  rcases h with hnil | hrefuses
  · exact .inl (by rw [Cursor.atEnd, hs, hnil, List.isEmpty_nil])
  · exact .inr (hrefuses s hs)

/-- An item with a text of its own in front of a repetition of items. -/
theorem many_cons {text middle : List Char} {items : List α} (hne : text ≠ [])
    (hp : Reads p (text ++ middle) a middle) (hmore : Reads (many p) middle items rest) :
    Reads (many p) (text ++ middle) (a :: items) rest := by
  intro s hs
  obtain ⟨t, hmatch, ht⟩ := hp s hs
  obtain ⟨u, hitems, hu⟩ := hmore t ht
  have hlt : t.remaining < s.remaining := by
    have hpos : text.length ≠ 0 := by simpa using hne
    have hlength := length_le_byteLength text
    rw [Cursor.remaining_eq, Cursor.remaining_eq, hs, ht, byteLength_append]
    omega
  exact ⟨u, matches_many_cons hmatch hlt hitems, hu⟩

/-- Items that stand one directly after the other. `F` says what each of them may be followed
by. -/
theorem many_flatMap {text : α → List Char} {F : List Char → Prop} {items : List α}
    (hitem : ∀ a ∈ items, ∀ more, F more → Reads p (text a ++ more) a more)
    (hne : ∀ a ∈ items, text a ≠ []) (hnext : ∀ a ∈ items, ∀ more, F (text a ++ more))
    (hrest : F rest) (hstop : rest = [] ∨ Refuses p rest) :
    Reads (many p) (items.flatMap text ++ rest) items rest := by
  induction items with
  | nil => exact many_nil hstop
  | cons a items ih =>
    obtain ⟨ha, hitem⟩ := List.forall_mem_cons.1 hitem
    obtain ⟨hne_a, hne⟩ := List.forall_mem_cons.1 hne
    obtain ⟨-, hnext⟩ := List.forall_mem_cons.1 hnext
    have hfollow : F (items.flatMap text ++ rest) := by
      cases items with
      | nil => exact hrest
      | cons b items =>
        rw [List.flatMap_cons, List.append_assoc]
        exact hnext b (by simp) _
    rw [List.flatMap_cons, List.append_assoc]
    exact many_cons hne_a (ha _ hfollow) (ih hitem hne hnext)

/-- Items that are separated by spaces, where each item also passes the space after it. -/
theorem many_spaced {text : α → List Char} {items : List α}
    (hlast : ∀ a ∈ items, Reads p (text a ++ rest) a rest)
    (hnext : ∀ a ∈ items, ∀ b ∈ items, ∀ more,
      Reads p (text a ++ ' ' :: (text b ++ more)) a (text b ++ more))
    (hne : ∀ a ∈ items, text a ≠ []) (hstop : rest = [] ∨ Refuses p rest) :
    Reads (many p) (spaced (items.map text) ++ rest) items rest := by
  induction items with
  | nil => exact many_nil hstop
  | cons a items ih =>
    have hmore : Reads (many p) (spaced (items.map text) ++ rest) items rest :=
      ih (fun b hb ↦ hlast b (by simp [hb]))
        (fun b hb c hc ↦ hnext b (by simp [hb]) c (by simp [hc]))
        (fun b hb ↦ hne b (by simp [hb]))
    have hne_a : text a ≠ [] := hne a (by simp)
    cases items with
    | nil =>
      simp only [List.map_cons, List.map_nil, spaced, List.flatMap_nil, List.append_nil]
      exact many_cons hne_a (hlast a (by simp)) (many_nil hstop)
    | cons b items =>
      have hfirst := hnext a (by simp) b (by simp)
        ((items.map text).flatMap (' ' :: ·) ++ rest)
      simp only [List.map_cons, spaced, List.append_assoc] at hmore
      have hall : Reads (many p) ((text a ++ [' ']) ++ _) (a :: b :: items) rest :=
        many_cons (by simp) (by simpa using hfirst) hmore
      simpa [spaced] using hall

theorem oneOrMore {items : List α} (hne : items ≠ []) (h : Reads (many p) input items rest) :
    Reads (oneOrMore p) input items rest :=
  h.filterMap (by simpa using hne)

end Reads

namespace Refuses

variable {p q : Parser α} {input : List Char}

theorem bind_left {f : α → Parser β} (hp : Refuses p input) : Refuses (p >>= f) input :=
  fun s hs ↦ rejects_bind.2 (.inl (hp s hs))

/-- A sequence is also refused where its first parser reads and the next one refuses what is left.
-/
theorem bind_right {f : α → Parser β} {a : α} {middle : List Char} (hp : Reads p input a middle)
    (hf : Refuses (f a) middle) : Refuses (p >>= f) input := by
  intro s hs
  obtain ⟨t, hmatch, ht⟩ := hp s hs
  exact rejects_bind.2 (.inr ⟨a, t, hmatch, hf t ht⟩)

theorem sequence {f : Cursor → Parser α} (h : ∀ c, Refuses (f c) input) :
    Refuses (here >>= f) input :=
  fun s hs ↦ rejects_sequence.2 (h s s hs)

theorem map (f : α → β) (hp : Refuses p input) : Refuses (f <$> p) input := bind_left hp

theorem orElse (hp : Refuses p input) (hq : Refuses q input) : Refuses (p <|> q) input :=
  fun s hs ↦ rejects_orElse.2 ⟨hp s hs, hq s hs⟩

theorem choice {ps : List (Parser α)} (h : ∀ p ∈ ps, Refuses p input) :
    Refuses (choice ps) input :=
  fun s hs ↦ rejects_choice.2 fun p hp ↦ h p hp s hs

theorem rule (g : Grammar) (r : Rule) (hp : Refuses p input) : Refuses (g.rule r p) input :=
  fun s hs ↦ rejects_rule.2 (hp s hs)

/-- The end of the input is refused as well. -/
theorem satisfy {ok : Char → Bool} (h : ∀ c ∈ input.head?, ok c = false) :
    Refuses (satisfy ok) input := by
  intro s hs
  rw [rejects_satisfy, Cursor.peek?, hs]
  exact h

theorem char {c : Char} (h : input.head? ≠ some c) : Refuses (char c) input := by
  intro s hs
  rw [rejects_char, Cursor.peek?, hs]
  exact h

theorem lexeme {width : List Char → Nat} (h : width input = 0) : Refuses (lexeme width) input := by
  intro s hs
  rw [rejects_lexeme, hs, h, List.take_zero]

/-- A text that begins differently. -/
theorem literal {text : String} (h : input.head? ≠ text.toList.head?) :
    Refuses (literal text) input := by
  intro s hs
  rw [rejects_literal]
  cases htext : text.toList with
  | nil => exact .inl rfl
  | cons c cs =>
    refine .inr ?_
    rintro ⟨more, hmore⟩
    rw [hs] at hmore
    rw [htext, ← hmore] at h
    exact h rfl

/-- A first character of its own is enough to refuse a keyword. -/
theorem keyword_of_head {word : String} (h : input.head? ≠ word.toList.head?) :
    Refuses (keyword word) input :=
  bind_left (literal h)

end Refuses

end Lispette.Parser
