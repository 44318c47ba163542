import Lispette.Grammar.Basic
import Lispette.Grammar.Fault
import Lispette.Parser.Repetition
import Lispette.Parser.Text
import Lispette.Proofs.Position

/-!
# The outcomes of a run

A run matches, rejects or recovers. For each way of building parsers, the outcomes of the whole are
given by the outcomes of its parts; later proofs take runs apart, and put them together, by these
rules and never look at a run itself.
-/

namespace Lispette.Parser

variable {α β : Type}

def Matches (p : Parser α) (s : Cursor) (a : α) (t : Cursor) : Prop :=
  (p.run s).reply = .matched a ∧ (p.run s).cursor = t

def Rejects (p : Parser α) (s : Cursor) : Prop := (p.run s).reply = .noMatch

def Recovers (p : Parser α) (s : Cursor) (e : SyntaxError) (t : Cursor) : Prop :=
  (p.run s).reply = .recovered e ∧ (p.run s).cursor = t

/-- A parser is a function: what it matches at a cursor, and where it then stands, is settled. -/
theorem Matches.unique {p : Parser α} {s t u : Cursor} {a b : α} (ha : p.Matches s a t)
    (hb : p.Matches s b u) : a = b ∧ t = u := by
  have hreply : Reply.matched a = .matched b := ha.1.symm.trans hb.1
  exact ⟨Reply.matched.inj hreply, ha.2.symm.trans hb.2⟩

theorem Rejects.not_matches {p : Parser α} {s t : Cursor} {a : α} (h : p.Rejects s) :
    ¬ p.Matches s a t := by
  intro hmatch
  have hreply : Reply.noMatch = .matched a := h.symm.trans hmatch.1
  cases hreply

theorem Rejects.not_recovers {p : Parser α} {s t : Cursor} {e : SyntaxError} (h : p.Rejects s) :
    ¬ p.Recovers s e t := by
  intro hrecover
  have hreply : Reply.noMatch = .recovered e := h.symm.trans hrecover.1
  cases hreply

theorem Matches.not_recovers {p : Parser α} {s t u : Cursor} {a : α} {e : SyntaxError}
    (h : p.Matches s a t) : ¬ p.Recovers s e u := by
  intro hrecover
  have hreply : Reply.matched a = .recovered e := h.1.symm.trans hrecover.1
  cases hreply

/-- The three outcomes are all there are. -/
theorem outcome (p : Parser α) (s : Cursor) :
    (∃ a t, p.Matches s a t) ∨ p.Rejects s ∨ ∃ e t, p.Recovers s e t := by
  cases hreply : (p.run s).reply with
  | matched a => exact .inl ⟨a, _, hreply, rfl⟩
  | noMatch => exact .inr (.inl hreply)
  | recovered e => exact .inr (.inr ⟨e, _, hreply, rfl⟩)

/-! ## Single steps -/

theorem matches_pure {a b : α} {s t : Cursor} :
    (pure a : Parser α).Matches s b t ↔ b = a ∧ t = s := by
  simp [Matches, pure, succeed, eq_comm]

theorem not_rejects_pure {a : α} {s : Cursor} : ¬ (pure a : Parser α).Rejects s := by
  simp [Rejects, pure, succeed]

theorem not_recovers_pure {a : α} {s t : Cursor} {e : SyntaxError} :
    ¬ (pure a : Parser α).Recovers s e t := by
  simp [Recovers, pure, succeed]

theorem not_matches_noMatch {a : α} {s t : Cursor} : ¬ (noMatch : Parser α).Matches s a t := by
  simp [Matches, noMatch]

theorem rejects_noMatch {s : Cursor} : (noMatch : Parser α).Rejects s := rfl

theorem not_recovers_noMatch {s t : Cursor} {e : SyntaxError} :
    ¬ (noMatch : Parser α).Recovers s e t := by
  simp [Recovers, noMatch]

theorem matches_here {s c t : Cursor} : here.Matches s c t ↔ c = s ∧ t = s := by
  simp [Matches, here, eq_comm]

theorem not_rejects_here {s : Cursor} : ¬ here.Rejects s := by
  simp [Rejects, here]

theorem not_recovers_here {s t : Cursor} {e : SyntaxError} : ¬ here.Recovers s e t := by
  simp [Recovers, here]

theorem run_satisfy_of_accepts {ok : Char → Bool} {s : Cursor} {c : Char} (hpeek : s.peek? = some c)
    (hok : ok c = true) : (satisfy ok).run s = ⟨.matched c, s.advance, []⟩ := by
  simp only [satisfy, hpeek, hok, if_true]

/-- This includes the end of the source, where there is no character to refuse. -/
theorem run_satisfy_of_refuses {ok : Char → Bool} {s : Cursor}
    (h : ∀ c, s.peek? = some c → ok c = false) : (satisfy ok).run s = ⟨.noMatch, s, []⟩ := by
  cases hpeek : s.peek? with
  | none => simp only [satisfy, hpeek]
  | some c => simp [satisfy, hpeek, h c hpeek]

/-- Whether a character is accepted settles the outcome. -/
theorem accepts_or_refuses (ok : Char → Bool) (s : Cursor) :
    (∃ c, s.peek? = some c ∧ ok c = true) ∨ ∀ c, s.peek? = some c → ok c = false := by
  cases hpeek : s.peek? with
  | none => exact .inr (by simp)
  | some c =>
    cases hok : ok c with
    | false => exact .inr (by simp [hok])
    | true => exact .inl ⟨c, rfl, hok⟩

theorem matches_satisfy {ok : Char → Bool} {s t : Cursor} {c : Char} :
    (satisfy ok).Matches s c t ↔ s.peek? = some c ∧ ok c = true ∧ t = s.advance := by
  constructor
  · rintro ⟨hreply, hcursor⟩
    rcases accepts_or_refuses ok s with ⟨d, hpeek, hok⟩ | hrefuses
    · rw [run_satisfy_of_accepts hpeek hok] at hreply hcursor
      obtain rfl : d = c := Reply.matched.inj hreply
      exact ⟨hpeek, hok, hcursor.symm⟩
    · rw [run_satisfy_of_refuses hrefuses] at hreply
      cases hreply
  · rintro ⟨hpeek, hok, rfl⟩
    rw [Matches, run_satisfy_of_accepts hpeek hok]
    exact ⟨rfl, rfl⟩

theorem rejects_satisfy {ok : Char → Bool} {s : Cursor} :
    (satisfy ok).Rejects s ↔ ∀ c, s.peek? = some c → ok c = false := by
  constructor
  · intro h
    rcases accepts_or_refuses ok s with ⟨d, hpeek, hok⟩ | hrefuses
    · rw [Rejects, run_satisfy_of_accepts hpeek hok] at h
      cases h
    · exact hrefuses
  · intro hrefuses
    rw [Rejects, run_satisfy_of_refuses hrefuses]

theorem not_recovers_satisfy {ok : Char → Bool} {s t : Cursor} {e : SyntaxError} :
    ¬ (satisfy ok).Recovers s e t := by
  rintro ⟨hreply, -⟩
  rcases accepts_or_refuses ok s with ⟨d, hpeek, hok⟩ | hrefuses
  · rw [run_satisfy_of_accepts hpeek hok] at hreply
    cases hreply
  · rw [run_satisfy_of_refuses hrefuses] at hreply
    cases hreply

/-- The width is measured on what is left, and just as many characters are passed. -/
theorem matches_taking {width : List Char → Nat} {s t : Cursor} {text : List Char} :
    (taking width).Matches s text t ↔
      text = s.rest.take (width s.rest) ∧ t = s.forward (width s.rest) := by
  simp [Matches, taking, eq_comm]

theorem not_rejects_taking {width : List Char → Nat} {s : Cursor} :
    ¬ (taking width).Rejects s := by
  simp [Rejects, taking]

theorem not_recovers_taking {width : List Char → Nat} {s t : Cursor} {e : SyntaxError} :
    ¬ (taking width).Recovers s e t := by
  simp [Recovers, taking]

/-! ## Sequences -/

/-- After a match, the second parser decides the reply. It also decides the cursor, unless it
rejects: then the whole goes back to where it began. -/
theorem run_bind_of_matches {p : Parser α} {f : α → Parser β} {s t : Cursor} {a : α}
    (h : p.Matches s a t) :
    ((p >>= f).run s).reply = ((f a).run t).reply ∧
      ((f a).Rejects t ∨ ((p >>= f).run s).cursor = ((f a).run t).cursor) := by
  obtain ⟨hreply, hcursor⟩ := h
  rcases hrun : p.run s with ⟨reply, cursor, log⟩
  rw [hrun] at hreply hcursor
  dsimp only at hreply hcursor
  subst hreply hcursor
  rcases hnext : (f a).run cursor with ⟨answer, u, more⟩
  cases answer <;> simp [bind_eq, andThen, hrun, hnext, Rejects]

theorem run_bind_of_rejects {p : Parser α} {f : α → Parser β} {s : Cursor} (h : p.Rejects s) :
    (p >>= f).Rejects s := by
  rcases hrun : p.run s with ⟨reply, cursor, log⟩
  rw [Rejects, hrun] at h
  dsimp only at h
  subst h
  simp [Rejects, bind_eq, andThen, hrun]

theorem run_bind_of_recovers {p : Parser α} {f : α → Parser β} {s t : Cursor} {e : SyntaxError}
    (h : p.Recovers s e t) : (p >>= f).Recovers s e t := by
  obtain ⟨hreply, hcursor⟩ := h
  rcases hrun : p.run s with ⟨reply, cursor, log⟩
  rw [hrun] at hreply hcursor
  dsimp only at hreply hcursor
  subst hreply hcursor
  simp [Recovers, bind_eq, andThen, hrun]

/-- The rule of sequences: both match, one behind the other. -/
theorem matches_bind {p : Parser α} {f : α → Parser β} {s u : Cursor} {b : β} :
    (p >>= f).Matches s b u ↔ ∃ a t, p.Matches s a t ∧ (f a).Matches t b u := by
  constructor
  · intro h
    rcases outcome p s with ⟨a, t, hp⟩ | hp | ⟨e, t, hp⟩
    · obtain ⟨hreply, hcursor⟩ := run_bind_of_matches (f := f) hp
      have hnext : ((f a).run t).reply = .matched b := hreply.symm.trans h.1
      rcases hcursor with hrejects | hcursor
      · exact absurd ⟨hnext, rfl⟩ hrejects.not_matches
      · exact ⟨a, t, hp, hnext, hcursor.symm.trans h.2⟩
    · exact absurd h (run_bind_of_rejects hp).not_matches
    · exact absurd (run_bind_of_recovers hp) h.not_recovers
  · rintro ⟨a, t, hp, hf⟩
    obtain ⟨hreply, hcursor⟩ := run_bind_of_matches (f := f) hp
    rcases hcursor with hrejects | hcursor
    · exact absurd hf hrejects.not_matches
    · exact ⟨hreply.trans hf.1, hcursor.trans hf.2⟩

/-- A sequence rejects as a whole where any of its steps does, so that an alternative can be tried.
-/
theorem rejects_bind {p : Parser α} {f : α → Parser β} {s : Cursor} :
    (p >>= f).Rejects s ↔ p.Rejects s ∨ ∃ a t, p.Matches s a t ∧ (f a).Rejects t := by
  constructor
  · intro h
    rcases outcome p s with ⟨a, t, hp⟩ | hp | ⟨e, t, hp⟩
    · exact .inr ⟨a, t, hp, (run_bind_of_matches hp).1.symm.trans h⟩
    · exact .inl hp
    · exact absurd (run_bind_of_recovers hp) h.not_recovers
  · rintro (hp | ⟨a, t, hp, hf⟩)
    · exact run_bind_of_rejects hp
    · exact (run_bind_of_matches hp).1.trans hf

/-- A step that recovers ends the sequence, and its error is that of the whole. -/
theorem recovers_bind {p : Parser α} {f : α → Parser β} {s u : Cursor} {e : SyntaxError} :
    (p >>= f).Recovers s e u ↔
      p.Recovers s e u ∨ ∃ a t, p.Matches s a t ∧ (f a).Recovers t e u := by
  constructor
  · intro h
    rcases outcome p s with ⟨a, t, hp⟩ | hp | ⟨d, t, hp⟩
    · obtain ⟨hreply, hcursor⟩ := run_bind_of_matches (f := f) hp
      have hnext : ((f a).run t).reply = .recovered e := hreply.symm.trans h.1
      rcases hcursor with hrejects | hcursor
      · exact absurd ⟨hnext, rfl⟩ hrejects.not_recovers
      · exact .inr ⟨a, t, hp, hnext, hcursor.symm.trans h.2⟩
    · exact absurd h (run_bind_of_rejects hp).not_recovers
    · have hd := run_bind_of_recovers (f := f) hp
      have hreply : Reply.recovered d = .recovered (α := β) e := hd.1.symm.trans h.1
      obtain rfl : d = e := Reply.recovered.inj hreply
      obtain rfl : t = u := hd.2.symm.trans h.2
      exact .inl hp
  · rintro (hp | ⟨a, t, hp, hf⟩)
    · exact run_bind_of_recovers hp
    · obtain ⟨hreply, hcursor⟩ := run_bind_of_matches (f := f) hp
      rcases hcursor with hrejects | hcursor
      · exact absurd hf hrejects.not_recovers
      · exact ⟨hreply.trans hf.1, hcursor.trans hf.2⟩

/-- Forms begin by keeping the place where they start; their steps are then told that place. -/
theorem matches_sequence {steps : Cursor → Parser α} {s t : Cursor} {a : α} :
    (here >>= steps).Matches s a t ↔ (steps s).Matches s a t := by
  rw [matches_bind]
  constructor
  · rintro ⟨c, u, hhere, h⟩
    obtain ⟨rfl, rfl⟩ := matches_here.1 hhere
    exact h
  · exact fun h ↦ ⟨s, s, matches_here.2 ⟨rfl, rfl⟩, h⟩

theorem rejects_sequence {steps : Cursor → Parser α} {s : Cursor} :
    (here >>= steps).Rejects s ↔ (steps s).Rejects s := by
  rw [rejects_bind]
  constructor
  · rintro (hhere | ⟨c, t, hhere, h⟩)
    · exact absurd hhere not_rejects_here
    · obtain ⟨rfl, rfl⟩ := matches_here.1 hhere
      exact h
  · exact fun h ↦ .inr ⟨s, s, matches_here.2 ⟨rfl, rfl⟩, h⟩

theorem recovers_sequence {steps : Cursor → Parser α} {s t : Cursor} {e : SyntaxError} :
    (here >>= steps).Recovers s e t ↔ (steps s).Recovers s e t := by
  rw [recovers_bind]
  constructor
  · rintro (hhere | ⟨c, u, hhere, h⟩)
    · exact absurd hhere not_recovers_here
    · obtain ⟨rfl, rfl⟩ := matches_here.1 hhere
      exact h
  · exact fun h ↦ .inr ⟨s, s, matches_here.2 ⟨rfl, rfl⟩, h⟩

/-- A parser that does not match hands back the cursor it was given. -/
theorem cursor_bind_of_rejects {p : Parser α} {f : α → Parser β} {s : Cursor}
    (h : (p >>= f).Rejects s) : ((p >>= f).run s).cursor = s := by
  unfold Rejects at h
  rcases hrun : p.run s with ⟨reply, t, log⟩
  cases reply with
  | matched a =>
    rcases hnext : (f a).run t with ⟨answer, u, more⟩
    cases answer <;> simp_all [bind_eq, andThen]
  | noMatch => simp [bind_eq, andThen, hrun]
  | recovered e => simp [bind_eq, andThen, hrun] at h

theorem matches_map {p : Parser α} {f : α → β} {s t : Cursor} {b : β} :
    (f <$> p).Matches s b t ↔ ∃ a, p.Matches s a t ∧ b = f a := by
  change (p >>= fun a ↦ pure (f a)).Matches s b t ↔ _
  simp only [matches_bind, matches_pure]
  constructor
  · rintro ⟨a, u, hp, rfl, rfl⟩
    exact ⟨a, hp, rfl⟩
  · rintro ⟨a, hp, rfl⟩
    exact ⟨a, t, hp, rfl, rfl⟩

theorem rejects_map {p : Parser α} {f : α → β} {s : Cursor} :
    (f <$> p).Rejects s ↔ p.Rejects s := by
  change (p >>= fun a ↦ pure (f a)).Rejects s ↔ _
  simp [rejects_bind, not_rejects_pure]

theorem recovers_map {p : Parser α} {f : α → β} {s t : Cursor} {e : SyntaxError} :
    (f <$> p).Recovers s e t ↔ p.Recovers s e t := by
  change (p >>= fun a ↦ pure (f a)).Recovers s e t ↔ _
  simp [recovers_bind, not_recovers_pure]

/-- A match is kept if its value is accepted, and then consumes what it consumed before. -/
theorem matches_filterMap {p : Parser α} {f : α → Option β} {s t : Cursor} {b : β} :
    (filterMap f p).Matches s b t ↔ ∃ a, p.Matches s a t ∧ f a = some b := by
  constructor
  · intro h
    obtain ⟨a, u, hp, hf⟩ := matches_bind.1 h
    refine ⟨a, ?_⟩
    cases hfa : f a with
    | none =>
      rw [hfa] at hf
      exact absurd hf not_matches_noMatch
    | some c =>
      rw [hfa] at hf
      obtain ⟨rfl, rfl⟩ := matches_pure.1 hf
      exact ⟨hp, rfl⟩
  · rintro ⟨a, hp, hfa⟩
    refine matches_bind.2 ⟨a, t, hp, ?_⟩
    rw [hfa]
    exact matches_pure.2 ⟨rfl, rfl⟩

/-- To turn down a value is to reject, with the cursor back in place. -/
theorem rejects_filterMap {p : Parser α} {f : α → Option β} {s : Cursor} :
    (filterMap f p).Rejects s ↔ p.Rejects s ∨ ∃ a t, p.Matches s a t ∧ f a = none := by
  refine rejects_bind.trans (or_congr_right ?_)
  refine exists_congr fun a ↦ exists_congr fun t ↦ and_congr_right fun _ ↦ ?_
  cases f a with
  | none => exact iff_of_true rejects_noMatch rfl
  | some b => exact iff_of_false not_rejects_pure (by simp)

theorem recovers_filterMap {p : Parser α} {f : α → Option β} {s t : Cursor} {e : SyntaxError} :
    (filterMap f p).Recovers s e t ↔ p.Recovers s e t := by
  refine recovers_bind.trans ⟨?_, .inl⟩
  rintro (h | ⟨a, u, -, h⟩)
  · exact h
  · cases hfa : f a with
    | none => rw [hfa] at h; exact absurd h not_recovers_noMatch
    | some b => rw [hfa] at h; exact absurd h not_recovers_pure

/-- A lexeme of width zero does not match: what is taken must not be empty. -/
theorem matches_lexeme {width : List Char → Nat} {s t : Cursor} {text : List Char} :
    (lexeme width).Matches s text t ↔
      text = s.rest.take (width s.rest) ∧ text ≠ [] ∧ t = s.forward (width s.rest) := by
  rw [lexeme, matches_filterMap]
  constructor
  · rintro ⟨taken, htaken, hkept⟩
    obtain ⟨rfl, rfl⟩ := matches_taking.1 htaken
    cases hempty : (s.rest.take (width s.rest)).isEmpty with
    | true => simp [hempty] at hkept
    | false =>
      rw [hempty] at hkept
      obtain rfl := Option.some.inj hkept
      exact ⟨rfl, by simpa using hempty, rfl⟩
  · rintro ⟨rfl, hne, rfl⟩
    exact ⟨_, matches_taking.2 ⟨rfl, rfl⟩, by simpa using hne⟩

theorem rejects_lexeme {width : List Char → Nat} {s : Cursor} :
    (lexeme width).Rejects s ↔ s.rest.take (width s.rest) = [] := by
  rw [lexeme, rejects_filterMap]
  constructor
  · rintro (h | ⟨taken, t, htaken, hkept⟩)
    · exact absurd h not_rejects_taking
    · obtain ⟨rfl, rfl⟩ := matches_taking.1 htaken
      cases hempty : (s.rest.take (width s.rest)).isEmpty with
      | true => exact List.isEmpty_iff.1 hempty
      | false => simp [hempty] at hkept
  · intro h
    exact .inr ⟨_, _, matches_taking.2 ⟨rfl, rfl⟩, by simp [h]⟩

theorem not_recovers_lexeme {width : List Char → Nat} {s t : Cursor} {e : SyntaxError} :
    ¬ (lexeme width).Recovers s e t :=
  fun h ↦ not_recovers_taking (recovers_filterMap.1 h)

/-! ## Choice -/

/-- The second alternative runs where the first one began. The logs of both are kept, so the runs
are equal only up to those. -/
theorem run_orElse_of_rejects {p q : Parser α} {s : Cursor} (h : p.Rejects s) :
    ((p <|> q).run s).reply = (q.run s).reply ∧ ((p <|> q).run s).cursor = (q.run s).cursor := by
  rcases hrun : p.run s with ⟨reply, t, log⟩
  rw [Rejects, hrun] at h
  dsimp only at h
  subst h
  simp [HOrElse.hOrElse, OrElse.orElse, orElse, hrun]

theorem run_orElse_of_not_rejects {p q : Parser α} {s : Cursor} (h : ¬ p.Rejects s) :
    (p <|> q).run s = p.run s := by
  rcases hrun : p.run s with ⟨reply, t, log⟩
  rw [Rejects, hrun] at h
  cases reply with
  | noMatch => exact absurd rfl h
  | _ => simp [HOrElse.hOrElse, OrElse.orElse, orElse, hrun]

/-- The second alternative matches only where the first one rejects; if the first one recovers, it
is not tried. -/
theorem matches_orElse {p q : Parser α} {s t : Cursor} {a : α} :
    (p <|> q).Matches s a t ↔ p.Matches s a t ∨ p.Rejects s ∧ q.Matches s a t := by
  by_cases hp : p.Rejects s
  · obtain ⟨hreply, hcursor⟩ := run_orElse_of_rejects (q := q) hp
    have hsame : (p <|> q).Matches s a t ↔ q.Matches s a t := by
      rw [Matches, hreply, hcursor, Matches]
    simp only [hsame, hp, hp.not_matches, false_or, true_and]
  · have hsame : (p <|> q).Matches s a t ↔ p.Matches s a t := by
      rw [Matches, run_orElse_of_not_rejects hp, Matches]
    simp only [hsame, hp, false_and, or_false]

theorem rejects_orElse {p q : Parser α} {s : Cursor} :
    (p <|> q).Rejects s ↔ p.Rejects s ∧ q.Rejects s := by
  by_cases hp : p.Rejects s
  · have hsame : (p <|> q).Rejects s ↔ q.Rejects s := by
      rw [Rejects, (run_orElse_of_rejects hp).1, Rejects]
    simp only [hsame, hp, true_and]
  · have hsame : (p <|> q).Rejects s ↔ p.Rejects s := by
      rw [Rejects, run_orElse_of_not_rejects hp, Rejects]
    simp only [hsame, hp, false_and]

theorem recovers_orElse {p q : Parser α} {s t : Cursor} {e : SyntaxError} :
    (p <|> q).Recovers s e t ↔ p.Recovers s e t ∨ p.Rejects s ∧ q.Recovers s e t := by
  by_cases hp : p.Rejects s
  · obtain ⟨hreply, hcursor⟩ := run_orElse_of_rejects (q := q) hp
    have hsame : (p <|> q).Recovers s e t ↔ q.Recovers s e t := by
      rw [Recovers, hreply, hcursor, Recovers]
    simp only [hsame, hp, hp.not_recovers, false_or, true_and]
  · have hsame : (p <|> q).Recovers s e t ↔ p.Recovers s e t := by
      rw [Recovers, run_orElse_of_not_rejects hp, Recovers]
    simp only [hsame, hp, false_and, or_false]

/-- The alternative that matches comes after alternatives that all reject. -/
theorem matches_choice {ps : List (Parser α)} {s t : Cursor} {a : α} :
    (choice ps).Matches s a t ↔
      ∃ before p after, ps = before ++ p :: after ∧ (∀ q ∈ before, q.Rejects s) ∧
        p.Matches s a t := by
  induction ps with
  | nil => simp [choice, not_matches_noMatch]
  | cons q qs ih =>
    rw [choice, matches_orElse, ih]
    constructor
    · rintro (hq | ⟨hq, before, p, after, rfl, hbefore, hp⟩)
      · exact ⟨[], q, qs, rfl, by simp, hq⟩
      · refine ⟨q :: before, p, after, rfl, ?_, hp⟩
        intro r hr
        rcases List.mem_cons.1 hr with rfl | hr
        · exact hq
        · exact hbefore r hr
    · rintro ⟨before, p, after, hsplit, hbefore, hp⟩
      cases before with
      | nil =>
        obtain ⟨rfl, rfl⟩ := List.cons.inj hsplit
        exact .inl hp
      | cons r before =>
        obtain ⟨rfl, rfl⟩ := List.cons.inj hsplit
        exact .inr ⟨hbefore q (by simp), before, p, after, rfl,
          fun r hr ↦ hbefore r (by simp [hr]), hp⟩

/-- A choice rejects where all of its alternatives do, in whatever order they stand. -/
theorem rejects_choice {ps : List (Parser α)} {s : Cursor} :
    (choice ps).Rejects s ↔ ∀ p ∈ ps, p.Rejects s := by
  induction ps with
  | nil => simp [choice, rejects_noMatch]
  | cons q qs ih => rw [choice, rejects_orElse, ih, List.forall_mem_cons]

/-! ## Lookahead, commitment and traces -/

theorem run_notFollowedBy_of_rejects {p : Parser α} {s : Cursor} (h : p.Rejects s) :
    (notFollowedBy p).Matches s () s := by
  rcases hrun : p.run s with ⟨reply, t, log⟩
  rw [Rejects, hrun] at h
  dsimp only at h
  subst h
  simp [Matches, notFollowedBy, hrun]

theorem run_notFollowedBy_of_not_rejects {p : Parser α} {s : Cursor} (h : ¬ p.Rejects s) :
    (notFollowedBy p).Rejects s := by
  rcases hrun : p.run s with ⟨reply, t, log⟩
  rw [Rejects, hrun] at h
  cases reply with
  | noMatch => exact absurd rfl h
  | _ => simp [Rejects, notFollowedBy, hrun]

/-- Looking ahead consumes nothing. -/
theorem matches_notFollowedBy {p : Parser α} {s t : Cursor} {u : Unit} :
    (notFollowedBy p).Matches s u t ↔ p.Rejects s ∧ t = s := by
  constructor
  · intro h
    by_cases hp : p.Rejects s
    · exact ⟨hp, (h.unique (run_notFollowedBy_of_rejects hp)).2⟩
    · exact absurd h (run_notFollowedBy_of_not_rejects hp).not_matches
  · rintro ⟨hp, rfl⟩
    exact run_notFollowedBy_of_rejects hp

/-- A parser that recovers counts as one that would match. -/
theorem rejects_notFollowedBy {p : Parser α} {s : Cursor} :
    (notFollowedBy p).Rejects s ↔ ¬ p.Rejects s := by
  constructor
  · intro h hp
    exact h.not_matches (run_notFollowedBy_of_rejects hp)
  · exact run_notFollowedBy_of_not_rejects

theorem not_recovers_notFollowedBy {p : Parser α} {s t : Cursor} {e : SyntaxError} :
    ¬ (notFollowedBy p).Recovers s e t := by
  by_cases hp : p.Rejects s
  · exact (run_notFollowedBy_of_rejects hp).not_recovers
  · exact (run_notFollowedBy_of_not_rejects hp).not_recovers

theorem cursor_notFollowedBy (p : Parser α) (s : Cursor) :
    ((notFollowedBy p).run s).cursor = s := by
  rcases hrun : p.run s with ⟨reply, t, log⟩
  cases reply <;> simp [notFollowedBy, hrun]

/-- The error reaches from the start of the construct up to here, and reading goes on behind the
construct. -/
theorem run_orFail_of_rejects {p : Parser α} {start s : Cursor} {message : String}
    (h : p.Rejects s) :
    (p.orFail start message).Recovers s ⟨message, start.line, start.offset, s.offset⟩
      (s.withError ⟨message, start.line, start.offset, s.offset⟩).synchronize := by
  rcases hrun : p.run s with ⟨reply, t, log⟩
  rw [Rejects, hrun] at h
  dsimp only at h
  subst h
  simp [Recovers, orFail, hrun]

theorem run_orFail_of_not_rejects {p : Parser α} {start s : Cursor} {message : String}
    (h : ¬ p.Rejects s) : (p.orFail start message).run s = p.run s := by
  rcases hrun : p.run s with ⟨reply, t, log⟩
  rw [Rejects, hrun] at h
  cases reply with
  | noMatch => exact absurd rfl h
  | _ => simp [orFail, hrun]

/-- Being committed to a parser does not change what it matches. -/
theorem matches_orFail {p : Parser α} {start s t : Cursor} {message : String} {a : α} :
    (p.orFail start message).Matches s a t ↔ p.Matches s a t := by
  by_cases hp : p.Rejects s
  · exact ⟨fun h ↦ absurd (run_orFail_of_rejects hp) h.not_recovers,
      fun h ↦ absurd h hp.not_matches⟩
  · rw [Matches, run_orFail_of_not_rejects hp, Matches]

/-- Behind a commitment no alternative is tried any more. -/
theorem not_rejects_orFail {p : Parser α} {start s : Cursor} {message : String} :
    ¬ (p.orFail start message).Rejects s := by
  intro h
  by_cases hp : p.Rejects s
  · exact h.not_recovers (run_orFail_of_rejects hp)
  · rw [Rejects, run_orFail_of_not_rejects hp] at h
    exact hp h

/-- The error is the parser's own, or the one recorded for its missing match. -/
theorem recovers_orFail {p : Parser α} {start s t : Cursor} {message : String} {e : SyntaxError}
    (h : (p.orFail start message).Recovers s e t) :
    p.Recovers s e t ∨
      e = ⟨message, start.line, start.offset, s.offset⟩ ∧ t = (s.withError e).synchronize := by
  by_cases hp : p.Rejects s
  · have hfail : (p.orFail start message).Recovers s _ _ := run_orFail_of_rejects hp
    have hreply := hfail.1.symm.trans h.1
    obtain rfl := Reply.recovered.inj hreply
    exact .inr ⟨rfl, h.2.symm.trans hfail.2⟩
  · rw [Recovers, run_orFail_of_not_rejects hp] at h
    exact .inl h

/-- The outcome of a rule is that of its parser, whether it is traced or not. -/
theorem matches_rule {g : Grammar} {r : Rule} {p : Parser α} {s t : Cursor} {a : α} :
    (g.rule r p).Matches s a t ↔ p.Matches s a t := by
  unfold Grammar.rule
  split <;> rfl

theorem rejects_rule {g : Grammar} {r : Rule} {p : Parser α} {s : Cursor} :
    (g.rule r p).Rejects s ↔ p.Rejects s := by
  unfold Grammar.rule
  split <;> rfl

theorem recovers_rule {g : Grammar} {r : Rule} {p : Parser α} {s t : Cursor} {e : SyntaxError} :
    (g.rule r p).Recovers s e t ↔ p.Recovers s e t := by
  unfold Grammar.rule
  split <;> rfl

/-! ## Fixed texts -/

theorem rejects_char {c : Char} {s : Cursor} : (char c).Rejects s ↔ s.peek? ≠ some c := by
  unfold char
  refine rejects_map.trans (rejects_satisfy.trans ?_)
  constructor
  · intro h hpeek
    simpa using h c hpeek
  · intro h d hpeek
    have hne : d ≠ c := by
      rintro rfl
      exact h hpeek
    simpa using hne

/-- A character that was read stood in front. -/
theorem rest_of_matches_char {c : Char} {s t : Cursor} {u : Unit} (h : (char c).Matches s u t) :
    s.rest = c :: t.rest := by
  obtain ⟨d, hd, -⟩ := matches_map.1 h
  obtain ⟨hpeek, hok, rfl⟩ := matches_satisfy.1 hd
  obtain rfl : d = c := by simpa using hok
  obtain ⟨more, hmore⟩ := List.head?_eq_some_iff.1 hpeek
  rw [Cursor.rest_advance, hmore, List.tail_cons]

/-- Layout always matches; it may take nothing. -/
theorem matches_layout {s t : Cursor} {u : Unit} :
    layout.Matches s u t ↔ t = s.forward (Text.layoutWidth false s.rest) := by
  change (Function.const _ () <$> taking (Text.layoutWidth false)).Matches s u t ↔ _
  simp only [matches_map, matches_taking]
  exact ⟨fun ⟨_, h, _⟩ ↦ h.2, fun h ↦ ⟨_, ⟨rfl, h⟩, trivial⟩⟩

theorem not_recovers_layout {s t : Cursor} {e : SyntaxError} : ¬ layout.Recovers s e t := by
  have hmatch : layout.Matches s () _ := matches_layout.2 rfl
  exact hmatch.not_recovers

/-- How much of an unconsumed text a literal takes. -/
theorem take_literalWidth (text : String) (rest : List Char) :
    rest.take (if text.toList.isPrefixOf rest then text.length else 0) =
      if text.toList <+: rest then text.toList else [] := by
  by_cases h : text.toList <+: rest
  · obtain ⟨more, rfl⟩ := h
    simp [← String.length_toList]
  · have hopens : ¬ text.toList.isPrefixOf rest = true := mt List.isPrefixOf_iff_prefix.1 h
    rw [if_neg hopens, if_neg h, List.take_zero]

/-- A fixed text matches where what is left begins with it. -/
theorem matches_literal {text : String} {s t : Cursor} {u : Unit} :
    (literal text).Matches s u t ↔
      text.toList <+: s.rest ∧ text.toList ≠ [] ∧ t = s.forward text.length := by
  unfold literal
  refine matches_map.trans ?_
  simp only [matches_lexeme, take_literalWidth]
  constructor
  · rintro ⟨taken, ⟨rfl, hne, rfl⟩, -⟩
    by_cases h : text.toList <+: s.rest
    · rw [if_pos h] at hne
      refine ⟨h, hne, ?_⟩
      rw [if_pos (List.isPrefixOf_iff_prefix.2 h)]
    · rw [if_neg h] at hne
      exact absurd rfl hne
  · rintro ⟨h, hne, rfl⟩
    refine ⟨_, ⟨rfl, ?_, ?_⟩, trivial⟩
    · rwa [if_pos h]
    · rw [if_pos (List.isPrefixOf_iff_prefix.2 h)]

theorem rejects_literal {text : String} {s : Cursor} :
    (literal text).Rejects s ↔ text.toList = [] ∨ ¬ text.toList <+: s.rest := by
  unfold literal
  refine rejects_map.trans ?_
  rw [rejects_lexeme, take_literalWidth]
  by_cases h : text.toList <+: s.rest <;> simp [h]

theorem not_recovers_literal {text : String} {s t : Cursor} {e : SyntaxError} :
    ¬ (literal text).Recovers s e t :=
  fun h ↦ not_recovers_lexeme (recovers_map.1 h)

/-- A keyword ends where a name would end. -/
theorem matches_keyword {word : String} {s t : Cursor} {u : Unit} :
    (keyword word).Matches s u t ↔
      word.toList <+: s.rest ∧ word.toList ≠ [] ∧ t = s.forward word.length ∧
        ∀ c, t.peek? = some c → Text.isNameChar c = false := by
  unfold keyword
  simp only [matches_bind, matches_literal, matches_notFollowedBy, rejects_satisfy]
  constructor
  · rintro ⟨_, v, ⟨hopens, hne, rfl⟩, hnext, rfl⟩
    exact ⟨hopens, hne, rfl, hnext⟩
  · rintro ⟨hopens, hne, rfl, hnext⟩
    exact ⟨(), _, ⟨hopens, hne, rfl⟩, hnext, rfl⟩

/-- A keyword rejects where another text stands, and also where its letters are only the first ones
of a longer name. -/
theorem rejects_keyword {word : String} {s : Cursor} :
    (keyword word).Rejects s ↔ word.toList = [] ∨ ¬ word.toList <+: s.rest ∨
      ∃ c, (s.forward word.length).peek? = some c ∧ Text.isNameChar c = true := by
  unfold keyword
  simp only [rejects_bind, matches_literal, rejects_literal, rejects_notFollowedBy,
    rejects_satisfy, Classical.not_forall, exists_prop, Bool.not_eq_false]
  constructor
  · rintro ((h | h) | ⟨_, v, ⟨-, -, rfl⟩, hnext⟩)
    · exact .inl h
    · exact .inr (.inl h)
    · exact .inr (.inr hnext)
  · rintro (h | h | hnext)
    · exact .inl (.inl h)
    · exact .inl (.inr h)
    · by_cases hempty : word.toList = []
      · exact .inl (.inl hempty)
      · by_cases hopens : word.toList <+: s.rest
        · exact .inr ⟨(), _, ⟨hopens, hempty, rfl⟩, hnext⟩
        · exact .inl (.inr hopens)

theorem not_recovers_keyword {word : String} {s t : Cursor} {e : SyntaxError} :
    ¬ (keyword word).Recovers s e t := by
  intro h
  rcases recovers_bind.1 h with h | ⟨_, _, -, h⟩
  · exact not_recovers_literal h
  · exact not_recovers_notFollowedBy h

/-! ## Repetition -/

theorem run_many_of_atEnd {p : Parser α} {s : Cursor} (hend : s.atEnd = true) :
    (many p).run s = ⟨.matched [], s, []⟩ := by
  change runMany p s = _
  rw [runMany, if_pos hend]

/-- A repetition without items still matches, and the log of the attempt is kept. -/
theorem run_many_of_rejects {p : Parser α} {s : Cursor} (hend : s.atEnd = false)
    (h : p.Rejects s) :
    (many p).run s = ⟨.matched [], s, (p.run s).events⟩ := by
  change runMany p s = _
  rcases hrun : p.run s with ⟨reply, t, log⟩
  rw [Rejects, hrun] at h
  dsimp only at h
  subst h
  rw [runMany, if_neg (by simp [hend]), hrun]

/-- An item that recovers ends the repetition, and the items before it are lost. -/
theorem run_many_of_recovers {p : Parser α} {s t : Cursor} {e : SyntaxError}
    (hend : s.atEnd = false) (h : p.Recovers s e t) :
    (many p).run s = ⟨.recovered e, t, (p.run s).events⟩ := by
  change runMany p s = _
  obtain ⟨hreply, hcursor⟩ := h
  rcases hrun : p.run s with ⟨reply, t, log⟩
  rw [hrun] at hreply hcursor
  dsimp only at hreply hcursor
  subst hreply hcursor
  rw [runMany, if_neg (by simp [hend]), hrun]

/-- An item that consumed nothing is the last one. -/
theorem run_many_of_matches {p : Parser α} {s t : Cursor} {a : α} (hend : s.atEnd = false)
    (h : p.Matches s a t) :
    (many p).run s =
      if t.remaining < s.remaining then
        ⟨((many p).run t).reply.map (a :: ·), ((many p).run t).cursor,
          (p.run s).events ++ ((many p).run t).events⟩
      else ⟨.matched [a], t, (p.run s).events⟩ := by
  change runMany p s = _
  obtain ⟨hreply, hcursor⟩ := h
  rcases hrun : p.run s with ⟨reply, t, log⟩
  rw [hrun] at hreply hcursor
  dsimp only at hreply hcursor
  subst hreply hcursor
  rw [runMany, if_neg (by simp [hend]), hrun]
  rfl

/-- Consecutive matches: each begins where the one before it ended, none at the end of the
source. -/
inductive Chain (p : Parser α) : Cursor → List α → Cursor → Prop where
  | nil {s : Cursor} : Chain p s [] s
  | cons {s t u : Cursor} {a : α} {items : List α} :
    s.atEnd = false → p.Matches s a t → Chain p t items u → Chain p s (a :: items) u

theorem matches_of_run {p : Parser α} {s t : Cursor} {a : α} {log : List Event}
    (h : p.run s = ⟨.matched a, t, log⟩) : p.Matches s a t := by
  rw [Matches, h]
  exact ⟨rfl, rfl⟩

/-- What a repetition went through, and why it stopped: the source is at its end, the item does not
match, or the last item consumed nothing. -/
theorem chain_and_stop_of_matches_many {p : Parser α} {s t : Cursor} {items : List α}
    (h : (many p).Matches s items t) :
    Chain p s items t ∧ (t.atEnd = true ∨ p.Rejects t ∨
      ∃ u a, u.atEnd = false ∧ p.Matches u a t ∧ ¬ t.remaining < u.remaining) := by
  change (runMany p s).reply = _ ∧ (runMany p s).cursor = _ at h
  -- The cases are those of one round: the end, an item and more, an idle item, no item, a break.
  induction s using runMany.induct p generalizing items with
  | case1 s hend =>
    rw [runMany, if_pos hend] at h
    obtain ⟨hreply, rfl⟩ := h
    obtain rfl := Reply.matched.inj hreply
    exact ⟨.nil, .inl hend⟩
  | case2 s hend a u log hrun hlt ih =>
    rw [runMany, if_neg hend, hrun] at h
    dsimp only at h
    rw [if_pos hlt] at h
    obtain ⟨hreply, hcursor⟩ := h
    cases hmore : (runMany p u).reply with
    | matched more =>
      rw [hmore] at hreply
      obtain rfl := Reply.matched.inj hreply
      obtain ⟨hchain, hstop⟩ := ih ⟨hmore, hcursor⟩
      exact ⟨.cons (Bool.not_eq_true _ ▸ hend) (matches_of_run hrun) hchain, hstop⟩
    | noMatch => rw [hmore] at hreply; cases hreply
    | recovered e => rw [hmore] at hreply; cases hreply
  | case3 s hend a u log hrun hlt =>
    rw [runMany, if_neg hend, hrun] at h
    dsimp only at h
    rw [if_neg hlt] at h
    obtain ⟨hreply, rfl⟩ := h
    obtain rfl := Reply.matched.inj hreply
    have hs : s.atEnd = false := Bool.not_eq_true _ ▸ hend
    have hmatch := matches_of_run hrun
    exact ⟨.cons hs hmatch .nil, .inr (.inr ⟨s, a, hs, hmatch, hlt⟩)⟩
  | case4 s hend u log hrun =>
    rw [runMany, if_neg hend, hrun] at h
    obtain ⟨hreply, rfl⟩ := h
    obtain rfl := Reply.matched.inj hreply
    exact ⟨.nil, .inr (.inl (by rw [Rejects, hrun]))⟩
  | case5 s hend e u log hrun =>
    rw [runMany, if_neg hend, hrun] at h
    cases h.1

theorem chain_of_matches_many {p : Parser α} {s t : Cursor} {items : List α}
    (h : (many p).Matches s items t) : Chain p s items t :=
  (chain_and_stop_of_matches_many h).1

theorem not_rejects_many {p : Parser α} {s : Cursor} : ¬ (many p).Rejects s := by
  change ¬ (runMany p s).reply = .noMatch
  fun_induction runMany p s with
  | case2 s _ a u log hrun _ r ih =>
    cases hr : r.reply with
    | noMatch => exact absurd hr ih
    | _ => simp [Reply.map]
  | _ => simp

/-- A repetition recovers only by an item that does, behind others that matched. -/
theorem recovers_many {p : Parser α} {s u : Cursor} {e : SyntaxError}
    (h : (many p).Recovers s e u) : ∃ items t, Chain p s items t ∧ p.Recovers t e u := by
  change (runMany p s).reply = _ ∧ (runMany p s).cursor = _ at h
  fun_induction runMany p s with
  | case1 s _ => cases h.1
  | case2 s hend a v log hrun _ r ih =>
    obtain ⟨hreply, hcursor⟩ := h
    cases hr : r.reply with
    | recovered d =>
      rw [hr] at hreply
      obtain rfl := Reply.recovered.inj hreply
      obtain ⟨items, t, hchain, hp⟩ := ih ⟨hr, hcursor⟩
      exact ⟨a :: items, t, .cons (Bool.not_eq_true _ ▸ hend) (matches_of_run hrun) hchain, hp⟩
    | matched more => rw [hr] at hreply; cases hreply
    | noMatch => rw [hr] at hreply; cases hreply
  | case3 s _ a v log hrun _ => cases h.1
  | case4 s _ v log _ => cases h.1
  | case5 s _ d v log hrun =>
    obtain ⟨hreply, rfl⟩ := h
    obtain rfl := Reply.recovered.inj hreply
    exact ⟨[], s, .nil, by rw [Recovers, hrun]; exact ⟨rfl, rfl⟩⟩

/-- A repetition whose item always makes progress stops only where it has to. -/
theorem stop_of_matches_many {p : Parser α} {s t : Cursor} {items : List α}
    (hp : ∀ s a t, s.atEnd = false → p.Matches s a t → t.remaining < s.remaining)
    (h : (many p).Matches s items t) : t.atEnd = true ∨ p.Rejects t := by
  rcases (chain_and_stop_of_matches_many h).2 with hend | hrejects | ⟨u, a, hu, hmatch, hidle⟩
  · exact .inl hend
  · exact .inr hrejects
  · exact absurd (hp u a t hu hmatch) hidle

theorem matches_many_nil {p : Parser α} {s : Cursor} (h : s.atEnd = true ∨ p.Rejects s) :
    (many p).Matches s [] s := by
  cases hend : s.atEnd with
  | true =>
    rw [Matches, run_many_of_atEnd hend]
    exact ⟨rfl, rfl⟩
  | false =>
    have hp : p.Rejects s := h.resolve_left (by simp [hend])
    rw [Matches, run_many_of_rejects hend hp]
    exact ⟨rfl, rfl⟩

/-- One item in front of a repetition, if it consumed something. -/
theorem matches_many_cons {p : Parser α} {s t u : Cursor} {a : α} {items : List α}
    (hp : p.Matches s a t) (hlt : t.remaining < s.remaining)
    (hmore : (many p).Matches t items u) : (many p).Matches s (a :: items) u := by
  rw [Matches, run_many_of_matches (Cursor.atEnd_of_remaining_lt hlt) hp, if_pos hlt, hmore.1,
    hmore.2]
  exact ⟨rfl, rfl⟩

end Lispette.Parser
