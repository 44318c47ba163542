import Lispette.Grammar.Atom
import Lispette.Proofs.Outcome

/-!
# The contract of parsers

However parsers are put together, a run keeps three promises. A parser that does not match hands
back its cursor as it was. A match only moves forward and records nothing. A recovery records one
error, which lies between the place where the parser was started and the place where it gives up,
and then goes on strictly beyond that error unless the source ends there.

An error spans from the beginning of the sequence that failed. So the promises are stated, and
proved along the construction of a parser, relative to the beginning of the sequence around it.
-/

namespace Lispette.Parser

/-- The parsers that can be built. `start` is where the sequence begins of which the parser is a
step; `none` stands for a parser outside of any sequence. -/
inductive Built : (start : Option Cursor) → {α : Type} → Parser α → Prop where
  | pure {start : Option Cursor} {α : Type} (a : α) : Built start (pure a : Parser α)
  | noMatch {start : Option Cursor} {α : Type} : Built start (noMatch : Parser α)
  | here {start : Option Cursor} : Built start here
  | satisfy {start : Option Cursor} (ok : Char → Bool) : Built start (satisfy ok)
  | taking {start : Option Cursor} (width : List Char → Nat) : Built start (taking width)
  | bind {start : Option Cursor} {α β : Type} {p : Parser α} {f : α → Parser β} :
    Built start p → (∀ a, Built start (f a)) → Built start (p >>= f)
  | orElse {start : Option Cursor} {α : Type} {p q : Parser α} :
    Built start p → Built start q → Built start (p <|> q)
  | many {start : Option Cursor} {α : Type} {p : Parser α} : Built start p → Built start (many p)
  | notFollowedBy {start : Option Cursor} {α : Type} {p : Parser α} :
    Built start p → Built start (notFollowedBy p)
  | traced {start : Option Cursor} {α : Type} {p : Parser α} (rule : String) :
    Built start p → Built start (p.traced rule)
  /-- A step to which the sequence is committed. -/
  | orFail {start : Cursor} {α : Type} {p : Parser α} (message : String) :
    Built (some start) p → Built (some start) (p.orFail start message)
  /-- Any parser may be a step. -/
  | step {start : Cursor} {α : Type} {p : Parser α} : Built none p → Built (some start) p
  /-- A sequence begins where it is run. -/
  | sequence {start : Option Cursor} {α : Type} {steps : Cursor → Parser α} :
    (∀ c, Built (some c) (steps c)) → Built start (Parser.here >>= steps)
  /-- A parser may be built anew wherever it is run. -/
  | anew {start : Option Cursor} {α : Type} {p : Cursor → Parser α} :
    (∀ s, Built start (p s)) → Built start ⟨fun s ↦ (p s).run s⟩

namespace Built

variable {start : Option Cursor} {α β : Type} {p : Parser α} {q : Parser β}

theorem map (f : α → β) (hp : Built start p) : Built start (f <$> p) :=
  hp.bind fun a ↦ .pure (f a)

theorem seqLeft (hp : Built start p) (hq : Built start q) : Built start (p <* q) :=
  hp.bind fun a ↦ hq.bind fun _ ↦ .pure a

theorem seqRight (hp : Built start p) (hq : Built start q) : Built start (p *> q) :=
  hp.bind fun _ ↦ hq

theorem filterMap (f : α → Option β) (hp : Built start p) : Built start (filterMap f p) := by
  refine hp.bind fun a ↦ ?_
  cases f a with
  | none => exact .noMatch
  | some b => exact .pure b

theorem optional (hp : Built start p) : Built start (optional p) :=
  (hp.map some).orElse (.pure none)

theorem oneOrMore (hp : Built start p) : Built start (oneOrMore p) :=
  hp.many.filterMap _

/-- By induction on the alternatives, as a choice is made of binary ones. -/
theorem choice {ps : List (Parser α)} (h : ∀ p ∈ ps, Built start p) :
    Built start (choice ps) := by
  induction ps with
  | nil => exact .noMatch
  | cons p ps ih =>
    exact (h p (by simp)).orElse (ih fun q hq ↦ h q (by simp [hq]))

theorem char (c : Char) : Built start (char c) := (satisfy _).map _

theorem lexeme (width : List Char → Nat) : Built start (lexeme width) := (taking width).filterMap _

theorem literal (text : String) : Built start (literal text) := (lexeme _).map _

theorem layout : Built start layout := (taking _).map _

theorem keyword (word : String) : Built start (keyword word) :=
  (literal word).bind fun _ ↦ (satisfy _).notFollowedBy

/-- A rule with its trace is built like the parser it names, and without it is that parser. -/
theorem rule (g : Grammar) (r : Rule) (hp : Built start p) : Built start (g.rule r p) := by
  unfold Grammar.rule
  split
  · exact hp.traced _
  · exact hp

end Built

/-! ## The promises -/

/-- Reading broke at a cursor `d`, in a sequence that began at `c`. -/
def Broken (start s : Cursor) (e : SyntaxError) (t : Cursor) : Prop :=
  ∃ c d message, start.Reaches c ∧ c.Reaches d ∧ s.Reaches d ∧
    e = ⟨message, c.line, c.offset, d.offset⟩ ∧ t = d.synchronize.withError e

/-- A broken construct is also seen from further back, where a sequence around it began. -/
theorem Broken.mono {start start' s s' t : Cursor} {e : SyntaxError} (h : Broken start s e t)
    (hstart : start'.Reaches start) (hs : s'.Reaches s) : Broken start' s' e t := by
  obtain ⟨c, d, message, hc, hcd, hd, he, ht⟩ := h
  exact ⟨c, d, message, hstart.trans hc, hcd, hs.trans hd, he, ht⟩

/-- The promises of a parser inside a sequence that begins at `start`. -/
structure Obeys {α : Type} (start : Option Cursor) (p : Parser α) : Prop where
  rejected : ∀ {s : Cursor}, p.Rejects s → (p.run s).cursor = s
  matched : ∀ {s t : Cursor} {a : α}, p.Matches s a t → s.Reaches t
  recovered : ∀ {s t : Cursor} {e : SyntaxError}, (∀ c ∈ start, c.Reaches s) →
    p.Recovers s e t → Broken (start.getD s) s e t

/-- The start of the sequence around a parser, or the place of the parser itself if there is none,
lies before that place. -/
theorem getD_reaches {start : Option Cursor} {s : Cursor} (h : ∀ c ∈ start, c.Reaches s) :
    (start.getD s).Reaches s := by
  cases start with
  | none => exact .refl s
  | some c => exact h c rfl

theorem getD_reaches_getD {start : Option Cursor} {s t : Cursor} (h : s.Reaches t) :
    (start.getD s).Reaches (start.getD t) := by
  cases start with
  | none => exact h
  | some c => exact .refl c

section

variable {start : Option Cursor} {α β : Type} {p q : Parser α}

theorem Chain.reaches {s t : Cursor} {items : List α} (h : Chain p s items t)
    (hp : ∀ {s t : Cursor} {a : α}, p.Matches s a t → s.Reaches t) : s.Reaches t := by
  induction h with
  | nil => exact .refl _
  | cons _ hmatch _ ih => exact (hp hmatch).trans ih

theorem Obeys.pure (a : α) : Obeys start (Pure.pure a : Parser α) where
  rejected h := absurd h not_rejects_pure
  matched h := by
    obtain ⟨-, rfl⟩ := matches_pure.1 h
    exact .refl _
  recovered _ h := absurd h not_recovers_pure

theorem Obeys.noMatch : Obeys start (noMatch : Parser α) where
  rejected _ := rfl
  matched h := absurd h not_matches_noMatch
  recovered _ h := absurd h not_recovers_noMatch

theorem Obeys.here : Obeys start here where
  rejected h := absurd h not_rejects_here
  matched h := by
    obtain ⟨-, rfl⟩ := matches_here.1 h
    exact .refl _
  recovered _ h := absurd h not_recovers_here

/-- A character that is refused leaves the cursor in place, and one that is accepted moves it by
one. -/
theorem Obeys.satisfy (ok : Char → Bool) : Obeys start (satisfy ok) where
  rejected h := by rw [run_satisfy_of_refuses (rejects_satisfy.1 h)]
  matched h := by
    obtain ⟨-, -, rfl⟩ := matches_satisfy.1 h
    exact Cursor.reaches_advance _
  recovered _ h := absurd h not_recovers_satisfy

theorem Obeys.taking (width : List Char → Nat) : Obeys start (taking width) where
  rejected h := absurd h not_rejects_taking
  matched h := by
    obtain ⟨-, rfl⟩ := matches_taking.1 h
    exact Cursor.reaches_forward _ _
  recovered _ h := absurd h not_recovers_taking

/-- The second parser starts where the first one ended, and the sequence around both still begins
where it began. -/
theorem Obeys.bind {f : α → Parser β} (hp : Obeys start p) (hf : ∀ a, Obeys start (f a)) :
    Obeys start (p >>= f) where
  rejected := cursor_bind_of_rejects
  matched h := by
    obtain ⟨a, t, hmatch, hnext⟩ := matches_bind.1 h
    exact (hp.matched hmatch).trans ((hf a).matched hnext)
  recovered hstart h := by
    rcases recovers_bind.1 h with hbroken | ⟨a, t, hmatch, hbroken⟩
    · exact hp.recovered hstart hbroken
    · have hst := hp.matched hmatch
      have hafter := (hf a).recovered (fun c hc ↦ (hstart c hc).trans hst) hbroken
      exact hafter.mono (getD_reaches_getD hst) hst

/-- The second alternative runs where the first one began, so its promises are those of the whole.
-/
theorem Obeys.orElse (hp : Obeys start p) (hq : Obeys start q) : Obeys start (p <|> q) where
  rejected h := by
    obtain ⟨hrejects, hnext⟩ := rejects_orElse.1 h
    rw [(run_orElse_of_rejects hrejects).2, hq.rejected hnext]
  matched h := by
    rcases matches_orElse.1 h with h | ⟨-, h⟩
    · exact hp.matched h
    · exact hq.matched h
  recovered hstart h := by
    rcases recovers_orElse.1 h with h | ⟨-, h⟩
    · exact hp.recovered hstart h
    · exact hq.recovered hstart h

/-- An item that breaks does so behind others that matched, and these only lead on. -/
theorem Obeys.many (hp : Obeys start p) : Obeys start (many p) where
  rejected h := absurd h not_rejects_many
  matched h := (chain_of_matches_many h).reaches hp.matched
  recovered hstart h := by
    obtain ⟨items, t, hchain, hbroken⟩ := recovers_many h
    have hst := hchain.reaches hp.matched
    have hafter := hp.recovered (fun c hc ↦ (hstart c hc).trans hst) hbroken
    exact hafter.mono (getD_reaches_getD hst) hst

theorem Obeys.notFollowedBy : Obeys start (notFollowedBy p) where
  rejected _ := cursor_notFollowedBy p _
  matched h := by
    obtain ⟨-, rfl⟩ := matches_notFollowedBy.1 h
    exact .refl _
  recovered _ h := absurd h not_recovers_notFollowedBy

/-- Here errors come about: they reach from the start of the sequence to the place where the parser
did not match. -/
theorem Obeys.orFail {c : Cursor} (message : String) (hp : Obeys (some c) p) :
    Obeys (some c) (p.orFail c message) where
  rejected h := absurd h not_rejects_orFail
  matched h := hp.matched (matches_orFail.1 h)
  recovered {s t e} hstart h := by
    rcases recovers_orFail h with hbroken | ⟨he, ht⟩
    · exact hp.recovered hstart hbroken
    · rw [Cursor.synchronize_withError] at ht
      exact ⟨c, s, message, .refl c, hstart c rfl, .refl s, he, ht⟩

/-- A parser that needs no sequence around it may stand in any, and then breaks at a place behind
its start. -/
theorem Obeys.step {c : Cursor} (hp : Obeys none p) : Obeys (some c) p where
  rejected := hp.rejected
  matched := hp.matched
  recovered hstart h :=
    (hp.recovered (by simp) h).mono (hstart c rfl) (.refl _)

/-- A sequence is its own start. Seen from a sequence around it, it begins further on. -/
theorem Obeys.sequence {steps : Cursor → Parser α} (h : ∀ c, Obeys (some c) (steps c)) :
    Obeys start (Parser.here >>= steps) where
  rejected := cursor_bind_of_rejects
  matched hmatch := (h _).matched (matches_sequence.1 hmatch)
  recovered {s t e} hstart hbroken := by
    have hbegins : ∀ c ∈ some s, c.Reaches s := by
      rintro c ⟨⟩
      exact .refl s
    have hsteps := (h s).recovered hbegins (recovers_sequence.1 hbroken)
    exact hsteps.mono (getD_reaches hstart) (.refl s)

end

/-- By induction on how the parser is built, with one lemma for each way of building it. -/
theorem Built.obeys {start : Option Cursor} {α : Type} {p : Parser α} (h : Built start p) :
    Obeys start p := by
  induction h with
  | pure a => exact .pure a
  | noMatch => exact .noMatch
  | here => exact .here
  | satisfy ok => exact .satisfy ok
  | taking width => exact .taking width
  | bind _ _ ihp ihf => exact ihp.bind ihf
  | orElse _ _ ihp ihq => exact ihp.orElse ihq
  | many _ ih => exact ih.many
  | notFollowedBy _ _ => exact .notFollowedBy
  | traced rule _ ih => exact ⟨ih.rejected, ih.matched, ih.recovered⟩
  | orFail message _ ih => exact ih.orFail message
  | step _ ih => exact ih.step
  | sequence _ ih => exact .sequence ih
  | anew _ ih => exact ⟨(ih _).rejected, (ih _).matched, (ih _).recovered⟩

/-! ## The contract -/

/-- What a run from `s` in a source may leave behind. -/
def Contract {α : Type} (source : String) (s : Cursor) (run : Run α) : Prop :=
  match run.reply with
  | .noMatch => run.cursor = s
  | .matched _ =>
    run.cursor.StandsIn source ∧ s.offset ≤ run.cursor.offset ∧ run.cursor.errors = s.errors
  | .recovered e =>
    run.cursor.StandsIn source ∧ run.cursor.errors = s.errors ++ [e] ∧
      s.offset ≤ e.start ∧ e.start ≤ e.stop ∧ e.stop ≤ run.cursor.offset ∧
      e.line = lineAt source.toList e.start ∧
      (e.stop < run.cursor.offset ∨ run.cursor.atEnd = true)

/-- What a broken construct leaves behind, in terms of offsets: its error lies behind the start, and
the cursor has moved beyond the end of the error unless the source is over. -/
theorem Broken.contract {source : String} {s t : Cursor} {e : SyntaxError} (h : Broken s s e t)
    (hs : s.StandsIn source) :
    t.StandsIn source ∧ t.errors = s.errors ++ [e] ∧
      s.offset ≤ e.start ∧ e.start ≤ e.stop ∧ e.stop ≤ t.offset ∧
      e.line = lineAt source.toList e.start ∧ (e.stop < t.offset ∨ t.atEnd = true) := by
  obtain ⟨c, d, message, hc, hcd, hd, rfl, rfl⟩ := h
  have hsync := d.reaches_synchronize
  have herrors : d.synchronize.errors = s.errors := (hd.trans hsync).errors_eq
  refine ⟨((hd.trans hsync).standsIn hs).withError _, ?_, hc.offset_le, hcd.offset_le,
    hsync.offset_le, (hc.standsIn hs).line_eq, d.offset_lt_synchronize_or_atEnd⟩
  rw [Cursor.withError, herrors]

/-- Parsers keep the contract at every cursor, however they are built. -/
theorem built_contract {α : Type} {p : Parser α} {source : String} {s : Cursor}
    (hp : Built none p) (hs : s.Reachable source) : Contract source s (p.run s) := by
  have hobeys := hp.obeys
  unfold Contract
  cases hreply : (p.run s).reply with
  | noMatch => exact hobeys.rejected hreply
  | matched a =>
    have hreaches : s.Reaches (p.run s).cursor := hobeys.matched ⟨hreply, rfl⟩
    exact ⟨hreaches.standsIn hs.standsIn, hreaches.offset_le, hreaches.errors_eq⟩
  | recovered e =>
    have hbroken := hobeys.recovered (by simp) (⟨hreply, rfl⟩ : p.Recovers s e _)
    exact hbroken.contract hs.standsIn

theorem built_string (g : Grammar) : Built none g.string :=
  .rule g _ <| .sequence fun _ ↦ (Built.char _).bind fun _ ↦ (Built.taking _).bind fun _ ↦
    ((Built.char _).orFail _).bind fun _ ↦ .pure _

/-- After a letter of two bytes and two items, a string begins that is not closed. -/
theorem built_contract_open_string :
    let item := choice [keyword "nil", discard (Grammar.string {}) <* optional (char ',')]
    let p : Parser (List Unit) := layout *> oneOrMore item
    let source := "é nil\"a\",\"b\n(c)"
    let s := (Cursor.ofSource source).advance.withError ⟨"earlier", 1, 0, 1⟩
    Built none p ∧ s.Reachable source ∧
      (p.run s).reply = .recovered ⟨Fault.stringEnd.message, 1, 10, 12⟩ ∧
      Contract source s (p.run s) := by
  intro item p source s
  have hstring : Built none (discard (Grammar.string {}) <* optional (char ',')) :=
    ((built_string {}).map _).seqLeft (Built.char _).optional
  have hitem : Built none item := .choice (by simpa using ⟨.keyword _, hstring⟩)
  have hp : Built none p := Built.layout.seqRight hitem.oneOrMore
  have hs : s.Reachable source := .withError _ (.advance .ofSource)
  exact ⟨hp, hs, by decide +kernel, built_contract hp hs⟩

end Lispette.Parser
