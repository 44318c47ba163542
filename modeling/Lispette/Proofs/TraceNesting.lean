import Lispette.Proofs.Bracketing
import Lispette.Proofs.SimilarPrograms
import Lispette.Proofs.Tracing

/-!
# The nesting of rules

However parsers are put together, the rules that they log are nested, and the ranks of nested rules
grow inwards. Two facts about a parser carry this: its log is in order, and, for the parsers that
become rules, it moves on whenever it does not fail to match. The second one lets whatever follows
such a parser use all rules again.

So no rule is entered again before the cursor has moved on, although the rules call each other
freely, and the depth of the calls is bounded by the length of the source.
-/

namespace Lispette

open Lispette.Parser Grammar

/-! ## Logs in order -/

/-- A run from `s` does not go back, it hands back `s` itself if it does not match, and of the rules
at `s` it logs only those above `level`. -/
structure Run.Orderly {α : Type} (level : Nat) (s : Cursor) (r : Run α) : Prop where
  offset_le : s.offset ≤ r.cursor.offset
  size_eq : r.cursor.size = s.size
  rejected : r.reply = .noMatch → r.cursor = s
  nested : Nested s.size (6 * s.offset + level) r.events

namespace Run.Orderly

variable {α : Type} {level : Nat} {s t : Cursor} {log : List Event}

/-- A run that ends where it began. -/
theorem stays {reply : Reply α} (hnested : Nested s.size (6 * s.offset + level) log) :
    (⟨reply, s, log⟩ : Run α).Orderly level s :=
  ⟨Nat.le_refl _, rfl, fun _ ↦ rfl, hnested⟩

theorem matched {a : α} (hoffset : s.offset ≤ t.offset) (hsize : t.size = s.size)
    (hnested : Nested s.size (6 * s.offset + level) log) :
    (⟨.matched a, t, log⟩ : Run α).Orderly level s :=
  ⟨hoffset, hsize, fun h ↦ (by cases h), hnested⟩

theorem recovered {e : SyntaxError} (hoffset : s.offset ≤ t.offset) (hsize : t.size = s.size)
    (hnested : Nested s.size (6 * s.offset + level) log) :
    (⟨.recovered e, t, log⟩ : Run α).Orderly level s :=
  ⟨hoffset, hsize, fun h ↦ (by cases h), hnested⟩

end Run.Orderly

namespace Parser

variable {α β : Type} {level : Nat}

def Logs (level : Nat) (p : Parser α) : Prop := ∀ s, (p.run s).Orderly level s

/-- The parser moves on unless it does not match. -/
structure Advances (p : Parser α) : Prop where
  matched : ∀ {s t : Cursor} {a : α}, p.Matches s a t → s.offset < t.offset
  recovered : ∀ {s t : Cursor} {e : SyntaxError}, p.Recovers s e t → s.offset < t.offset

/-- A parser that can become a rule. -/
structure Steps (level : Nat) (p : Parser α) : Prop where
  logs : Logs level p
  advances : Advances p

namespace Logs

/-- A parser that keeps to the upper rules keeps to more of them. -/
theorem mono {p : Parser α} {level' : Nat} (h : Logs level p) (hlevel : level' ≤ level) :
    Logs level' p := by
  intro s
  obtain ⟨hoffset, hsize, hrejected, hnested⟩ := h s
  exact ⟨hoffset, hsize, hrejected, hnested.mono (Nat.add_le_add_left hlevel _)⟩

theorem pure (a : α) : Logs level (Pure.pure a : Parser α) := fun _ ↦ .stays .nil

theorem noMatch : Logs level (noMatch : Parser α) := fun _ ↦ .stays .nil

theorem here : Logs level here := fun _ ↦ .stays .nil

/-- Text is taken without logging anything. -/
theorem taking (width : List Char → Nat) : Logs level (taking width) := by
  intro s
  have hreaches := s.reaches_forward (width s.rest)
  exact .matched hreaches.offset_le hreaches.size_eq .nil

theorem satisfy (ok : Char → Bool) : Logs level (satisfy ok) := by
  intro s
  rcases accepts_or_refuses ok s with ⟨c, hpeek, hok⟩ | hrefuses
  · rw [run_satisfy_of_accepts hpeek hok]
    exact .matched s.reaches_advance.offset_le s.reaches_advance.size_eq .nil
  · rw [run_satisfy_of_refuses hrefuses]
    exact .stays .nil

/-- What follows may use the rules from the level `next` on, if the move before it makes up for the
difference. -/
theorem sequel {next : Nat} {p : Parser α} {f : α → Parser β} (hp : Logs level p)
    (hf : ∀ a, Logs next (f a))
    (hnext : ∀ s a t, p.Matches s a t → 6 * s.offset + level ≤ 6 * t.offset + next) :
    Logs level (p >>= f) := by
  intro s
  have hs := hp s
  rcases hrun : p.run s with ⟨reply, t, log⟩
  rw [hrun] at hs
  obtain ⟨hoffset, hsize, hrejected, hnested⟩ := hs
  dsimp only at hoffset hsize hrejected hnested
  cases reply with
  | matched a =>
    have ht := hf a t
    rcases hafter : (f a).run t with ⟨answer, u, more⟩
    rw [hafter] at ht
    obtain ⟨hoffset', hsize', -, hnested'⟩ := ht
    dsimp only at hoffset' hsize' hnested'
    have hmore : Nested s.size (6 * s.offset + level) (log ++ more) := by
      rw [hsize] at hnested'
      exact hnested.append (hnested'.mono (hnext s a t (matches_of_run hrun)))
    cases answer with
    | noMatch =>
      simp only [bind_eq, andThen, hrun, hafter]
      exact .stays hmore
    | matched b =>
      simp only [bind_eq, andThen, hrun, hafter]
      exact .matched (Nat.le_trans hoffset hoffset') (hsize'.trans hsize) hmore
    | recovered e =>
      simp only [bind_eq, andThen, hrun, hafter]
      exact .recovered (Nat.le_trans hoffset hoffset') (hsize'.trans hsize) hmore
  | noMatch =>
    simp only [bind_eq, andThen, hrun]
    exact .stays hnested
  | recovered e =>
    simp only [bind_eq, andThen, hrun]
    exact .recovered hoffset hsize hnested

/-- A match lies no further back than where it began, in the same source. -/
theorem onward {p : Parser α} {s t : Cursor} {a : α} (h : Logs level p) (hmatch : p.Matches s a t) :
    s.offset ≤ t.offset ∧ t.size = s.size := by
  obtain ⟨hoffset, hsize, -, -⟩ := h s
  rw [hmatch.2] at hoffset hsize
  exact ⟨hoffset, hsize⟩

/-- Less of the source is left only further on. -/
theorem offset_lt {p : Parser α} {s t : Cursor} {a : α} (h : Logs level p)
    (hmatch : p.Matches s a t) (hlt : t.remaining < s.remaining) : s.offset < t.offset := by
  rw [Cursor.remaining, Cursor.remaining, (h.onward hmatch).2] at hlt
  omega

theorem offset_le_of_recovers {p : Parser α} {s t : Cursor} {e : SyntaxError} (h : Logs level p)
    (hbroken : p.Recovers s e t) : s.offset ≤ t.offset := by
  have hoffset := (h s).offset_le
  rwa [hbroken.2] at hoffset

/-- What follows begins no further back, so it may use the same rules. -/
theorem bind {p : Parser α} {f : α → Parser β} (hp : Logs level p) (hf : ∀ a, Logs level (f a)) :
    Logs level (p >>= f) := by
  refine hp.sequel hf fun s a t hmatch ↦ ?_
  have hoffset := (hp.onward hmatch).1
  omega

/-- Both alternatives log from the same place, one after the other. -/
theorem orElse {p q : Parser α} (hp : Logs level p) (hq : Logs level q) :
    Logs level (p <|> q) := by
  intro s
  have hs := hp s
  rcases hrun : p.run s with ⟨reply, t, log⟩
  rw [hrun] at hs
  cases reply with
  | noMatch =>
    obtain ⟨hoffset, hsize, hrejected, hnested⟩ := hq s
    simp only [HOrElse.hOrElse, OrElse.orElse, Parser.orElse, hrun]
    exact ⟨hoffset, hsize, hrejected, hs.nested.append hnested⟩
  | matched a =>
    simp only [HOrElse.hOrElse, OrElse.orElse, Parser.orElse, hrun]
    exact hs
  | recovered e =>
    simp only [HOrElse.hOrElse, OrElse.orElse, Parser.orElse, hrun]
    exact hs

/-- By induction along the loop: each item begins where the one before it ended. -/
theorem many {p : Parser α} (hp : Logs level p) : Logs level (many p) := by
  intro s
  change (runMany p s).Orderly level s
  have hreply (t : Cursor) : (runMany p t).reply ≠ .noMatch := not_rejects_many
  fun_induction runMany p s with
  | case1 s hend => exact .stays .nil
  | case2 s hend a t log hrun hlt r ih =>
    obtain ⟨hoffset, hsize, -, hnested⟩ := hp s
    rw [hrun] at hoffset hsize hnested
    dsimp only at hoffset hsize hnested
    have hmore := ih.nested
    rw [hsize] at hmore
    refine ⟨Nat.le_trans hoffset ih.offset_le, ih.size_eq.trans hsize, fun h ↦ ?_,
      hnested.append (hmore.mono (by omega))⟩
    cases hr : r.reply with
    | noMatch => exact absurd hr (hreply t)
    | matched items => simp [hr, Reply.map] at h
    | recovered e => simp [hr, Reply.map] at h
  | case3 s hend a t log hrun hlt =>
    obtain ⟨hoffset, hsize, -, hnested⟩ := hp s
    rw [hrun] at hoffset hsize hnested
    exact .matched hoffset hsize hnested
  | case4 s hend t log hrun =>
    have hnested := (hp s).nested
    rw [hrun] at hnested
    exact .stays hnested
  | case5 s hend e t log hrun =>
    obtain ⟨hoffset, hsize, -, hnested⟩ := hp s
    rw [hrun] at hoffset hsize hnested
    exact .recovered hoffset hsize hnested

/-- Looking ahead logs what it tries, and goes back to where it began. -/
theorem notFollowedBy {p : Parser α} (hp : Logs level p) : Logs level (notFollowedBy p) := by
  intro s
  have hnested := (hp s).nested
  rcases hrun : p.run s with ⟨reply, t, log⟩
  rw [hrun] at hnested
  cases reply <;>
  · simp only [Parser.notFollowedBy, hrun]
    exact .stays hnested

/-- Where something is missing, reading resumes further on. -/
theorem expect {p : Parser α} (hp : Logs level p) (start : Cursor) (missing : Fault) :
    Logs level (expect start missing p) := by
  intro s
  have hs := hp s
  rcases hrun : p.run s with ⟨reply, t, log⟩
  rw [hrun] at hs
  cases reply with
  | noMatch =>
    simp only [Parser.expect, orFail, hrun, Cursor.synchronize_withError]
    exact .recovered s.reaches_synchronize.offset_le s.reaches_synchronize.size_eq hs.nested
  | matched a =>
    simp only [Parser.expect, orFail, hrun]
    exact hs
  | recovered e =>
    simp only [Parser.expect, orFail, hrun]
    exact hs

theorem map {p : Parser α} (f : α → β) (hp : Logs level p) : Logs level (f <$> p) :=
  hp.bind fun a ↦ pure (f a)

theorem filterMap {p : Parser α} (f : α → Option β) (hp : Logs level p) :
    Logs level (filterMap f p) := by
  refine hp.bind fun a ↦ ?_
  cases f a with
  | none => exact noMatch
  | some b => exact pure b

theorem optional {p : Parser α} (hp : Logs level p) : Logs level (optional p) :=
  (hp.map some).orElse (pure none)

theorem oneOrMore {p : Parser α} (hp : Logs level p) : Logs level (oneOrMore p) :=
  hp.many.filterMap _

theorem layout : Logs level layout := (taking _).map _

end Logs

/-! ## Parsers that move on -/

namespace Advances

/-- Parsers that consume something and never recover, as the lexical ones do. -/
theorem of_consumes {p : Parser α} (hp : Logs level p) (hconsumes : Consumes p)
    (hbroken : ∀ s e t, ¬ p.Recovers s e t) : Advances p where
  matched hmatch := hp.offset_lt hmatch (hconsumes _ _ _ hmatch)
  recovered h := absurd h (hbroken _ _ _)

/-- If the first parser moves on, what follows does not go back. -/
theorem bind {p : Parser α} {f : α → Parser β} (hp : Advances p) (hf : ∀ a, Logs level (f a)) :
    Advances (p >>= f) where
  matched h := by
    obtain ⟨a, t, hmatch, hnext⟩ := matches_bind.1 h
    exact Nat.lt_of_lt_of_le (hp.matched hmatch) ((hf a).onward hnext).1
  recovered h := by
    rcases recovers_bind.1 h with h | ⟨a, t, hmatch, hnext⟩
    · exact hp.recovered h
    · exact Nat.lt_of_lt_of_le (hp.matched hmatch) ((hf a).offset_le_of_recovers hnext)

/-- What goes before takes nothing back. -/
theorem after {p : Parser α} {f : α → Parser β} (hp : Logs level p)
    (hbroken : ∀ s e t, ¬ p.Recovers s e t) (hf : ∀ a, Advances (f a)) : Advances (p >>= f) where
  matched h := by
    obtain ⟨a, t, hmatch, hnext⟩ := matches_bind.1 h
    exact Nat.lt_of_le_of_lt (hp.onward hmatch).1 ((hf a).matched hnext)
  recovered h := by
    rcases recovers_bind.1 h with h | ⟨a, t, hmatch, hnext⟩
    · exact absurd h (hbroken _ _ _)
    · exact Nat.lt_of_le_of_lt (hp.onward hmatch).1 ((hf a).recovered hnext)

/-- Whichever alternative matches. -/
theorem orElse {p q : Parser α} (hp : Advances p) (hq : Advances q) : Advances (p <|> q) where
  matched h := by
    rcases matches_orElse.1 h with h | ⟨-, h⟩
    · exact hp.matched h
    · exact hq.matched h
  recovered h := by
    rcases recovers_orElse.1 h with h | ⟨-, h⟩
    · exact hp.recovered h
    · exact hq.recovered h

end Advances

namespace Steps

theorem mono {p : Parser α} {level' : Nat} (h : Steps level p) (hlevel : level' ≤ level) :
    Steps level' p :=
  ⟨h.logs.mono hlevel, h.advances⟩

/-- What is left in the end lies where a rule may be left. -/
theorem closes {p : Parser α} (h : Steps level p) (s : Cursor) :
    (p.run s).reply.verdict.Closes s.toPosition (p.run s).cursor.toPosition := by
  cases hreply : (p.run s).reply with
  | noMatch => exact congrArg Cursor.toPosition ((h.logs s).rejected hreply)
  | matched a => exact h.advances.matched ⟨hreply, rfl⟩
  | recovered e => exact h.advances.recovered ⟨hreply, rfl⟩

/-- A rule calls only what lies above it, and is above whatever calls it. -/
theorem rule {p : Parser α} (g : Grammar) {r : Rule} (h : Steps r.level p)
    (hlevel : level < r.level) : Steps level (g.rule r p) := by
  unfold Grammar.rule
  split
  · refine ⟨fun s ↦ ⟨(h.logs s).offset_le, (h.logs s).size_eq, (h.logs s).rejected, ?_⟩,
      h.advances.matched, h.advances.recovered⟩
    have hplace : s.offset ≤ s.size := Nat.le.intro s.fits
    exact .rule hplace (Nat.add_lt_add_left hlevel _) (h.closes s) (h.logs s).nested .nil
  · exact h.mono (Nat.le_of_lt hlevel)

theorem bind {p : Parser α} {f : α → Parser β} (hp : Steps level p)
    (hf : ∀ a, Logs level (f a)) : Steps level (p >>= f) :=
  ⟨hp.logs.bind hf, hp.advances.bind hf⟩

/-- After a move, all rules may be used. -/
theorem guard {p : Parser α} {f : α → Parser β} (hp : Steps level p) (hf : ∀ a, Logs 0 (f a))
    (hlevel : level ≤ 6) : Steps level (p >>= f) := by
  refine ⟨hp.logs.sequel hf fun s a t hmatch ↦ ?_, hp.advances.bind hf⟩
  have hlt := hp.advances.matched hmatch
  omega

theorem after {p : Parser α} {f : α → Parser β} (hp : Logs level p)
    (hbroken : ∀ s e t, ¬ p.Recovers s e t) (hf : ∀ a, Steps level (f a)) :
    Steps level (p >>= f) :=
  ⟨hp.bind fun a ↦ (hf a).logs, .after hp hbroken fun a ↦ (hf a).advances⟩

theorem sequence {f : Cursor → Parser α} (hf : ∀ c, Steps level (f c)) :
    Steps level (here >>= f) :=
  after .here (fun _ _ _ ↦ not_recovers_here) hf

theorem map {p : Parser α} (f : α → β) (hp : Steps level p) : Steps level (f <$> p) :=
  hp.bind fun a ↦ .pure (f a)

theorem filterMap {p : Parser α} (f : α → Option β) (hp : Steps level p) :
    Steps level (filterMap f p) := by
  refine hp.bind fun a ↦ ?_
  cases f a with
  | none => exact .noMatch
  | some b => exact .pure b

theorem orElse {p q : Parser α} (hp : Steps level p) (hq : Steps level q) :
    Steps level (p <|> q) :=
  ⟨hp.logs.orElse hq.logs, hp.advances.orElse hq.advances⟩

/-- One alternative after the other; without any there is nothing to match. -/
theorem choice {ps : List (Parser α)} (h : ∀ p ∈ ps, Steps level p) : Steps level (choice ps) := by
  induction ps with
  | nil =>
    exact ⟨.noMatch, fun h ↦ absurd h not_matches_noMatch, fun h ↦ absurd h not_recovers_noMatch⟩
  | cons p ps ih =>
    obtain ⟨hp, hps⟩ := List.forall_mem_cons.1 h
    exact hp.orElse (ih hps)

/-- Signs and lexemes move on at every level, since they log nothing. -/
theorem char (c : Char) : Steps level (char c) := by
  have hlogs : Logs level (satisfy (· = c)) := .satisfy _
  exact map _ ⟨hlogs, .of_consumes hlogs (consumes_satisfy _) fun _ _ _ ↦ not_recovers_satisfy⟩

theorem lexeme (width : List Char → Nat) : Steps level (lexeme width) := by
  have hlogs : Logs level (Parser.lexeme width) := (Logs.taking width).filterMap _
  exact ⟨hlogs, .of_consumes hlogs (consumes_lexeme _) fun _ _ _ ↦ not_recovers_lexeme⟩

theorem literal (text : String) : Steps level (literal text) := (lexeme _).map _

theorem keyword (word : String) : Steps level (keyword word) :=
  (literal word).bind fun _ ↦ (Logs.satisfy _).notFollowedBy

end Steps

/-- The end of a form that has a closing character. -/
theorem Logs.ending (start : Cursor) (missing : Fault) (c : Char) (a : α) :
    Logs level (do Parser.layout; Parser.expect start missing (char c); return a : Parser α) :=
  Logs.layout.bind fun _ ↦ ((Steps.char c).logs.expect _ _).bind fun _ ↦ .pure a

/-- A form that begins with a character of its own may use all rules after it. -/
theorem Steps.form (g : Grammar) {r : Rule} {opening : Char} {steps : Cursor → Unit → Parser α}
    (hr : r.level = 5) (hsteps : ∀ c u, Logs 0 (steps c u)) :
    Steps 4 (g.rule r (Parser.here >>= fun c ↦ Parser.char opening >>= steps c)) := by
  have hform : Steps 5 (Parser.here >>= fun c ↦ Parser.char opening >>= steps c) :=
    .sequence fun c ↦ (Steps.char opening).guard (hsteps c) (by decide)
  exact .rule g (hr ▸ hform) (by omega)

end Parser

/-! ## Atoms -/

namespace Grammar

variable (g : Grammar) {level : Nat}

theorem steps_name : Steps level name := (Steps.lexeme _).filterMap _

/-- Atoms are rules of the last level, which all others may call where they begin. -/
theorem steps_identifier : Steps 4 g.identifier := .rule g (steps_name.map _) (by decide)

theorem steps_number : Steps 4 g.number := .rule g ((Steps.lexeme _).filterMap _) (by decide)

/-- A string is a form that begins with its quote. -/
theorem steps_string : Steps 4 g.string :=
  .form g (by decide) fun _ _ ↦ (Logs.taking _).bind fun _ ↦
    ((Steps.char _).logs.expect _ _).bind fun _ ↦ .pure _

theorem steps_boolean : Steps 4 g.boolean := by
  have hword (word : String) (value : Bool) :
      Steps 5 (do keyword word; return Expr.boolean value : Parser Expr) :=
    (Steps.keyword word).bind fun _ ↦ .pure _
  exact .rule g ((hword _ _).orElse (hword _ _)) (by decide)

theorem steps_nil : Steps 4 g.nil :=
  .rule g ((Steps.keyword _).bind fun _ ↦ .pure _) (by decide)

theorem steps_spelling (op : BinaryOperator) : Steps level (spelling op) := by
  unfold spelling
  split
  · exact .keyword _
  · exact (Steps.literal _).bind fun _ ↦ (Logs.satisfy _).map _

theorem steps_binaryOperator : Steps level binaryOperator := by
  refine .choice fun p hp ↦ ?_
  obtain ⟨op, -, rfl⟩ := List.mem_map.1 hp
  exact (steps_spelling op).bind fun _ ↦ .pure op

theorem steps_unaryOperator : Steps level unaryOperator := by
  refine .choice fun p hp ↦ ?_
  obtain ⟨op, -, rfl⟩ := List.mem_map.1 hp
  exact (Steps.char _).bind fun _ ↦ .pure op

end Grammar

/-! ## Forms -/

/-- Nothing is asked of parts but that their logs are in order. -/
structure Parts.Logged (A : Parts) : Prop where
  statement : Logs 0 A.statement
  expression : Logs 0 A.expression
  member : Logs 0 A.member

namespace Form

/-- Read inside of a definition only, so that it need not move on. -/
theorem logs_signature : Logs 0 signature :=
  Logs.here.bind fun _ ↦ (Steps.char _).logs.bind fun _ ↦ Logs.layout.bind fun _ ↦
    steps_name.logs.bind fun _ ↦ (Logs.layout.bind fun _ ↦ steps_name.logs).many.bind fun _ ↦
    .ending _ _ _ _

theorem logs_head : Logs 0 head := logs_signature.orElse (steps_name.logs.map _)

variable {A : Parts} (hA : A.Logged)

include hA

/-- Arguments follow the sign that opened the form, where all rules may be used. -/
theorem logs_arguments : Logs 0 (arguments A) := (Logs.layout.bind fun _ ↦ hA.expression).many

/-- A form by its opening bracket, as others are by their parenthesis. -/
theorem steps_array : Steps 4 (array A) :=
  .form _ (by decide) fun _ _ ↦ (logs_arguments hA).bind fun _ ↦ .ending _ _ _ _

theorem steps_block : Steps 4 (block A) :=
  .form _ (by decide) fun _ _ ↦ hA.statement.many.bind fun _ ↦ .ending _ _ _ _

theorem logs_body : Logs 0 (body A) :=
  ((steps_block hA).logs.mono (by decide)).orElse (hA.expression.map _)

theorem logs_branch : Logs 0 (branch A) :=
  Logs.here.bind fun _ ↦ Logs.layout.bind fun _ ↦ hA.expression.bind fun _ ↦
    Logs.layout.bind fun _ ↦ ((logs_body hA).expect _ _).bind fun _ ↦ .pure _

theorem logs_elseBranch : Logs 0 (elseBranch A) :=
  Logs.here.bind fun _ ↦ Logs.layout.bind fun _ ↦ (Steps.keyword _).logs.bind fun _ ↦
    Logs.layout.bind fun _ ↦ (logs_body hA).expect _ _

theorem steps_cond : Steps 4 (cond A) :=
  .form _ (by decide) fun _ _ ↦ Logs.layout.bind fun _ ↦ (Steps.keyword _).logs.bind fun _ ↦
    ((logs_branch hA).oneOrMore.expect _ _).bind fun _ ↦
    (logs_elseBranch hA).optional.bind fun _ ↦ .ending _ _ _ _

theorem steps_closure : Steps 4 (closure A) :=
  .form _ (by decide) fun _ _ ↦ Logs.layout.bind fun _ ↦
    (steps_name.logs.bind fun _ ↦ Logs.layout.bind fun _ ↦ .pure _).many.bind fun _ ↦
    ((Steps.char _).logs.expect _ _).bind fun _ ↦ Logs.layout.bind fun _ ↦
    ((logs_body hA).expect _ _).bind fun _ ↦ .pure _

theorem steps_binaryCall : Steps 4 (binaryCall A) :=
  .form _ (by decide) fun _ _ ↦ Logs.layout.bind fun _ ↦ steps_binaryOperator.logs.bind fun _ ↦
    Logs.layout.bind fun _ ↦ (hA.expression.expect _ _).bind fun _ ↦
    Logs.layout.bind fun _ ↦ (hA.expression.expect _ _).bind fun _ ↦ .ending _ _ _ _

/-- No rule by itself: it is logged only as a call. -/
theorem steps_application : Steps 5 (application A) := by
  refine .sequence fun _ ↦ (Steps.char _).guard (fun _ ↦ ?_) (by decide)
  exact Logs.layout.bind fun _ ↦ hA.member.bind fun _ ↦ (logs_arguments hA).bind fun _ ↦
    .ending _ _ _ _

theorem steps_call : Steps 4 (call A) :=
  .rule _ ((steps_application hA).bind fun _ ↦ .pure _) (by decide)

/-- The links of a chain are logged only through what stands in them. -/
theorem logs_chainCall : Logs 0 (chainCall A) :=
  ((steps_application hA).logs.mono (by decide)).orElse (hA.member.bind fun _ ↦ .pure _)

theorem steps_methodChain : Steps 4 (methodChain A) :=
  .form _ (by decide) fun _ _ ↦ Logs.layout.bind fun _ ↦ (Steps.literal _).logs.bind fun _ ↦
    Logs.layout.bind fun _ ↦ (hA.expression.expect _ _).bind fun _ ↦
    (Logs.layout.bind fun _ ↦ (Steps.literal _).logs.bind fun _ ↦ Logs.layout.bind fun _ ↦
      (logs_chainCall hA).expect _ _).many.bind fun _ ↦ .ending _ _ _ _

/-- All alternatives are rules of the last level. -/
theorem steps_primary : Steps 4 (primary A) := by
  refine .choice ?_
  simp only [primaryForms, List.forall_mem_cons]
  exact ⟨steps_number _, steps_string _, steps_boolean _, steps_nil _, steps_array hA,
    steps_identifier _, steps_cond hA, steps_closure hA, steps_binaryCall hA, steps_methodChain hA,
    (steps_block hA).map _, steps_call hA, by simp⟩

/-- A key is another expression without operators, but it begins further on. -/
theorem steps_member : Steps 3 (member A) := by
  have hkeys (start : Cursor) :
      Logs 0 (many (do char '/'; expect start .memberKey (primary A))) :=
    ((Steps.char _).logs.bind fun _ ↦
      ((steps_primary hA).logs.mono (by decide)).expect _ _).many
  have hsteps (start : Cursor) : Steps 4 (do
      let target ← primary A
      let keys ← many (do char '/'; expect start .memberKey (primary A))
      return keys.foldl .member target) :=
    (steps_primary hA).guard (fun _ ↦ (hkeys start).bind fun _ ↦ .pure _) (by decide)
  exact .rule _ (.sequence hsteps) (by decide)

/-- An operand begins behind its operator; without one, a member is called at the same place. -/
theorem steps_unary : Steps 2 (unary A) := by
  have happlied : Steps 3 (applied A) :=
    steps_unaryOperator.guard (fun _ ↦ hA.expression.bind fun _ ↦ .pure _) (by decide)
  exact .rule _ (happlied.orElse (steps_member hA)) (by decide)

/-- The body of a function, or the value of a constant. -/
theorem logs_defined (start : Cursor) (head : Head) : Logs 0 (defined A start head) := by
  cases head with
  | function name parameters => exact (hA.statement.oneOrMore.expect _ _).bind fun _ ↦ .pure _
  | constant name => exact (hA.expression.expect _ _).bind fun _ ↦ .pure _

theorem steps_definition : Steps 4 (definition A) :=
  .form _ (by decide) fun _ _ ↦ Logs.layout.bind fun _ ↦ (Steps.keyword _).logs.bind fun _ ↦
    Logs.layout.bind fun _ ↦ (logs_head.expect _ _).bind fun found ↦ Logs.layout.bind fun _ ↦
    (logs_defined hA _ found).bind fun _ ↦ .ending _ _ _ _

theorem steps_print : Steps 4 (print A) :=
  .form _ (by decide) fun _ _ ↦ Logs.layout.bind fun _ ↦ (Steps.keyword _).logs.bind fun _ ↦
    Logs.layout.bind fun _ ↦ (hA.expression.expect _ _).bind fun _ ↦ .ending _ _ _ _

/-- Layout may be empty, so the form behind it has to be of a higher level than the statement. -/
theorem steps_statement : Steps 1 (statement A) := by
  have hform : Steps 2 (definition A <|> print A <|> unary A) :=
    ((steps_definition hA).mono (by decide)).orElse
      (((steps_print hA).mono (by decide)).orElse (steps_unary hA))
  have hsteps : Steps 2 (do
      layout
      let form ← definition A <|> print A <|> unary A
      layout
      return form) :=
    .after .layout (fun _ _ _ ↦ not_recovers_layout) fun _ ↦
      hform.bind fun _ ↦ Logs.layout.bind fun _ ↦ .pure _
  exact .rule _ hsteps (by decide)

end Form

/-- The three parts together, by induction on how deep the rules are unfolded. -/
theorem Parts.logged_ofDepth (g : Grammar) (depth : Nat) : (Parts.ofDepth g depth).Logged := by
  induction depth with
  | zero => exact ⟨.noMatch, .noMatch, .noMatch⟩
  | succ depth ih =>
    exact ⟨(Form.steps_statement ih).logs.mono (by decide),
      (Form.steps_unary ih).logs.mono (by decide), (Form.steps_member ih).logs.mono (by decide)⟩

/-! ## Programs -/

/-- Keeping an error as a statement passes what the statement left open. -/
theorem Parser.Logs.salvaged {p : Parser Expr} {level : Nat} (hp : Logs level p) :
    Logs level (salvaged p) := by
  intro s
  have hs := hp s
  rcases hrun : p.run s with ⟨reply, t, log⟩
  rw [hrun] at hs
  cases reply with
  | recovered e =>
    have hreaches := Cursor.reaches_closeStatement s t
    simp only [Grammar.salvaged, hrun]
    exact .matched (Nat.le_trans hs.offset_le hreaches.offset_le)
      (hreaches.size_eq.trans hs.size_eq) hs.nested
  | matched a =>
    simp only [Grammar.salvaged, hrun]
    exact hs
  | noMatch =>
    simp only [Grammar.salvaged, hrun]
    exact hs

namespace Grammar

/-- What is skipped between statements is no rule. -/
theorem logs_skipped {level : Nat} : Logs level skipped := by
  intro s
  unfold skipped
  dsimp only
  split
  · exact .stays .nil
  · exact .matched s.reaches_synchronize.offset_le s.reaches_synchronize.size_eq .nil

variable (g : Grammar)

/-- From parts of every depth to the grammar. -/
theorem logs_statement : Logs 1 g.statement := by
  intro s
  rw [statement, run_nested]
  exact (Form.steps_statement (Parts.logged_ofDepth g _)).logs s

theorem logs_topLevel : Logs 1 g.topLevel :=
  g.logs_statement.salvaged.orElse (Logs.layout.bind fun _ ↦ logs_skipped)

/-- A step of the loop moves on, whether it reads a statement or leaves an error behind. -/
theorem offset_lt_of_topLevel {s t : Cursor} {e : Expr} (hend : s.atEnd = false)
    (h : g.topLevel.Matches s e t) : s.offset < t.offset :=
  g.logs_topLevel.offset_lt h (g.remaining_lt_of_topLevel hend h)

/-- Each statement takes at least one byte. -/
theorem onward_of_chain {s t : Cursor} {body : List Expr} (h : Chain g.topLevel s body t) :
    s.offset + body.length ≤ t.offset ∧ t.size = s.size := by
  induction h with
  | nil => exact ⟨Nat.le_refl _, rfl⟩
  | cons hend hmatch _ ih =>
    obtain ⟨hle, hsize⟩ := ih
    have hlt := g.offset_lt_of_topLevel hend hmatch
    refine ⟨?_, hsize.trans (g.logs_topLevel.onward hmatch).2⟩
    rw [List.length_cons]
    omega

/-- There is a first statement, and it moves on. -/
theorem steps_statements : Steps 1 (oneOrMore g.topLevel) where
  logs := g.logs_topLevel.oneOrMore
  advances := by
    refine ⟨fun {s t body} h ↦ ?_, fun h ↦ ?_⟩
    · obtain ⟨found, hmany, hkept⟩ := matches_filterMap.1 h
      obtain ⟨hle, -⟩ := g.onward_of_chain (chain_of_matches_many hmany)
      cases found with
      | nil => simp at hkept
      | cons e more =>
        rw [List.length_cons] at hle
        omega
    · obtain ⟨_, _, -, hbroken⟩ := recovers_many (recovers_filterMap.1 h)
      exact absurd hbroken g.not_recovers_topLevel

/-- What the rule for programs consists of. -/
theorem steps_programBody :
    Steps 1 (do let body ← oneOrMore g.topLevel; layout; return { body } : Parser Program) :=
  g.steps_statements.bind fun _ ↦ Logs.layout.bind fun _ ↦ .pure _

/-- The log of a whole source. -/
theorem nested_parse (source : String) :
    Nested (byteLength source.toList) 0 (g.parse source).events := by
  have hprogram : Steps 0 g.program := .rule g g.steps_programBody (by decide)
  exact (hprogram.logs (Cursor.ofSource source)).nested

/-- The loop over statements ends here, or it goes on from a place further on. -/
theorem many_topLevel_step (s : Cursor) :
    (many g.topLevel).Matches s [] s ∨
      ∃ e t, g.topLevel.Matches s e t ∧ s.offset < t.offset ∧
        ∃ body u, (many g.topLevel).Matches t body u ∧
          (many g.topLevel).Matches s (e :: body) u := by
  cases hend : s.atEnd with
  | true => exact .inl (matches_many_nil (.inl hend))
  | false =>
    rcases outcome g.topLevel s with ⟨e, t, hmatch⟩ | hrejects | ⟨d, t, hbroken⟩
    · obtain ⟨body, u, hmore⟩ := g.exists_matches_many t
      have hlt := g.remaining_lt_of_topLevel hend hmatch
      exact .inr ⟨e, t, hmatch, g.offset_lt_of_topLevel hend hmatch, body, u, hmore,
        matches_many_cons hmatch hlt hmore⟩
    · exact .inl (matches_many_nil (.inr hrejects))
    · exact absurd hbroken g.not_recovers_topLevel

/-- Every statement takes a byte, so there are no more of them than bytes. -/
theorem length_body_le {source : String} {p : Program} (h : (g.parse source).program = some p) :
    p.body.length ≤ byteLength source.toList := by
  obtain ⟨-, u, hchain, -⟩ := g.matches_program (g.program_parse h)
  obtain ⟨hle, hsize⟩ := g.onward_of_chain hchain
  have hu : u.offset ≤ u.size := Nat.le.intro u.fits
  rw [hsize] at hu
  exact Nat.le_trans (Nat.le_add_left _ _) (Nat.le_trans hle hu)

/-- Unfolding the rules as deep as there are bytes left is enough. -/
theorem run_statement_ofDepth {depth : Nat} {s : Cursor} (h : s.remaining ≤ depth) :
    (Form.statement (Parts.ofDepth g depth)).run s = g.statement.run s := by
  have hdepth : s.remaining + 1 ≤ depth + 1 := Nat.succ_le_succ h
  have hagree := Parts.agreeBelow_ofDepth g hdepth (Nat.le_succ (s.remaining + 1))
  exact hagree.statement s (Nat.lt_succ_self _)

end Grammar

/-- Keeping a trace changes nothing, and the trace is nested: inside the rule for programs, which
comes first and last, every rule that is left is the one that was entered last, at the very place
where it was entered if it did not match, and further on otherwise. -/
theorem parse_traced (source : String) :
    ((Grammar.mk true).parse source).program = (parse source).program ∧
      ((Grammar.mk true).parse source).final = (parse source).final ∧
      ∃ inside verdict stop,
        ((Grammar.mk true).parse source).events =
          .enter "program" (Cursor.ofSource source).toPosition ::
            (inside ++ [.exit "program" verdict stop]) ∧
        stop = (parse source).final.toPosition ∧ opened? inside = some [] ∧
        verdict.Closes (Cursor.ofSource source).toPosition stop := by
  obtain ⟨hprogram, hfinal⟩ := parse_untraced ⟨true⟩ {} source
  have hbody := steps_programBody ⟨true⟩
  exact ⟨hprogram, hfinal, _, _, _, rfl, congrArg Cursor.toPosition hfinal,
    (hbody.logs (Cursor.ofSource source)).nested.opened, hbody.closes (Cursor.ofSource source)⟩

/-- No rule is entered again at the place where it is still open, and no step of the loop over
statements stays where it is. So rules nest to a bounded depth, statements are no more than bytes,
and unfolding the rules any deeper than that changes nothing. -/
theorem parse_progress (source : String) :
    (∀ before rule place after,
      ((Grammar.mk true).parse source).events = before ++ .enter rule place :: after →
        ∃ entered, opened? before = some entered ∧
          ∀ outer ∈ entered, outer.rule = rule → outer.place.offset < place.offset) ∧
    (∀ before after, ((Grammar.mk true).parse source).events = before ++ after →
      ∃ entered, opened? before = some entered ∧
        entered.length ≤ Fintype.card Rule * (byteLength source.toList + 1)) ∧
    ∀ g : Grammar,
      (∀ s, (many g.topLevel).Matches s [] s ∨
        ∃ e t, g.topLevel.Matches s e t ∧ s.offset < t.offset ∧
          ∃ body u, (many g.topLevel).Matches t body u ∧
            (many g.topLevel).Matches s (e :: body) u) ∧
      (∀ p, (g.parse source).program = some p → p.body.length ≤ byteLength source.toList) ∧
      ∀ s depth, s.remaining ≤ depth →
        (Form.statement (Parts.ofDepth g depth)).run s = g.statement.run s := by
  have hnested := nested_parse ⟨true⟩ source
  refine ⟨fun _ _ _ _ hlog ↦ hnested.enters_further hlog, fun before after hlog ↦ ?_, fun g ↦
    ⟨g.many_topLevel_step, fun _ ↦ g.length_body_le, fun _ _ ↦ g.run_statement_ofDepth⟩⟩
  obtain ⟨entered, hopened, hlength⟩ := hnested.length_opened_le hlog
  have hrules : 6 ≤ Fintype.card Rule := by decide
  exact ⟨entered, hopened, hlength.trans (Nat.mul_le_mul_right _ hrules)⟩

end Lispette
