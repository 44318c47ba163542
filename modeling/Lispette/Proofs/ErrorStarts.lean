import Lispette.Proofs.ErrorSpans
import Lispette.Proofs.FormReading
import Lispette.Proofs.Placement

/-!
# Where errors start

A construct is recognised by its first character, and never by layout. So an error starts on the
first character of the construct that failed, and names the line of that character. The branches of
a conditional are the exception. A branch begins directly behind what comes before it, so an error
about its missing body starts in front of the layout between the two.
-/

namespace Lispette

open Lispette.Parser Grammar

/-! ## Text and layout at a cursor -/

namespace Cursor

variable {s : Cursor}

/-- Something other than layout stands at the cursor. -/
def OnText (s : Cursor) : Prop := ∃ c, s.peek? = some c ∧ Text.isSpace c = false ∧ c ≠ ';'

def pastLayout (s : Cursor) : Cursor := s.forward (Text.layoutWidth false s.rest)

theorem reaches_pastLayout (s : Cursor) : s.Reaches s.pastLayout := s.reaches_forward _

theorem rest_pastLayout (s : Cursor) : s.pastLayout.rest = Text.dropLayout s.rest :=
  rest_forward _ s

/-- In front of text there is no layout to pass. -/
theorem OnText.pastLayout_eq (h : s.OnText) : s.pastLayout = s := by
  obtain ⟨c, hpeek, hspace, hcomment⟩ := h
  have hsolid : Solid s.rest := by
    intro d hd
    obtain rfl : c = d := Option.some.inj (hpeek.symm.trans hd)
    exact ⟨hspace, hcomment⟩
  rw [pastLayout, layoutWidth_of_solid hsolid, forward]

/-- Behind the layout comes text, unless the source is over. -/
theorem onText_pastLayout (h : s.pastLayout.atEnd = false) : s.pastLayout.OnText := by
  have hsolid : Solid s.pastLayout.rest := s.rest_pastLayout ▸ Text.solid_dropLayout s.rest
  cases hrest : s.pastLayout.rest with
  | nil => simp [atEnd, hrest] at h
  | cons c cs =>
    rw [hrest] at hsolid
    exact ⟨c, by rw [peek?, hrest, List.head?_cons], hsolid c rfl⟩

end Cursor

namespace SyntaxError

def StartsAt (c : Cursor) (e : SyntaxError) : Prop := e.line = c.line ∧ e.start = c.offset

/-- The fault is a body that is missing from a branch of a conditional. -/
def LacksBranchBody (e : SyntaxError) : Prop :=
  e.message = Fault.branchBody.message ∨ e.message = Fault.elseBody.message

/-- The error starts at the cursor and reaches into the text there. Only if a branch lacks its body
does layout come before that text. -/
structure Marks (c : Cursor) (e : SyntaxError) : Prop where
  startsAt : e.StartsAt c
  onText : c.pastLayout.OnText
  reaches : c.pastLayout.offset < e.stop
  gap : c.pastLayout = c ∨ e.LacksBranchBody

/-- Something was passed after the layout, and the error reaches at least as far. -/
theorem Marks.of_passed {c t : Cursor} {e : SyntaxError} (hstart : e.StartsAt c)
    (hreaches : c.pastLayout.Reaches t) (hless : t.remaining < c.pastLayout.remaining)
    (hstop : t.offset ≤ e.stop) (hgap : c.pastLayout = c ∨ e.LacksBranchBody) : e.Marks c := by
  have hend : c.pastLayout.atEnd = false := by
    rw [Bool.eq_false_iff, ne_eq, ← Cursor.remaining_eq_zero]
    omega
  exact ⟨hstart, Cursor.onText_pastLayout hend,
    Nat.lt_of_lt_of_le (hreaches.remaining_lt_iff.1 hless) hstop, hgap⟩

end SyntaxError

/-! ## Parsers that pinpoint their errors -/

namespace Parser

/-- The error is one of the sequence around the parser, or it marks a place from `s` on. -/
def Located (own : SyntaxError → Prop) (s : Cursor) (e : SyntaxError) : Prop :=
  own e ∧ s.offset ≤ e.stop ∨ ∃ c, s.Reaches c ∧ e.Marks c

/-- What marks a place further on is also located from here. -/
theorem Located.after {own : SyntaxError → Prop} {s t : Cursor} {e : SyntaxError}
    (h : Located own t e) (hst : s.Reaches t) : Located own s e := by
  rcases h with ⟨hown, hstop⟩ | ⟨c, htc, hmarks⟩
  · exact .inl ⟨hown, Nat.le_trans hst.offset_le hstop⟩
  · exact .inr ⟨c, hst.trans htc, hmarks⟩

/-- `own` describes the errors of the sequence of which the parser is a step. -/
structure Pinpoints {α : Type} (own : SyntaxError → Prop) (p : Parser α) : Prop where
  matched : ∀ {s t : Cursor} {a : α}, p.Matches s a t → s.Reaches t
  recovered : ∀ {s t : Cursor} {e : SyntaxError}, p.Recovers s e t → Located own s e

/-- Wherever the parser matches, it begins with text. -/
def BeginsOnText {α : Type} (p : Parser α) : Prop := ∀ s a t, p.Matches s a t → s.OnText

/-- A single character that is not layout. -/
theorem beginsOnText_char {c : Char} (hspace : Text.isSpace c = false) (hcomment : c ≠ ';') :
    BeginsOnText (char c) :=
  fun s _ _ h ↦ ⟨c, by rw [Cursor.peek?, rest_of_matches_char h, List.head?_cons], hspace, hcomment⟩

namespace Pinpoints

variable {α β : Type} {own : SyntaxError → Prop} {p q : Parser α}

/-- A parser that is no step of a sequence may become one. -/
theorem inside (hp : Pinpoints (fun _ ↦ False) p) : Pinpoints own p where
  matched := hp.matched
  recovered h := .inr ((hp.recovered h).resolve_left fun hown ↦ hown.1)

theorem pure (a : α) : Pinpoints own (Pure.pure a : Parser α) where
  matched h := by
    obtain ⟨-, rfl⟩ := matches_pure.1 h
    exact .refl _
  recovered h := absurd h not_recovers_pure

theorem noMatch : Pinpoints own (noMatch : Parser α) where
  matched h := absurd h not_matches_noMatch
  recovered h := absurd h not_recovers_noMatch

theorem satisfy (ok : Char → Bool) : Pinpoints own (satisfy ok) where
  matched {s t c} h := by
    obtain ⟨-, -, rfl⟩ := matches_satisfy.1 h
    exact s.reaches_advance
  recovered h := absurd h not_recovers_satisfy

theorem taking (width : List Char → Nat) : Pinpoints own (taking width) where
  matched {s t text} h := by
    obtain ⟨-, rfl⟩ := matches_taking.1 h
    exact s.reaches_forward _
  recovered h := absurd h not_recovers_taking

theorem notFollowedBy : Pinpoints own (notFollowedBy p) where
  matched h := by
    obtain ⟨-, rfl⟩ := matches_notFollowedBy.1 h
    exact .refl _
  recovered h := absurd h not_recovers_notFollowedBy

/-- An error of the second step lies behind what the first one passed. -/
theorem bind {f : α → Parser β} (hp : Pinpoints own p) (hf : ∀ a, Pinpoints own (f a)) :
    Pinpoints own (p >>= f) where
  matched h := by
    obtain ⟨a, t, hmatch, hnext⟩ := matches_bind.1 h
    exact (hp.matched hmatch).trans ((hf a).matched hnext)
  recovered h := by
    rcases recovers_bind.1 h with hbroken | ⟨a, t, hmatch, hbroken⟩
    · exact hp.recovered hbroken
    · exact ((hf a).recovered hbroken).after (hp.matched hmatch)

/-- Whichever alternative breaks, it began at the same place. -/
theorem orElse (hp : Pinpoints own p) (hq : Pinpoints own q) : Pinpoints own (p <|> q) where
  matched h := by
    rcases matches_orElse.1 h with h | ⟨-, h⟩
    · exact hp.matched h
    · exact hq.matched h
  recovered h := by
    rcases recovers_orElse.1 h with h | ⟨-, h⟩
    · exact hp.recovered h
    · exact hq.recovered h

/-- The items before the one that broke only lead on to it. -/
theorem many (hp : Pinpoints own p) : Pinpoints own (many p) where
  matched h := (chain_of_matches_many h).reaches hp.matched
  recovered h := by
    obtain ⟨items, t, hchain, hbroken⟩ := recovers_many h
    exact (hp.recovered hbroken).after (hchain.reaches hp.matched)

theorem rule (g : Grammar) (r : Rule) (hp : Pinpoints own p) : Pinpoints own (g.rule r p) where
  matched h := hp.matched (matches_rule.1 h)
  recovered h := hp.recovered (recovers_rule.1 h)

/-- The error of a missing match is one of the sequence around it, as it starts where that began. -/
theorem orFail {start : Cursor} {message : String} (hp : Pinpoints own p)
    (hown : ∀ stop, own ⟨message, start.line, start.offset, stop⟩) :
    Pinpoints own (p.orFail start message) where
  matched h := hp.matched (matches_orFail.1 h)
  recovered h := by
    rcases recovers_orFail h with hbroken | ⟨rfl, -⟩
    · exact hp.recovered hbroken
    · exact .inl ⟨hown _, Nat.le_refl _⟩

/-- Inside of a sequence, commitments refer to its start. -/
theorem expect {start : Cursor} (missing : Fault) (hp : Pinpoints (SyntaxError.StartsAt start) p) :
    Pinpoints (SyntaxError.StartsAt start) (expect start missing p) :=
  hp.orFail fun _ ↦ ⟨rfl, rfl⟩

theorem map (f : α → β) (hp : Pinpoints own p) : Pinpoints own (f <$> p) :=
  hp.bind fun a ↦ .pure (f a)

theorem filterMap (f : α → Option β) (hp : Pinpoints own p) : Pinpoints own (filterMap f p) := by
  refine hp.bind fun a ↦ ?_
  cases f a with
  | none => exact .noMatch
  | some b => exact .pure b

theorem optional (hp : Pinpoints own p) : Pinpoints own (optional p) :=
  (hp.map some).orElse (.pure none)

theorem oneOrMore (hp : Pinpoints own p) : Pinpoints own (oneOrMore p) := hp.many.filterMap _

theorem choice {ps : List (Parser α)} (h : ∀ p ∈ ps, Pinpoints own p) :
    Pinpoints own (choice ps) := by
  induction ps with
  | nil => exact .noMatch
  | cons p ps ih =>
    obtain ⟨hp, hps⟩ := List.forall_mem_cons.1 h
    exact hp.orElse (ih hps)

theorem char (c : Char) : Pinpoints own (char c) := (satisfy _).map _

theorem lexeme (width : List Char → Nat) : Pinpoints own (lexeme width) :=
  (taking width).filterMap _

theorem literal (text : String) : Pinpoints own (literal text) := (lexeme _).map _

theorem layout : Pinpoints own layout := (taking _).map _

theorem keyword (word : String) : Pinpoints own (keyword word) :=
  (literal word).bind fun _ ↦ .notFollowedBy

end Pinpoints

/-! ## Sequences -/

section

variable {α β : Type} {own : SyntaxError → Prop} {first : Parser α} {steps : Cursor → α → Parser β}

/-- A sequence that is recognised where it begins. -/
theorem pinpoints_sequence (hfirst : Pinpoints (fun _ ↦ False) first) (hconsumes : Consumes first)
    (htext : BeginsOnText first) (hsteps : ∀ c a, Pinpoints (SyntaxError.StartsAt c) (steps c a)) :
    Pinpoints own (here >>= fun c ↦ first >>= steps c) where
  matched h := by
    obtain ⟨a, t, hmatch, hnext⟩ := matches_bind.1 (matches_sequence.1 h)
    exact (hfirst.matched hmatch).trans ((hsteps _ a).matched hnext)
  recovered {s u e} h := by
    rcases recovers_bind.1 (recovers_sequence.1 h) with hbroken | ⟨a, t, hmatch, hbroken⟩
    · exact hfirst.inside.recovered hbroken
    have hst := hfirst.matched hmatch
    have hless := hconsumes s a t hmatch
    have hpast := (htext s a t hmatch).pastLayout_eq
    rcases (hsteps s a).recovered hbroken with ⟨hstart, hstop⟩ | ⟨c, htc, hmarks⟩
    · refine .inr ⟨s, .refl s, .of_passed hstart ?_ ?_ hstop (.inl hpast)⟩
      · rwa [hpast]
      · rwa [hpast]
    · exact .inr ⟨c, hst.trans htc, hmarks⟩

/-- A sequence that begins in front of layout. -/
theorem pinpoints_spaced (hfirst : Pinpoints (fun _ ↦ False) first) (hconsumes : Consumes first)
    (hsteps : ∀ c a, Pinpoints (fun e ↦ e.StartsAt c ∧ e.LacksBranchBody) (steps c a)) :
    Pinpoints own (here >>= fun c ↦ layout >>= fun _ ↦ first >>= steps c) where
  matched {s u b} h := by
    obtain ⟨_, v, hlayout, hspaced⟩ := matches_bind.1 (matches_sequence.1 h)
    obtain rfl : v = s.pastLayout := matches_layout.1 hlayout
    obtain ⟨a, t, hmatch, hnext⟩ := matches_bind.1 hspaced
    exact (s.reaches_pastLayout.trans (hfirst.matched hmatch)).trans ((hsteps s a).matched hnext)
  recovered {s u e} h := by
    rcases recovers_bind.1 (recovers_sequence.1 h) with hbroken | ⟨_, v, hlayout, hspaced⟩
    · exact absurd hbroken not_recovers_layout
    obtain rfl : v = s.pastLayout := matches_layout.1 hlayout
    rcases recovers_bind.1 hspaced with hbroken | ⟨a, t, hmatch, hbroken⟩
    · exact (hfirst.inside.recovered hbroken).after s.reaches_pastLayout
    have hvt := hfirst.matched hmatch
    have hless := hconsumes s.pastLayout a t hmatch
    rcases (hsteps s a).recovered hbroken with ⟨⟨hstart, hlacks⟩, hstop⟩ | ⟨c, htc, hmarks⟩
    · exact .inr ⟨s, .refl s, .of_passed hstart hvt hless hstop (.inr hlacks)⟩
    · exact .inr ⟨c, (s.reaches_pastLayout.trans hvt).trans htc, hmarks⟩

end

end Parser

/-! ## Atoms -/

section

variable {own : SyntaxError → Prop}

theorem pinpoints_name : Pinpoints own Grammar.name := (Pinpoints.lexeme _).filterMap _

theorem pinpoints_binaryOperator : Pinpoints own binaryOperator := by
  refine .choice fun p hp ↦ ?_
  obtain ⟨op, -, rfl⟩ := List.mem_map.1 hp
  have hspelling : Pinpoints own (spelling op) := by
    unfold spelling
    split
    · exact .keyword _
    · exact (Pinpoints.literal _).bind fun _ ↦ (Pinpoints.satisfy _).map _
  exact hspelling.bind fun _ ↦ .pure op

theorem pinpoints_unaryOperator : Pinpoints own unaryOperator := by
  refine .choice fun p hp ↦ ?_
  obtain ⟨op, -, rfl⟩ := List.mem_map.1 hp
  exact (Pinpoints.char _).bind fun _ ↦ .pure op

end

/-! ## Forms -/

structure Parts.Pinpoints (A : Parts) : Prop where
  built : A.AllBuilt
  consumes : Consumes A.expression
  statement : Parser.Pinpoints (fun _ ↦ False) A.statement
  expression : Parser.Pinpoints (fun _ ↦ False) A.expression
  member : Parser.Pinpoints (fun _ ↦ False) A.member

namespace Form

/-- A form that begins with a sign of its own. -/
theorem pinpoints_opening {α : Type} {own : SyntaxError → Prop} {opening : Char}
    (hspace : Text.isSpace opening = false) (hcomment : opening ≠ ';')
    {steps : Cursor → Unit → Parser α}
    (h : ∀ c u, Pinpoints (SyntaxError.StartsAt c) (steps c u)) :
    Pinpoints own (here >>= fun c ↦ char opening >>= steps c) :=
  pinpoints_sequence (.char _) (consumes_char _) (beginsOnText_char hspace hcomment) h

/-- A missing closing character is reported at the start of the form that it should close. -/
theorem pinpoints_closing {α : Type} {start : Cursor} (missing : Fault) (c : Char) (a : α) :
    Pinpoints (SyntaxError.StartsAt start)
      (do layout; expect start missing (char c); return a) :=
  Pinpoints.layout.bind fun _ ↦ ((Pinpoints.char c).expect missing).bind fun _ ↦ .pure a

theorem pinpoints_string {own : SyntaxError → Prop} (g : Grammar) : Pinpoints own g.string :=
  .rule _ _ <| pinpoints_opening (by decide) (by decide) fun _ _ ↦
    (Pinpoints.taking _).bind fun _ ↦ ((Pinpoints.char _).expect _).bind fun _ ↦ .pure _

/-- No expression begins with layout. -/
theorem refuses_primary_layout {A : Parts} {input : List Char}
    (h : ∀ c ∈ input.head?, Text.isSpace c = true ∨ c = ';') : Refuses (primary A) input := by
  have hhead {c : Char} (hspace : Text.isSpace c = false) (hcomment : c ≠ ';') :
      input.head? ≠ some c := by
    intro hc
    rcases h c hc with hlayout | hlayout
    · rw [hspace] at hlayout
      cases hlayout
    · exact hcomment hlayout
  have hname {c : Char} (hchar : Text.isNameChar c = true) : input.head? ≠ some c := by
    obtain ⟨hspace, hcomment, -⟩ :=
      Similarity.not_layout_of_isPlain (Text.isPlain_of_isNameChar hchar)
    exact hhead hspace hcomment
  have hword {word : String} {c : Char} (hfirst : word.toList.head? = some c)
      (hchar : Text.isNameChar c = true) : Refuses (keyword word) input :=
    .keyword_of_head (hfirst ▸ hname hchar)
  have hsigns : ['"', '[', '(', '|', '\x7b'].all (fun c ↦ !Text.isSpace c && c ≠ ';') = true := by
    decide
  refine refuses_primary ?_ (hword rfl (by decide)) (hword rfl (by decide))
    (hword rfl (by decide)) (refuses_name ?_) ?_
  · intro c hc
    exact Bool.eq_false_iff.2 fun hdigit ↦ hname (Text.isNameChar_of_isDigit hdigit) hc
  · intro c hc
    exact Bool.eq_false_iff.2 fun hstart ↦ hname (isNameChar_of_isNameStart hstart) hc
  · intro c hc
    have hsign := List.all_eq_true.1 hsigns c hc
    simp only [Bool.and_eq_true, Bool.not_eq_true', decide_eq_true_eq] at hsign
    exact hhead hsign.1 hsign.2

/-- No primary expression is recognised by layout: where layout stands first, all alternatives
refuse. -/
theorem beginsOnText_primary (A : Parts) : BeginsOnText (primary A) := by
  intro s e t hmatch
  by_contra htext
  refine (refuses_primary_layout (fun c hc ↦ ?_) s rfl).not_matches hmatch
  by_contra hlayout
  obtain ⟨hspace, hcomment⟩ := not_or.1 hlayout
  exact htext ⟨c, hc, Bool.eq_false_iff.2 hspace, hcomment⟩

variable {A : Parts} {own : SyntaxError → Prop} (hA : A.Pinpoints)

include hA

/-- Arguments are no sequence of their own. Their errors are those of their expressions. -/
theorem pinpoints_arguments : Pinpoints own (arguments A) :=
  .many <| Pinpoints.layout.bind fun _ ↦ hA.expression.inside

theorem pinpoints_array : Pinpoints own (array A) :=
  .rule _ _ <| pinpoints_opening (by decide) (by decide) fun _ _ ↦
    (pinpoints_arguments hA).bind fun _ ↦ pinpoints_closing _ _ _

theorem pinpoints_block : Pinpoints own (block A) :=
  .rule _ _ <| pinpoints_opening (by decide) (by decide) fun _ _ ↦
    hA.statement.inside.many.bind fun _ ↦ pinpoints_closing _ _ _

theorem pinpoints_blockExpression : Pinpoints own (blockExpression A) := (pinpoints_block hA).map _

theorem pinpoints_body : Pinpoints own (body A) :=
  (pinpoints_block hA).orElse (hA.expression.inside.map _)

/-- A branch starts in front of its layout, and what it may lack is its body. -/
theorem pinpoints_branch : Pinpoints own (branch A) :=
  pinpoints_spaced hA.expression hA.consumes fun _ _ ↦ Pinpoints.layout.bind fun _ ↦
    ((pinpoints_body hA).orFail fun _ ↦ ⟨⟨rfl, rfl⟩, .inl rfl⟩).bind fun _ ↦ .pure _

/-- The same holds for the last branch, which is recognised by its keyword. -/
theorem pinpoints_elseBranch : Pinpoints own (elseBranch A) :=
  pinpoints_spaced (.keyword _) (consumes_keyword _) fun _ _ ↦ Pinpoints.layout.bind fun _ ↦
    (pinpoints_body hA).orFail fun _ ↦ ⟨⟨rfl, rfl⟩, .inr rfl⟩

/-- The form itself is recognised by its parenthesis; only its branches start earlier than their
text. -/
theorem pinpoints_cond : Pinpoints own (cond A) :=
  .rule _ _ <| pinpoints_opening (by decide) (by decide) fun _ _ ↦ Pinpoints.layout.bind fun _ ↦
    (Pinpoints.keyword _).bind fun _ ↦ ((pinpoints_branch hA).oneOrMore.expect _).bind fun _ ↦
    (pinpoints_elseBranch hA).optional.bind fun _ ↦ pinpoints_closing _ _ _

theorem pinpoints_closure : Pinpoints own (closure A) :=
  .rule _ _ <| pinpoints_opening (by decide) (by decide) fun _ _ ↦ Pinpoints.layout.bind fun _ ↦
    (Pinpoints.many <| pinpoints_name.bind fun _ ↦ Pinpoints.layout.bind fun _ ↦
      .pure _).bind fun _ ↦
    ((Pinpoints.char _).expect _).bind fun _ ↦ Pinpoints.layout.bind fun _ ↦
    ((pinpoints_body hA).expect _).bind fun _ ↦ .pure _

theorem pinpoints_binaryCall : Pinpoints own (binaryCall A) :=
  .rule _ _ <| pinpoints_opening (by decide) (by decide) fun _ _ ↦ Pinpoints.layout.bind fun _ ↦
    pinpoints_binaryOperator.bind fun _ ↦ Pinpoints.layout.bind fun _ ↦
    (hA.expression.inside.expect _).bind fun _ ↦ Pinpoints.layout.bind fun _ ↦
    (hA.expression.inside.expect _).bind fun _ ↦ pinpoints_closing _ _ _

theorem pinpoints_application : Pinpoints own (application A) :=
  pinpoints_opening (by decide) (by decide) fun _ _ ↦ Pinpoints.layout.bind fun _ ↦
    hA.member.inside.bind fun _ ↦ (pinpoints_arguments hA).bind fun _ ↦ pinpoints_closing _ _ _

theorem pinpoints_call : Pinpoints own (call A) :=
  .rule _ _ <| (pinpoints_application hA).bind fun _ ↦ .pure _

theorem pinpoints_chainCall : Pinpoints own (chainCall A) :=
  (pinpoints_application hA).orElse (hA.member.inside.bind fun _ ↦ .pure _)

theorem pinpoints_methodChain : Pinpoints own (methodChain A) :=
  .rule _ _ <| pinpoints_opening (by decide) (by decide) fun _ _ ↦ Pinpoints.layout.bind fun _ ↦
    (Pinpoints.literal _).bind fun _ ↦ Pinpoints.layout.bind fun _ ↦
    (hA.expression.inside.expect _).bind fun _ ↦
    (Pinpoints.many <| Pinpoints.layout.bind fun _ ↦ (Pinpoints.literal _).bind fun _ ↦
      Pinpoints.layout.bind fun _ ↦ (pinpoints_chainCall hA).expect _).bind fun _ ↦
    pinpoints_closing _ _ _

theorem pinpoints_primary : Pinpoints own (primary A) := by
  have hnumber : Pinpoints own A.number := ((Pinpoints.lexeme _).filterMap _).rule _ _
  have hboolean : Pinpoints own A.boolean :=
    (((Pinpoints.keyword _).bind fun _ ↦ .pure _).orElse
      ((Pinpoints.keyword _).bind fun _ ↦ .pure _)).rule _ _
  have hnil : Pinpoints own A.nil := ((Pinpoints.keyword _).bind fun _ ↦ .pure _).rule _ _
  refine .choice ?_
  simp only [primaryForms, List.forall_mem_cons]
  exact ⟨hnumber, pinpoints_string _, hboolean, hnil, pinpoints_array hA,
    (pinpoints_name.map _).rule _ _, pinpoints_cond hA, pinpoints_closure hA,
    pinpoints_binaryCall hA, pinpoints_methodChain hA, pinpoints_blockExpression hA,
    pinpoints_call hA, by simp⟩

/-- A missing key is reported at the start of the target. -/
theorem pinpoints_member : Pinpoints own (member A) :=
  .rule _ _ <| pinpoints_sequence (pinpoints_primary hA) (consumes_primary hA.built)
    (beginsOnText_primary A) fun _ _ ↦
    (Pinpoints.many <| (Pinpoints.char _).bind fun _ ↦
      (pinpoints_primary hA).expect _).bind fun _ ↦ .pure _

/-- An operator commits itself to nothing, so it has no errors of its own. -/
theorem pinpoints_unary : Pinpoints own (unary A) := by
  have happlied : Pinpoints own (applied A) :=
    pinpoints_unaryOperator.bind fun _ ↦ hA.expression.inside.bind fun _ ↦ .pure _
  exact .rule _ _ <| happlied.orElse (pinpoints_member hA)

omit hA in
theorem pinpoints_head : Pinpoints own head := by
  have hsignature : Pinpoints own signature :=
    pinpoints_opening (by decide) (by decide) fun _ _ ↦ Pinpoints.layout.bind fun _ ↦
      pinpoints_name.bind fun _ ↦
      (Pinpoints.many <| Pinpoints.layout.bind fun _ ↦ pinpoints_name).bind fun _ ↦
      pinpoints_closing _ _ _
  exact hsignature.orElse (pinpoints_name.map _)

/-- Its errors are those of the definition, which start with the parenthesis. -/
theorem pinpoints_defined (start : Cursor) (found : Head) :
    Pinpoints (SyntaxError.StartsAt start) (defined A start found) := by
  cases found with
  | function name parameters =>
    exact (hA.statement.inside.oneOrMore.expect _).bind fun _ ↦ .pure _
  | constant name => exact (hA.expression.inside.expect _).bind fun _ ↦ .pure _

theorem pinpoints_definition : Pinpoints own (definition A) :=
  .rule _ _ <| pinpoints_opening (by decide) (by decide) fun start _ ↦
    Pinpoints.layout.bind fun _ ↦ (Pinpoints.keyword _).bind fun _ ↦
    Pinpoints.layout.bind fun _ ↦ (pinpoints_head.expect _).bind fun found ↦
    Pinpoints.layout.bind fun _ ↦ (pinpoints_defined hA start found).bind fun _ ↦
    pinpoints_closing _ _ _

theorem pinpoints_print : Pinpoints own (print A) :=
  .rule _ _ <| pinpoints_opening (by decide) (by decide) fun _ _ ↦ Pinpoints.layout.bind fun _ ↦
    (Pinpoints.keyword _).bind fun _ ↦ Pinpoints.layout.bind fun _ ↦
    (hA.expression.inside.expect _).bind fun _ ↦ pinpoints_closing _ _ _

theorem pinpoints_statement : Pinpoints own (statement A) :=
  .rule _ _ <| Pinpoints.layout.bind fun _ ↦
    ((pinpoints_definition hA).orElse ((pinpoints_print hA).orElse (pinpoints_unary hA))).bind
      fun _ ↦ Pinpoints.layout.bind fun _ ↦ .pure _

end Form

/-- By induction on the depth, for all parts at once. -/
theorem Parts.pinpoints_ofDepth (g : Grammar) (depth : Nat) :
    (Parts.ofDepth g depth).Pinpoints := by
  induction depth with
  | zero =>
    exact ⟨Parts.allBuilt_ofDepth g 0, fun _ _ _ h ↦ absurd h not_matches_noMatch, .noMatch,
      .noMatch, .noMatch⟩
  | succ depth ih =>
    exact ⟨Parts.allBuilt_ofDepth g (depth + 1), Form.consumes_unary ih.built,
      Form.pinpoints_statement ih, Form.pinpoints_unary ih, Form.pinpoints_member ih⟩

/-! ## Programs -/

namespace Grammar

variable (g : Grammar) {source : String} {s t : Cursor}

/-- A statement is no step of a sequence, so its error marks a place. -/
theorem marks_of_statement {e : SyntaxError} (h : g.statement.Recovers s e t) :
    ∃ c, s.Reaches c ∧ e.Marks c := by
  have hform : Pinpoints (fun _ ↦ False) (Form.statement (Parts.ofDepth g (s.remaining + 1))) :=
    Form.pinpoints_statement (Parts.pinpoints_ofDepth g _)
  have hbroken := hform.recovered (by rwa [Recovers, ← g.run_nested])
  exact hbroken.resolve_left fun hown ↦ hown.1

/-- Wherever a step of the loop leaves an error, it marks a place from the beginning of the step
on. -/
theorem marks_of_topLevel {d : SyntaxError} (h : g.topLevel.Matches s (.error d) t) :
    ∃ c, s.Reaches c ∧ d.Marks c := by
  rcases matches_orElse.1 h with h | ⟨-, h⟩
  · rcases matches_salvaged h with h | ⟨e, u, hbroken, herror, rfl⟩
    · cases (g.yields_statement s _ t h).isError_eq_false
    · obtain rfl := Expr.error.inj herror
      exact g.marks_of_statement hbroken
  · obtain ⟨_, a, hlayout, h⟩ := matches_bind.1 h
    obtain rfl : a = s.pastLayout := matches_layout.1 hlayout
    obtain ⟨hend, -⟩ := matches_skipped h
    obtain rfl := error_of_matches_skipped h
    have htext := Cursor.onText_pastLayout hend
    have hpast := htext.pastLayout_eq
    refine ⟨s.pastLayout, s.reaches_pastLayout, ⟨rfl, rfl⟩, ?_, ?_, .inl hpast⟩
    · rwa [hpast]
    · rw [hpast]
      exact Cursor.offset_lt_synchronize hend

end Grammar

/-- Behind the gap stands a character that is no layout, and the gap is all the layout in front of
it. The error starts with the gap, on the line where that begins, and reaches beyond it. -/
def SyntaxError.StartsBefore (source : String) (gap : List Char) (e : SyntaxError) : Prop :=
  ∃ before c after, source.toList = before ++ (gap ++ c :: after) ∧ e.start = byteLength before ∧
    e.line = 1 + before.count '\n' ∧ Text.dropLayout (gap ++ c :: after) = c :: after ∧
    Text.isSpace c = false ∧ c ≠ ';' ∧ e.start + byteLength gap < e.stop

/-- From cursors to texts: what stands between the start of the error and the text that it reaches
into. -/
theorem SyntaxError.Marks.startsBefore {source : String} {c : Cursor} {e : SyntaxError}
    (h : e.Marks c) (hc : c.StandsIn source) :
    ∃ gap, e.StartsBefore source gap ∧ (gap ≠ [] → e.LacksBranchBody) := by
  obtain ⟨before, hsource, hbefore⟩ := hc
  obtain ⟨first, hpeek, hspace, hcomment⟩ := h.onText
  obtain ⟨after, hafter⟩ := List.head?_eq_some_iff.1 hpeek
  let gap := c.rest.take (Text.layoutWidth false c.rest)
  have hrest : c.rest = gap ++ first :: after := by
    rw [← hafter, c.rest_pastLayout]
    exact (List.take_append_drop _ _).symm
  have hoffset : c.pastLayout.offset = c.offset + byteLength gap := by
    have hfits := c.fits
    have hpast := c.pastLayout.fits
    rw [c.reaches_pastLayout.size_eq, hafter] at hpast
    rw [hrest, byteLength_append] at hfits
    omega
  refine ⟨gap, ⟨before, first, after, by rw [hsource, hrest],
    h.startsAt.2.trans hbefore.offset, h.startsAt.1.trans hbefore.line, ?_, hspace, hcomment, ?_⟩,
    fun hgap ↦ h.gap.resolve_left fun hpast ↦ hgap ?_⟩
  · rw [← hrest, ← c.rest_pastLayout, hafter]
  · rw [h.startsAt.2, ← hoffset]
    exact h.reaches
  · rw [hpast] at hoffset
    exact byteLength_eq_zero (by omega)

/-- Each step of the chain contributes one error at most, and that one is located. -/
theorem Grammar.startsBefore_of_chain (g : Grammar) {source : String} {s t : Cursor}
    {body : List Expr} (h : Chain g.topLevel s body t) (hs : s.StandsIn source) {d : SyntaxError}
    (hd : d ∈ body.filterMap Expr.error?) :
    ∃ gap, d.StartsBefore source gap ∧ (gap ≠ [] → d.LacksBranchBody) := by
  induction h with
  | nil => simp at hd
  | @cons s t u e body _ he _ ih =>
    rw [Expr.filterMap_error?_cons, List.mem_append] at hd
    rcases hd with hd | hd
    · obtain rfl := Expr.error?_eq_some.1 (Option.mem_toList.1 hd)
      obtain ⟨c, hreaches, hmarks⟩ := g.marks_of_topLevel he
      exact hmarks.startsBefore (hreaches.standsIn hs)
    · exact ih (g.stays_topLevel _ _ _ hs he) hd

/-- An error starts on the first character of the construct that failed. If that is a branch of a
conditional without a body, there may be layout in between. -/
theorem parse_errors_start (source : String) (e : SyntaxError)
    (he : e ∈ (parse source).final.errors) :
    ∃ gap, e.StartsBefore source gap ∧ (gap ≠ [] → e.LacksBranchBody) := by
  cases hp : (parse source).program with
  | some p =>
    have hmatch := Grammar.program_parse {} hp
    obtain ⟨-, t, hchain, -⟩ := Grammar.matches_program {} hmatch
    have herrors : (parse source).final.errors = p.errors := Grammar.errors_of_program {} hmatch
    rw [herrors] at he
    exact Grammar.startsBefore_of_chain {} hchain (Cursor.standsIn_ofSource source) he
  | none =>
    have hfinal : (parse source).final = Cursor.ofSource source :=
      Grammar.cursor_program_of_rejects {} (Grammar.rejects_of_program_eq_none {} hp)
    rw [hfinal] at he
    cases he

/-- A comment in front of a second branch. -/
theorem parse_errors_start_comment :
    ∃ e ∈ (parse "(cond a b ; ü\n  c)").final.errors, e.LacksBranchBody ∧
      ∃ gap, e.StartsBefore "(cond a b ; ü\n  c)" gap ∧ (gap ≠ [] → e.LacksBranchBody) := by
  have herrors : (parse "(cond a b ; ü\n  c)").final.errors =
      [⟨Fault.branchBody.message, 1, 9, 18⟩] := by
    decide +kernel
  have hmem := herrors ▸ List.mem_singleton_self _
  exact ⟨_, hmem, .inl rfl, parse_errors_start _ _ hmem⟩

/-- A branch on a line of its own: its error starts at the end of the line before. -/
theorem parse_errors_start_newline :
    (parse "(cond\n  x)").final.errors = [⟨Fault.branchBody.message, 1, 5, 9⟩] ∧
      ¬ SyntaxError.StartsBefore "(cond\n  x)" [] ⟨Fault.branchBody.message, 1, 5, 9⟩ := by
  refine ⟨by decide +kernel, ?_⟩
  rintro ⟨before, c, after, hsource, hstart, -, -, hspace, -⟩
  have hbefore : before = "(cond".toList := by
    rw [← textBefore_byteLength before ([] ++ c :: after), ← hsource, ← hstart]
    decide
  have hsplit : "(cond\n  x)".toList = "(cond".toList ++ '\n' :: "  x)".toList := by decide
  rw [hbefore, hsplit] at hsource
  have hc : '\n' = c := (List.cons.inj (List.append_cancel_left hsource)).1
  rw [← hc] at hspace
  exact absurd hspace (by decide)

end Lispette
