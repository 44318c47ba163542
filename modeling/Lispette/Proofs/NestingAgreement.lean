import Mathlib.Data.List.Infix
import Lispette.Proofs.LayoutExtent
import Lispette.Proofs.Resumption

/-!
# The count agrees with the grammar

Strings and parentheses are recognised twice: by the rules of the grammar, and by the count over raw
text that finds the end of a broken statement. Where the grammar accepts a text that holds no
comment, the two agree. The count then ends as it began, outside of strings and at the same depth,
and on the way it closes nothing that was open before. Each rule is followed through with the number
of parentheses that it has opened itself, so that what stands between two parentheses is counted one
deeper.
-/

namespace Lispette

open Lispette.Parser Grammar

/-! ## Texts without comments -/

def Region.along (region : Region) (text : List Char) : Region := text.foldl step region

theorem Region.along_append (region : Region) (text more : List Char) :
    region.along (text ++ more) = (region.along text).along more :=
  List.foldl_append

/-- Read from outside of strings, the text does not come to a comment. -/
def CommentFree (text : List Char) : Prop :=
  ∀ before, before <+: text → Region.code.along before ≠ .comment

instance (text : List Char) : Decidable (CommentFree text) :=
  decidable_of_iff (∀ before ∈ text.inits, Region.code.along before ≠ .comment) <| by
    simp only [CommentFree, List.mem_inits]

section

variable {text more : List Char}

theorem CommentFree.left (h : CommentFree (text ++ more)) : CommentFree text :=
  fun before hbefore ↦ h before (hbefore.trans (List.prefix_append text more))

/-- The text behind is read from outside of strings as well, if the text before it ends there. -/
theorem CommentFree.right (h : CommentFree (text ++ more))
    (hcode : Region.code.along text = .code) : CommentFree more := by
  intro before hbefore
  have hwhole := h (text ++ before) ((List.prefix_append_right_inj text).2 hbefore)
  rwa [Region.along_append, hcode] at hwhole

/-- Layout without comments is white space. -/
theorem Text.LayoutBefore.isSpace {rest : List Char} (h : Text.LayoutBefore rest text)
    (hfree : CommentFree text) : ∀ c ∈ text, Text.isSpace c = true := by
  induction h with
  | nil => simp
  | @space c text hspace _ ih =>
    have hquote : c ≠ '"' := by
      rintro rfl
      exact absurd hspace (by decide)
    have hsemicolon : c ≠ ';' := by
      rintro rfl
      exact absurd hspace (by decide)
    have hcode : Region.code.along [c] = .code := by
      simp [Region.along, Region.step, hquote, hsemicolon]
    have hwhole : CommentFree ([c] ++ text) := hfree
    exact List.forall_mem_cons.2 ⟨hspace, ih (hwhole.right hcode)⟩
  | comment => exact absurd rfl (hfree [';'] (by simp))

end

/-! ## The depth over a text -/

namespace Nesting

variable {m n : Nesting} {text more : List Char} {c : Char} {floor i j k : Nat}

/-- The count knows the region outside of comments, over a text as over one character. -/
theorem Reads.along {region : Region} (h : m.Reads region) (text : List Char) :
    (m.along text).Reads (region.along text) := by
  induction text generalizing m region with
  | nil => exact h
  | cons c cs ih => exact ih (h.step c)

/-- Nowhere in the text does the depth fall below the floor. -/
def StaysAbove (floor : Nat) (n : Nesting) (text : List Char) : Prop :=
  ∀ before, before <+: text → floor ≤ (n.along before).depth

theorem staysAbove_nil : StaysAbove floor n [] ↔ floor ≤ n.depth := by
  simp [StaysAbove]

theorem staysAbove_cons :
    StaysAbove floor n (c :: text) ↔ floor ≤ n.depth ∧ StaysAbove floor (n.step c) text := by
  constructor
  · intro h
    refine ⟨h [] List.nil_prefix, fun before hbefore ↦ ?_⟩
    exact h (c :: before) (List.prefix_cons_inj c |>.2 hbefore)
  · rintro ⟨hfirst, hmore⟩ before hbefore
    rcases List.prefix_cons_iff.1 hbefore with rfl | ⟨rest, rfl, hrest⟩
    · exact hfirst
    · exact hmore rest hrest

/-- The second part begins at the depth to which the first one led. -/
theorem StaysAbove.append (htext : StaysAbove floor n text)
    (hmore : StaysAbove floor (n.along text) more) : StaysAbove floor n (text ++ more) := by
  induction text generalizing n with
  | nil => exact hmore
  | cons c cs ih =>
    obtain ⟨hfirst, hcs⟩ := staysAbove_cons.1 htext
    exact staysAbove_cons.2 ⟨hfirst, ih hcs hmore⟩

/-- Besides what was open before, `i` parentheses are open in front of the text and `j` behind it,
and nothing is closed that was open before. -/
structure Leads (i j : Nat) (text : List Char) : Prop where
  ends : ∀ d, along { depth := d + i } text = { depth := d + j }
  above : ∀ d, StaysAbove d { depth := d + i } text

/-- Texts are put together where the numbers of open parentheses agree. -/
theorem Leads.append (htext : Leads i j text) (hmore : Leads j k more) :
    Leads i k (text ++ more) where
  ends d := by rw [along_append, htext.ends, hmore.ends]
  above d := (htext.above d).append (by rw [htext.ends]; exact hmore.above d)

/-- The same text where more parentheses are open. -/
theorem Leads.inside (h : Leads 0 0 text) (n : Nat) : Leads n n text where
  ends d := h.ends (d + n)
  above d before hbefore := Nat.le_trans (Nat.le_add_right d n) (h.above (d + n) before hbefore)

/-- Behind a text that leads from code to code, the language reads code again. -/
theorem Leads.region (h : Leads i j text) (hfree : CommentFree text) :
    Region.code.along text = .code := by
  have hcode : ({ depth := 0 + i } : Nesting).Reads .code := rfl
  have hreads := hcode.along text
  rw [h.ends] at hreads
  have hcomment := hfree text (List.prefix_refl text)
  cases hregion : Region.code.along text with
  | code => rfl
  | comment => exact absurd hregion hcomment
  | string | escape =>
    rw [hregion] at hreads
    exact absurd (congrArg inString hreads) (by simp)

/-! ## Pieces -/

/-- Neither a parenthesis nor a quote. -/
def isNeutral (c : Char) : Bool := c ∉ ['(', ')', '"']

/-- How a kind of characters, such as those of names, is seen to be neutral. -/
theorem isNeutral_of {kind : Char → Bool} (hopen : kind '(' = false) (hclose : kind ')' = false)
    (hquote : kind '"' = false) {c : Char} (hc : kind c = true) : isNeutral c = true := by
  have hne {d : Char} (hd : kind d = false) : c ≠ d := by
    rintro rfl
    rw [hd] at hc
    cases hc
  simp [isNeutral, hne hopen, hne hclose, hne hquote]

/-- A newline does change the count elsewhere, since it ends a string, but not outside of strings.
-/
theorem step_neutral (hc : isNeutral c = true) (depth : Nat) :
    ({ depth } : Nesting).step c = { depth } := by
  simp only [isNeutral, List.mem_cons, List.not_mem_nil, or_false, not_or, decide_eq_true_eq] at hc
  obtain ⟨hopen, hclose, hquote⟩ := hc
  by_cases hnewline : c = '\n'
  · subst hnewline
    rfl
  · simp [step_code hnewline, hopen, hclose, hquote]

/-- A text without parentheses and quotes changes nothing, whatever is open. -/
theorem leads_neutral (h : ∀ c ∈ text, isNeutral c = true) (n : Nat) : Leads n n text := by
  induction text with
  | nil => exact ⟨fun _ ↦ rfl, fun d ↦ staysAbove_nil.2 (Nat.le_add_right d n)⟩
  | cons c cs ih =>
    obtain ⟨hc, hcs⟩ := List.forall_mem_cons.1 h
    have hmore := ih hcs
    refine ⟨fun d ↦ ?_, fun d ↦ staysAbove_cons.2 ⟨Nat.le_add_right d n, ?_⟩⟩
    · rw [along_cons, step_neutral hc, hmore.ends]
    · rw [step_neutral hc]
      exact hmore.above d

theorem leads_sign {c : Char} (hc : isNeutral c = true) (n : Nat) : Leads n n [c] :=
  leads_neutral (List.forall_mem_singleton.2 hc) n

theorem leads_opening (n : Nat) : Leads n (n + 1) ['('] where
  ends _ := rfl
  above d := by
    rw [staysAbove_cons, staysAbove_nil]
    exact ⟨Nat.le_add_right d n, Nat.le_add_right d (n + 1)⟩

/-- A closing parenthesis needs one of the text itself to close. -/
theorem leads_closing (n : Nat) : Leads (n + 1) n [')'] where
  ends _ := rfl
  above d := by
    rw [staysAbove_cons, staysAbove_nil]
    exact ⟨Nat.le_add_right d (n + 1), Nat.le_add_right d n⟩

/-- Inside of a string nothing is counted, so the depth is the one in front of it. -/
theorem staysAbove_stringBody {body : List Char} (h : IsStringBody body) {depth : Nat}
    (hfloor : floor ≤ depth) : StaysAbove floor { depth, inString := true } body := by
  induction h with
  | nil => exact staysAbove_nil.2 hfloor
  | plain hquote hbackslash hnewline _ ih =>
    refine staysAbove_cons.2 ⟨hfloor, ?_⟩
    simpa [step_string hnewline, hquote, hbackslash] using ih
  | escape hnewline _ ih =>
    refine staysAbove_cons.2 ⟨hfloor, staysAbove_cons.2 ⟨hfloor, ?_⟩⟩
    simpa [step_string, step_escape hnewline] using ih

/-- Parentheses inside of a string do not count, and its escapes are read as the grammar does. -/
theorem leads_string {body : List Char} (h : IsStringBody body) (n : Nat) :
    Leads n n ('"' :: (body ++ ['"'])) := by
  have hopen (depth : Nat) : ({ depth } : Nesting).step '"' = { depth, inString := true } := rfl
  have hclose (depth : Nat) : ({ depth, inString := true } : Nesting).step '"' = { depth } := rfl
  refine ⟨fun d ↦ ?_, fun d ↦ staysAbove_cons.2 ⟨Nat.le_add_right d n, ?_⟩⟩
  · rw [along_cons, hopen, along_append, along_stringBody h, along_cons, hclose, along_nil]
  · rw [hopen]
    refine (staysAbove_stringBody h (Nat.le_add_right d n)).append ?_
    rw [along_stringBody h, staysAbove_cons, staysAbove_nil, hclose]
    exact ⟨Nat.le_add_right d n, Nat.le_add_right d n⟩

end Nesting

/-! ## Parsers that keep count -/

/-- What lies between the two cursors leads from `i` open parentheses to `j`, unless it holds a
comment. -/
def Cursor.LeadsTo (i j : Nat) (s t : Cursor) : Prop :=
  s.Reaches t ∧ (CommentFree (passed s t) → Nesting.Leads i j (passed s t))

theorem Cursor.LeadsTo.refl (n : Nat) (s : Cursor) : s.LeadsTo n n s :=
  ⟨.refl s, fun _ ↦ Nesting.leads_neutral (by simp [passed]) n⟩

/-- One stretch of the source after another. -/
theorem Cursor.LeadsTo.trans {i j k : Nat} {s t u : Cursor} (hst : s.LeadsTo i j t)
    (htu : t.LeadsTo j k u) : s.LeadsTo i k u := by
  refine ⟨hst.1.trans htu.1, fun hfree ↦ ?_⟩
  rw [hst.1.passed_append htu.1] at hfree ⊢
  have hfirst := hst.2 hfree.left
  -- The second part is free of comments since the first one does not end in a string.
  exact hfirst.append (htu.2 (hfree.right (hfirst.region hfree.left)))

namespace Parser

/-- Whatever the parser matches leads from `i` open parentheses to `j`. -/
def Balances {α : Type} (i j : Nat) (p : Parser α) : Prop :=
  ∀ s a t, p.Matches s a t → s.LeadsTo i j t

namespace Balances

variable {α β : Type} {i j k n : Nat} {p q : Parser α}

theorem pure (a : α) : Balances n n (Pure.pure a : Parser α) := by
  intro s b t h
  obtain ⟨-, rfl⟩ := matches_pure.1 h
  exact .refl n t

theorem noMatch : Balances i j (noMatch : Parser α) :=
  fun _ _ _ h ↦ absurd h not_matches_noMatch

/-- The second parser begins with as many open parentheses as the first one leaves. -/
theorem bind {f : α → Parser β} (hp : Balances i j p) (hf : ∀ a, Balances j k (f a)) :
    Balances i k (p >>= f) := by
  intro s b u h
  obtain ⟨a, t, hmatch, hnext⟩ := matches_bind.1 h
  exact (hp s a t hmatch).trans (hf a t b u hnext)

theorem sequence {steps : Cursor → Parser α} (h : ∀ c, Balances i j (steps c)) :
    Balances i j (here >>= steps) :=
  fun s a t hmatch ↦ h s s a t (matches_sequence.1 hmatch)

theorem map (f : α → β) (hp : Balances i j p) : Balances i j (f <$> p) :=
  hp.bind fun a ↦ .pure (f a)

theorem filterMap (f : α → Option β) (hp : Balances i j p) : Balances i j (filterMap f p) := by
  refine hp.bind fun a ↦ ?_
  cases f a with
  | none => exact .noMatch
  | some b => exact .pure b

theorem orElse (hp : Balances i j p) (hq : Balances i j q) : Balances i j (p <|> q) := by
  intro s a t h
  rcases matches_orElse.1 h with h | ⟨-, h⟩
  · exact hp s a t h
  · exact hq s a t h

theorem optional (hp : Balances n n p) : Balances n n (optional p) :=
  (hp.map some).orElse (.pure none)

/-- All alternatives have to leave the same number open, as it is not known which one matches. -/
theorem choice {ps : List (Parser α)} (h : ∀ p ∈ ps, Balances i j p) :
    Balances i j (choice ps) := by
  intro s a t hmatch
  obtain ⟨before, p, after, rfl, -, hp⟩ := matches_choice.1 hmatch
  exact h p (by simp) s a t hp

/-- Only what leaves as many open as it finds can be repeated. -/
theorem many (hp : Balances n n p) : Balances n n (many p) := by
  intro s items t h
  have hchain := chain_of_matches_many h
  clear h
  induction hchain with
  | nil => exact .refl n _
  | cons _ hmatch _ ih => exact (hp _ _ _ hmatch).trans ih

theorem oneOrMore (hp : Balances n n p) : Balances n n (oneOrMore p) := hp.many.filterMap _

theorem notFollowedBy : Balances n n (notFollowedBy p) := by
  intro s u t h
  obtain ⟨-, rfl⟩ := matches_notFollowedBy.1 h
  exact .refl n t

/-- Where the parser recovers instead, nothing is claimed. -/
theorem expect (start : Cursor) (missing : Fault) (hp : Balances i j p) :
    Balances i j (expect start missing p) :=
  fun s a t h ↦ hp s a t (matches_orFail.1 h)

theorem rule (g : Grammar) (r : Rule) (hp : Balances i j p) : Balances i j (g.rule r p) :=
  fun s a t h ↦ hp s a t (matches_rule.1 h)

/-- What is balanced by itself is so between parentheses. -/
theorem inside (hp : Balances 0 0 p) : Balances n n p :=
  fun s a t h ↦ ⟨(hp s a t h).1, fun hfree ↦ ((hp s a t h).2 hfree).inside n⟩

/-! ## Words and signs -/

theorem satisfy {ok : Char → Bool} (h : ∀ c, ok c = true → Nesting.isNeutral c = true) :
    Balances n n (satisfy ok) := by
  intro s c t hmatch
  obtain ⟨hpeek, hc, rfl⟩ := matches_satisfy.1 hmatch
  obtain ⟨cs, hrest⟩ := List.head?_eq_some_iff.1 hpeek
  have hpassed : Cursor.passed s s.advance = [c] :=
    Cursor.passed_eq_of_rest (by rw [Cursor.rest_advance, hrest]; rfl)
  refine ⟨s.reaches_advance, fun _ ↦ ?_⟩
  rw [hpassed]
  exact Nesting.leads_sign (h c hc) n

/-- A single character, which may be a parenthesis. -/
theorem char {c : Char} (h : Nesting.Leads i j [c]) : Balances i j (char c) := by
  intro s u t hmatch
  have hbuilt : Built none (Parser.char c) := .char c
  have hpassed : Cursor.passed s t = [c] := Cursor.passed_eq_of_rest (rest_of_matches_char hmatch)
  refine ⟨hbuilt.obeys.matched hmatch, fun _ ↦ ?_⟩
  rwa [hpassed]

theorem sign {c : Char} (hc : Nesting.isNeutral c = true) : Balances n n (Parser.char c) :=
  char (Nesting.leads_sign hc n)

/-- A lexeme in which no parentheses and no quotes can stand. -/
theorem lexeme {width : List Char → Nat}
    (h : ∀ rest : List Char, ∀ c ∈ rest.take (width rest), Nesting.isNeutral c = true) :
    Balances n n (lexeme width) := by
  intro s text t hmatch
  obtain ⟨-, -, rfl⟩ := matches_lexeme.1 hmatch
  refine ⟨s.reaches_forward _, fun _ ↦ ?_⟩
  rw [Cursor.passed_forward]
  exact Nesting.leads_neutral (h s.rest) n

theorem literal {text : String} (h : ∀ c ∈ text.toList, Nesting.isNeutral c = true) :
    Balances n n (literal text) := by
  refine (lexeme fun rest ↦ ?_).map _
  rw [take_literalWidth]
  split
  · exact h
  · simp

theorem keyword {word : String} (h : ∀ c ∈ word.toList, Nesting.isNeutral c = true) :
    Balances n n (keyword word) :=
  (literal h).bind fun _ ↦ .notFollowedBy

/-- A comment could hold parentheses, which the count would see; without one there is only white
space. -/
theorem layout : Balances n n layout := by
  intro s u t h
  obtain rfl := matches_layout.1 h
  refine ⟨s.reaches_forward _, fun hfree ↦ ?_⟩
  obtain ⟨skipped, rest, hrest, hlayout, hsolid⟩ := Text.exists_layoutBefore s.rest
  have hpassed : Cursor.passed s (s.forward (Text.layoutWidth false s.rest)) = skipped := by
    rw [Cursor.passed_forward, hrest, hlayout.layoutWidth_append, layoutWidth_of_solid hsolid,
      Nat.add_zero, List.take_left]
  rw [hpassed] at hfree ⊢
  refine Nesting.leads_neutral (fun c hc ↦ ?_) n
  exact Nesting.isNeutral_of (by decide) (by decide) (by decide) (hlayout.isSpace hfree c hc)

end Balances

end Parser

/-! ## Atoms -/

section

variable {n : Nat}

theorem balances_name : Balances n n Grammar.name := by
  refine (Balances.lexeme fun rest c hc ↦ ?_).filterMap _
  exact Nesting.isNeutral_of (by decide) (by decide) (by decide)
    (Text.spans_nameWidth.kind_of_mem rest c hc)

theorem balances_identifier (g : Grammar) : Balances n n g.identifier :=
  (balances_name.map _).rule _ _

theorem balances_number (g : Grammar) : Balances n n g.number := by
  refine ((Balances.lexeme fun rest c hc ↦ ?_).filterMap _).rule _ _
  exact Nesting.isNeutral_of (by decide) (by decide) (by decide)
    (Text.spans_numeralWidth.kind_of_mem rest c hc)

/-- The one atom that holds quotes, and whatever stands between them. -/
theorem balances_string (g : Grammar) : Balances n n g.string := by
  intro s e t h
  obtain ⟨body, hrest, hbody, -⟩ := Similarity.matches_string h
  have hpassed : Cursor.passed s t = '"' :: (body ++ ['"']) :=
    Cursor.passed_eq_of_rest (by simpa using hrest)
  refine ⟨(built_string g).obeys.matched h, fun _ ↦ ?_⟩
  rw [hpassed]
  exact Nesting.leads_string hbody n

/-- No keyword holds a parenthesis or a quote. -/
theorem balances_word (k : Keyword) : Balances n n (keyword k.word) :=
  .keyword (by cases k <;> exact List.all_eq_true.1 (by decide))

theorem balances_boolean (g : Grammar) : Balances n n g.boolean := by
  have htrue : Balances n n (keyword "true") := .keyword (List.all_eq_true.1 (by decide))
  have hfalse : Balances n n (keyword "false") := .keyword (List.all_eq_true.1 (by decide))
  exact ((htrue.bind fun _ ↦ .pure _).orElse (hfalse.bind fun _ ↦ .pure _)).rule _ _

theorem balances_nil (g : Grammar) : Balances n n g.nil :=
  ((balances_word .nil).bind fun _ ↦ .pure _).rule _ _

/-- An operator is neutral, and so is the white space that has to follow a symbol. -/
theorem balances_binaryOperator : Balances n n binaryOperator := by
  refine .choice fun p hp ↦ ?_
  obtain ⟨op, -, rfl⟩ := List.mem_map.1 hp
  have hsymbol : ∀ c ∈ op.symbol.toList, Nesting.isNeutral c = true := by
    cases op <;> exact List.all_eq_true.1 (by decide)
  have hspace : Balances n n (satisfy Text.isSpace) :=
    .satisfy fun c ↦ Nesting.isNeutral_of (by decide) (by decide) (by decide)
  have hspelling : Balances n n (spelling op) := by
    unfold spelling
    split
    · exact .keyword hsymbol
    · exact (Balances.literal hsymbol).bind fun _ ↦ hspace.map _
  exact hspelling.bind fun _ ↦ .pure op

theorem balances_unaryOperator : Balances n n unaryOperator := by
  refine .choice fun p hp ↦ ?_
  obtain ⟨op, -, rfl⟩ := List.mem_map.1 hp
  have hsymbol : Balances n n (char op.symbol) := .sign (by cases op <;> decide)
  exact hsymbol.bind fun _ ↦ .pure op

end

/-! ## Forms -/

/-- The parts leave as many parentheses open as they find. -/
structure Parts.Balances (A : Parts) : Prop where
  statement : Parser.Balances 0 0 A.statement
  expression : Parser.Balances 0 0 A.expression
  member : Parser.Balances 0 0 A.member

namespace Form

/-- Behind its opening parenthesis a form has one to close. -/
theorem balances_parenthesized {α : Type} {steps : Cursor → Unit → Parser α}
    (h : ∀ c u, Balances 1 0 (steps c u)) :
    Balances 0 0 (here >>= fun c ↦ char '(' >>= steps c) :=
  .sequence fun c ↦ (Balances.char (Nesting.leads_opening 0)).bind (h c)

/-- What closes a form: layout, the closing sign, and the value. -/
theorem balances_closing {α : Type} {i j : Nat} {c : Char} (start : Cursor) (missing : Fault)
    (hc : Nesting.Leads i j [c]) (a : α) :
    Balances i j (do layout; expect start missing (char c); return a) :=
  Balances.layout.bind fun _ ↦ ((Balances.char hc).expect start missing).bind fun _ ↦ .pure a

/-- What closes a form in parentheses. -/
theorem balances_closingParenthesis {α : Type} (start : Cursor) (missing : Fault) (a : α) :
    Balances 1 0 (do layout; expect start missing (char ')'); return a) :=
  balances_closing start missing (Nesting.leads_closing 0) a

variable {A : Parts} (hA : A.Balances)

include hA

theorem balances_arguments : Balances 0 0 (arguments A) :=
  .many <| Balances.layout.bind fun _ ↦ hA.expression

/-- Square brackets are not counted. -/
theorem balances_array : Balances 0 0 (array A) :=
  .rule _ _ <| .sequence fun _ ↦ (Balances.sign (by decide)).bind fun _ ↦
    (balances_arguments hA).bind fun _ ↦
    balances_closing _ _ (Nesting.leads_sign (by decide) 0) _

/-- Nor are braces. -/
theorem balances_block : Balances 0 0 (block A) :=
  .rule _ _ <| .sequence fun _ ↦ (Balances.sign (by decide)).bind fun _ ↦
    hA.statement.many.bind fun _ ↦ balances_closing _ _ (Nesting.leads_sign (by decide) 0) _

theorem balances_blockExpression : Balances 0 0 (blockExpression A) := (balances_block hA).map _

theorem balances_body : Balances 0 0 (body A) :=
  (balances_block hA).orElse (hA.expression.map _)

/-- A branch has no parentheses of its own. -/
theorem balances_branch : Balances 0 0 (branch A) :=
  .sequence fun _ ↦ Balances.layout.bind fun _ ↦ hA.expression.bind fun _ ↦
    Balances.layout.bind fun _ ↦ ((balances_body hA).expect _ _).bind fun _ ↦ .pure _

theorem balances_elseBranch : Balances 0 0 (elseBranch A) :=
  .sequence fun _ ↦ Balances.layout.bind fun _ ↦ (balances_word .otherwise).bind fun _ ↦
    Balances.layout.bind fun _ ↦ (balances_body hA).expect _ _

/-- Branches are balanced by themselves, and so they are one deeper, behind the parenthesis. -/
theorem balances_cond : Balances 0 0 (cond A) :=
  .rule _ _ <| balances_parenthesized fun _ _ ↦ Balances.layout.bind fun _ ↦
    (balances_word .cond).bind fun _ ↦
    ((balances_branch hA).inside.oneOrMore.expect _ _).bind fun _ ↦
    (balances_elseBranch hA).inside.optional.bind fun _ ↦ balances_closingParenthesis _ _ _

theorem balances_closure : Balances 0 0 (closure A) :=
  .rule _ _ <| .sequence fun _ ↦ (Balances.sign (by decide)).bind fun _ ↦
    Balances.layout.bind fun _ ↦
    (Balances.many <| balances_name.bind fun _ ↦ Balances.layout.bind fun _ ↦ .pure _).bind fun _ ↦
    ((Balances.sign (by decide)).expect _ _).bind fun _ ↦ Balances.layout.bind fun _ ↦
    ((balances_body hA).expect _ _).bind fun _ ↦ .pure _

theorem balances_binaryCall : Balances 0 0 (binaryCall A) :=
  .rule _ _ <| balances_parenthesized fun _ _ ↦ Balances.layout.bind fun _ ↦
    balances_binaryOperator.bind fun _ ↦ Balances.layout.bind fun _ ↦
    (hA.expression.inside.expect _ _).bind fun _ ↦ Balances.layout.bind fun _ ↦
    (hA.expression.inside.expect _ _).bind fun _ ↦ balances_closingParenthesis _ _ _

/-- Read by calls and by the links of a chain alike. -/
theorem balances_application : Balances 0 0 (application A) :=
  balances_parenthesized fun _ _ ↦ Balances.layout.bind fun _ ↦ hA.member.inside.bind fun _ ↦
    (balances_arguments hA).inside.bind fun _ ↦ balances_closingParenthesis _ _ _

theorem balances_call : Balances 0 0 (call A) :=
  .rule _ _ <| (balances_application hA).bind fun _ ↦ .pure _

/-- A link of a chain is balanced with and without parentheses around it. -/
theorem balances_chainCall : Balances 0 0 (chainCall A) :=
  (balances_application hA).orElse (hA.member.bind fun _ ↦ .pure _)

theorem balances_methodChain : Balances 0 0 (methodChain A) := by
  have harrow : Balances 1 1 (literal "~>") := .literal (List.all_eq_true.1 (by decide))
  exact .rule _ _ <| balances_parenthesized fun _ _ ↦ Balances.layout.bind fun _ ↦
    harrow.bind fun _ ↦ Balances.layout.bind fun _ ↦
    (hA.expression.inside.expect _ _).bind fun _ ↦
    (Balances.many <| Balances.layout.bind fun _ ↦ harrow.bind fun _ ↦
      Balances.layout.bind fun _ ↦ (balances_chainCall hA).inside.expect _ _).bind fun _ ↦
    balances_closingParenthesis _ _ _

/-- One alternative after the other. -/
theorem balances_primary : Balances 0 0 (primary A) := by
  refine .choice ?_
  simp only [primaryForms, List.forall_mem_cons]
  exact ⟨balances_number _, balances_string _, balances_boolean _, balances_nil _,
    balances_array hA, balances_identifier _, balances_cond hA, balances_closure hA,
    balances_binaryCall hA, balances_methodChain hA, balances_blockExpression hA,
    balances_call hA, by simp⟩

theorem balances_member : Balances 0 0 (member A) :=
  .rule _ _ <| .sequence fun _ ↦ (balances_primary hA).bind fun _ ↦
    (Balances.many <| (Balances.sign (by decide)).bind fun _ ↦
      (balances_primary hA).expect _ _).bind fun _ ↦ .pure _

theorem balances_unary : Balances 0 0 (unary A) := by
  have happlied : Balances 0 0 (applied A) :=
    balances_unaryOperator.bind fun _ ↦ hA.expression.bind fun _ ↦ .pure _
  exact .rule _ _ <| happlied.orElse (balances_member hA)

omit hA in
/-- A signature has parentheses of its own inside of those of the definition. -/
theorem balances_head : Balances 0 0 head := by
  have hsignature : Balances 0 0 signature :=
    balances_parenthesized fun _ _ ↦ Balances.layout.bind fun _ ↦ balances_name.bind fun _ ↦
      (Balances.many <| Balances.layout.bind fun _ ↦ balances_name).bind fun _ ↦
      balances_closingParenthesis _ _ _
  exact hsignature.orElse (balances_name.map _)

/-- The body of a function and the value of a constant both stand inside of the definition. -/
theorem balances_defined (start : Cursor) (found : Head) :
    Balances 0 0 (defined A start found) := by
  cases found with
  | function name parameters => exact (hA.statement.oneOrMore.expect _ _).bind fun _ ↦ .pure _
  | constant name => exact (hA.expression.expect _ _).bind fun _ ↦ .pure _

theorem balances_definition : Balances 0 0 (definition A) :=
  .rule _ _ <| balances_parenthesized fun start _ ↦ Balances.layout.bind fun _ ↦
    (balances_word .define).bind fun _ ↦ Balances.layout.bind fun _ ↦
    (balances_head.inside.expect _ _).bind fun found ↦ Balances.layout.bind fun _ ↦
    (balances_defined hA start found).inside.bind fun _ ↦ balances_closingParenthesis _ _ _

theorem balances_print : Balances 0 0 (print A) :=
  .rule _ _ <| balances_parenthesized fun _ _ ↦ Balances.layout.bind fun _ ↦
    (balances_word .print).bind fun _ ↦ Balances.layout.bind fun _ ↦
    (hA.expression.inside.expect _ _).bind fun _ ↦ balances_closingParenthesis _ _ _

theorem balances_statement : Balances 0 0 (statement A) :=
  .rule _ _ <| Balances.layout.bind fun _ ↦
    ((balances_definition hA).orElse ((balances_print hA).orElse (balances_unary hA))).bind fun _ ↦
    Balances.layout.bind fun _ ↦ .pure _

end Form

/-- The three parts together, by induction on how deep the rules are unfolded. -/
theorem Parts.balances_ofDepth (g : Grammar) (depth : Nat) : (Parts.ofDepth g depth).Balances := by
  induction depth with
  | zero => exact ⟨.noMatch, .noMatch, .noMatch⟩
  | succ depth ih =>
    exact ⟨Form.balances_statement ih, Form.balances_unary ih, Form.balances_member ih⟩

/-! ## Statements and expressions -/

namespace Grammar

/-- From parts of every depth to the grammar, which unfolds its rules as deep as the rest of the
source asks for. -/
theorem balances_nested (g : Grammar) {form : Parts → Parser Expr}
    (h : ∀ A : Parts, A.Balances → Balances 0 0 (form A)) : Balances 0 0 (g.nested form) := by
  intro s e t hmatch
  refine h _ (Parts.balances_ofDepth g (s.remaining + 1)) s e t ?_
  rwa [Matches, ← g.run_nested]

/-- Over a statement or an expression that was read and holds no comment, the count comes back to
where it began: to the same depth, outside of strings. On the way it never falls below that depth.
-/
theorem nesting_along_matched (g : Grammar) (s t : Cursor) (e : Expr)
    (h : g.statement.Matches s e t ∨ g.expression.Matches s e t)
    (hfree : CommentFree (Cursor.passed s t)) (n : Nesting) (hn : n.AtRest) :
    n.along (Cursor.passed s t) = n ∧
      ∀ before, before <+: Cursor.passed s t → n.depth ≤ (n.along before).depth := by
  have hleads : Nesting.Leads 0 0 (Cursor.passed s t) := by
    rcases h with hstatement | hexpression
    · exact (g.balances_nested (fun _ ↦ Form.balances_statement) s e t hstatement).2 hfree
    · exact (g.balances_nested (fun _ ↦ Form.balances_unary) s e t hexpression).2 hfree
  rw [hn.eq_ofDepth]
  exact ⟨hleads.ends n.depth, hleads.above n.depth⟩

/-- The string holds both parentheses, a semicolon and an escaped quote. -/
theorem nesting_along_matched_string :
    ∃ e t, (statement {}).Matches (Cursor.ofSource "(f \")(;\\\"\" (g x))\ny") e t ∧
      t.rest = ['y'] ∧
      CommentFree (Cursor.passed (Cursor.ofSource "(f \")(;\\\"\" (g x))\ny") t) ∧
      (Nesting.mk 2 false false).along
        (Cursor.passed (Cursor.ofSource "(f \")(;\\\"\" (g x))\ny") t) = ⟨2, false, false⟩ := by
  let s := Cursor.ofSource "(f \")(;\\\"\" (g x))\ny"
  let t := ((statement {}).run s).cursor
  have hread : ((statement {}).run s).reply.isMatch = true ∧ t.rest = ['y'] ∧
      CommentFree (Cursor.passed s t) := by
    decide +kernel
  obtain ⟨hmatch, hrest, hfree⟩ := hread
  obtain ⟨e, he⟩ := matches_of_isMatch hmatch
  have hcount := nesting_along_matched {} s t e (.inl he) hfree ⟨2, false, false⟩ ⟨rfl, rfl⟩
  exact ⟨e, t, he, hrest, hfree, hcount.1⟩

end Grammar

end Lispette
