import Lispette.Proofs.Commitment
import Lispette.Proofs.Similarity

/-!
# Reading similar texts

What is read from a text without a fault is also read from every similar text. The two readings go
side by side: each token that the first takes is taken by the second, and wherever the first has
turned down an alternative before it went on, the second turns it down as well. An alternative that
was turned down is settled by the tokens in front of it, unless the first text ended there; but then
nothing could have followed.
-/

namespace Lispette

open Lispette.Parser Grammar

/-- Where the two readings pause: right behind a token, behind the layout that follows it, or at
either. -/
inductive Pause where
  | token
  | layout
  | any
deriving DecidableEq, Repr

namespace Similarity

variable (S : Similarity)

/-- What is left of the two texts. Behind layout, the first text may have come to its end, and then
the remainder of the second is the fixed one. -/
def At : Pause → List Char → List Char → Prop
  | .token, text, text' => S.Related text text'
  | .layout, text, text' => text ≠ [] ∧ S.Related text text' ∨ text = [] ∧ text' = S.finish
  | .any, text, text' => S.Related text text' ∨ text = [] ∧ text' = S.finish

variable {S} {pause : Pause} {text text' : List Char}

theorem At.any (h : S.At pause text text') : S.At .any text text' := by
  cases pause with
  | token => exact .inl h
  | layout => exact h.imp_left And.right
  | any => exact h

/-- The first text has not ended, so neither has the second come to its remainder. -/
theorem At.related (h : S.At pause text text') (hne : text ≠ []) : S.Related text text' :=
  h.any.resolve_right fun hend ↦ hne hend.1

/-- Behind layout the two readers pause together, wherever they were before. -/
theorem At.dropLayout (h : S.At pause text text') :
    S.At .layout (Text.dropLayout text) (Text.dropLayout text') := by
  rcases h.any with hrelated | ⟨rfl, rfl⟩
  · by_cases hend : Text.dropLayout text = []
    · exact .inr ⟨hend, S.after_layout_finish hrelated hend⟩
    · exact .inl ⟨hend, S.after_layout hrelated hend⟩
  · exact .inr ⟨rfl, Text.dropLayout_of_solid S.solid_finish⟩

variable (S)

/-- Wherever `p` matches on the first text and stops at a place as described by `K`, the second
reader matches alike with `q`. -/
def CarriesBefore {α : Type} (K : Cursor → Prop) (pause : Pause) (p q : Parser α) : Prop :=
  ∀ ⦃s a t s'⦄, p.Matches s a t → K t → S.At .any s.rest s'.rest →
    ∃ t', q.Matches s' a t' ∧ S.At pause t.rest t'.rest

/-- Wherever `p` matches on the first text, the second reader matches alike with `q`. -/
def Carries {α : Type} (pause : Pause) (p q : Parser α) : Prop :=
  ∀ ⦃s a t s'⦄, p.Matches s a t → S.At .any s.rest s'.rest →
    ∃ t', q.Matches s' a t' ∧ S.At pause t.rest t'.rest

variable {S}

section

variable {α β : Type} {p q p' q' : Parser α} {K : Cursor → Prop}

/-! ## Single steps -/

/-- Where something was consumed, the text had not ended. -/
theorem rest_ne_nil {s t : Cursor} {a : α} (hp : Consumes p) (h : p.Matches s a t) :
    s.rest ≠ [] := by
  intro hend
  have hzero : s.remaining = 0 := by rw [Cursor.remaining_eq, hend, byteLength]
  have hlt := hp s a t h
  omega

/-- A token that both readers take alike. -/
theorem Mirrors.carries (h : S.Mirrors p q) (hp : Consumes p) : S.Carries .token p q := by
  intro s a t s' hmatch hs
  obtain ⟨rest, hread, hrest⟩ := h.matched hmatch (hs.related (rest_ne_nil hp hmatch))
  obtain ⟨t', hmatch', rfl⟩ := hread s' rfl
  exact ⟨t', hmatch', hrest⟩

/-- Each reader passes the layout of its own text. -/
theorem carries_layout : S.Carries .layout layout layout := by
  intro s _ t s' hmatch hs
  have hmatch' : layout.Matches s' () _ := matches_layout.2 rfl
  refine ⟨_, hmatch', ?_⟩
  rw [rest_of_matches_layout hmatch, rest_of_matches_layout hmatch']
  exact hs.dropLayout

theorem carries_char {c : Char} (hc : Text.isPlain c = true) :
    S.Carries .token (char c) (char c) := by
  intro s _ t s' hmatch hs
  have hrest := rest_of_matches_char hmatch
  have hrelated := hs.related (by simp [hrest])
  rw [hrest] at hrelated
  obtain ⟨rest, hs', hrest⟩ := S.of_cons hc hrelated
  obtain ⟨t', hmatch', rfl⟩ := Reads.char c rest s' hs'
  exact ⟨t', hmatch', hrest⟩

theorem carries_word (k : Keyword) : S.Carries .token (keyword k.word) (keyword k.word) :=
  (S.mirrors_word k).carries (consumes_keyword _)

/-! ## Sequences -/

theorem Carries.before (h : S.Carries pause p q) : S.CarriesBefore K pause p q :=
  fun _ _ _ _ hmatch _ hs ↦ h hmatch hs

/-- What comes next tells where the first part stopped. -/
theorem CarriesBefore.bind {f f' : α → Parser β} {next : Pause} (hp : S.CarriesBefore K pause p q)
    (hK : ∀ a t b u, (f a).Matches t b u → K t) (hf : ∀ a, S.Carries next (f a) (f' a)) :
    S.Carries next (p >>= f) (q >>= f') := by
  intro s b u s' hmatch hs
  obtain ⟨a, t, ha, hb⟩ := matches_bind.1 hmatch
  obtain ⟨t', ha', ht⟩ := hp ha (hK a t b u hb) hs
  obtain ⟨u', hb', hu⟩ := hf a hb ht.any
  exact ⟨u', matches_bind.2 ⟨a, t', ha', hb'⟩, hu⟩

theorem Carries.bind {f f' : α → Parser β} {next : Pause} (hp : S.Carries pause p q)
    (hf : ∀ a, S.Carries next (f a) (f' a)) : S.Carries next (p >>= f) (q >>= f') :=
  CarriesBefore.bind (K := fun _ ↦ True) hp.before (fun _ _ _ _ _ ↦ trivial) hf

theorem CarriesBefore.map (f : α → β) (hp : S.CarriesBefore K pause p q) :
    S.CarriesBefore K pause (f <$> p) (f <$> q) := by
  intro s b t s' hmatch ht hs
  obtain ⟨a, ha, rfl⟩ := matches_map.1 hmatch
  obtain ⟨t', ha', hrest⟩ := hp ha ht hs
  exact ⟨t', matches_map.2 ⟨a, ha', rfl⟩, hrest⟩

theorem CarriesBefore.andReturn {f : α → β} (hp : S.CarriesBefore K pause p q) :
    S.CarriesBefore K pause (do return f (← p)) (do return f (← q)) :=
  hp.map f

theorem Carries.map (f : α → β) (hp : S.Carries pause p q) :
    S.Carries pause (f <$> p) (f <$> q) :=
  fun _ _ _ _ hmatch hs ↦ CarriesBefore.map (K := fun _ ↦ True) f hp.before hmatch trivial hs

/-- The value does not change where the two readers stand. -/
theorem Carries.andReturn {f : α → β} (hp : S.Carries pause p q) :
    S.Carries pause (do return f (← p)) (do return f (← q)) :=
  hp.map f

/-- The readers may stand at different places; only messages depend on these. -/
theorem Carries.sequence {f f' : Cursor → Parser α} (h : ∀ c c', S.Carries pause (f c) (f' c')) :
    S.Carries pause (here >>= f) (here >>= f') := by
  intro s a t s' hmatch hs
  obtain ⟨t', hsteps, hrest⟩ := h _ s' (matches_sequence.1 hmatch) hs
  exact ⟨t', matches_sequence.2 hsteps, hrest⟩

theorem CarriesBefore.expect (c c' : Cursor) (missing : Fault) (h : S.CarriesBefore K pause p q) :
    S.CarriesBefore K pause (expect c missing p) (expect c' missing q) := by
  intro s a t s' hmatch ht hs
  obtain ⟨t', hmatch', hrest⟩ := h (matches_orFail.1 hmatch) ht hs
  exact ⟨t', matches_orFail.2 hmatch', hrest⟩

theorem Carries.expect (c c' : Cursor) (missing : Fault) (h : S.Carries pause p q) :
    S.Carries pause (expect c missing p) (expect c' missing q) :=
  fun _ _ _ _ hmatch hs ↦
    CarriesBefore.expect (K := fun _ ↦ True) c c' missing h.before hmatch trivial hs

theorem Carries.rule {g g' : Grammar} (r : Rule) (h : S.Carries pause p q) :
    S.Carries pause (g.rule r p) (g'.rule r q) := by
  intro s a t s' hmatch hs
  obtain ⟨t', hmatch', hrest⟩ := h (matches_rule.1 hmatch) hs
  exact ⟨t', matches_rule.2 hmatch', hrest⟩

/-- What ends a form: layout, the closing character, and the value. -/
theorem carries_closing (c c' : Cursor) (missing : Fault) {closing : Char}
    (hclosing : Text.isPlain closing = true) (a : α) :
    S.Carries .token (do layout; expect c missing (char closing); return a)
      (do layout; expect c' missing (char closing); return a) :=
  carries_layout.bind fun _ ↦ ((carries_char hclosing).expect c c' missing).andReturn

/-! ## Alternatives -/

/-- If the second alternative was taken, the other reader has to turn down the first one as well. -/
theorem Carries.orElse (hp : S.Carries pause p p') (hq : S.Carries pause q q')
    (hrefuses : ∀ s a t s' : _, p.Rejects s → q.Matches s a t → S.At .any s.rest s'.rest →
      p'.Rejects s') : S.Carries pause (p <|> q) (p' <|> q') := by
  intro s a t s' hmatch hs
  rcases matches_orElse.1 hmatch with hfirst | ⟨hrejects, hsecond⟩
  · obtain ⟨t', hfirst', hrest⟩ := hp hfirst hs
    exact ⟨t', matches_orElse.2 (.inl hfirst'), hrest⟩
  · obtain ⟨t', hsecond', hrest⟩ := hq hsecond hs
    exact ⟨t', matches_orElse.2 (.inr ⟨hrefuses s a t s' hrejects hsecond hs, hsecond'⟩), hrest⟩

/-! ## Repetition -/

/-- Items one after the other. Each step of the first reader is one of the second. -/
theorem Carries.chain (hp : S.Carries pause p q) (hq : Consumes q) {s t s' : Cursor}
    {items : List α} (h : Chain p s items t) (hs : S.At pause s.rest s'.rest)
    (hstop : ∀ t' : Cursor, S.At pause t.rest t'.rest → t'.atEnd = true ∨ q.Rejects t') :
    ∃ t', (many q).Matches s' items t' ∧ S.At pause t.rest t'.rest := by
  induction h generalizing s' with
  | nil => exact ⟨s', matches_many_nil (hstop s' hs), hs⟩
  | cons _ hmatch _ ih =>
    obtain ⟨u', hmatch', hu⟩ := hp hmatch hs.any
    obtain ⟨t', hmore, ht⟩ := ih hu hstop
    exact ⟨t', matches_many_cons hmatch' (hq _ _ _ hmatch') hmore, ht⟩

/-- The second reader has to stop where the first one did, which is known from what comes next. -/
theorem Carries.many (hp : S.Carries pause p q) (hq : Consumes q)
    (hstop : ∀ t t' : Cursor, K t → S.At .any t.rest t'.rest → q.Rejects t') :
    S.CarriesBefore K .any (many p) (many q) := by
  intro s items t s' hmatch ht hs
  have hp' : S.Carries .any p q := by
    intro s a t s' hmatch hs
    obtain ⟨t', hmatch', hrest⟩ := hp hmatch hs
    exact ⟨t', hmatch', hrest.any⟩
  exact hp'.chain hq (chain_of_matches_many hmatch) hs fun t' ht' ↦ .inr (hstop t t' ht ht')

theorem CarriesBefore.oneOrMore (h : S.CarriesBefore K pause (Parser.many p) (Parser.many q)) :
    S.CarriesBefore K pause (oneOrMore p) (oneOrMore q) := by
  intro s items t s' hmatch ht hs
  obtain ⟨found, hfound, hkept⟩ := matches_filterMap.1 hmatch
  obtain ⟨t', hfound', hrest⟩ := h hfound ht hs
  exact ⟨t', matches_filterMap.2 ⟨found, hfound', hkept⟩, hrest⟩

/-- What was not there for the first reader must not be there for the second. -/
theorem Carries.optional (hp : S.Carries pause p q)
    (hstop : ∀ t t' : Cursor, K t → S.At .any t.rest t'.rest → q.Rejects t') :
    S.CarriesBefore K .any (optional p) (optional q) := by
  intro s found t s' hmatch ht hs
  rcases matches_orElse.1 hmatch with hfound | ⟨-, hnone⟩
  · obtain ⟨t', hfound', hrest⟩ := hp.map some hfound hs
    exact ⟨t', matches_orElse.2 (.inl hfound'), hrest.any⟩
  · obtain ⟨rfl, rfl⟩ := matches_pure.1 hnone
    have hrejects : (some <$> q).Rejects s' := rejects_map.2 (hstop t s' ht hs)
    exact ⟨s', matches_orElse.2 (.inr ⟨hrejects, matches_pure.2 ⟨rfl, rfl⟩⟩), hs⟩

end

/-! ## Closing characters -/

/-- Behind layout the text goes on with the given character. -/
def Closes (closing : Char) (s : Cursor) : Prop :=
  (Text.dropLayout s.rest).head? = some closing

/-- What ends a form tells what comes before it where to stop. -/
theorem closes_of_matches {α : Type} {c s t : Cursor} {missing : Fault} {closing : Char} {a b : α}
    (h : (do layout; expect c missing (char closing); return a : Parser α).Matches s b t) :
    Closes closing s := by
  obtain ⟨_, u, hlayout, hclose⟩ := matches_bind.1 h
  obtain ⟨_, v, hchar, -⟩ := matches_bind.1 hclose
  have hrest := rest_of_matches_char (matches_orFail.1 hchar)
  rw [Closes, ← rest_of_matches_layout hlayout, hrest, List.head?_cons]

/-- The second text goes on with the same character, behind layout of its own. -/
theorem Closes.reads_layout {closing : Char} {s s' : Cursor} (h : Closes closing s)
    (hclosing : Text.isPlain closing = true) (hs : S.At .any s.rest s'.rest) :
    ∃ rest, Reads layout s'.rest () (closing :: rest) := by
  obtain ⟨hspace, hsemicolon, -⟩ := not_layout_of_isPlain hclosing
  have hne : Text.dropLayout s.rest ≠ [] := by
    intro hend
    rw [Closes, hend] at h
    cases h
  have hrelated := hs.dropLayout.related hne
  have hhead := (S.head?_eq_some_iff hrelated hspace hsemicolon).1 h
  obtain ⟨rest, hrest⟩ := List.head?_eq_some_iff.1 hhead
  exact ⟨rest, hrest ▸ reads_dropLayout s'.rest⟩

/-- Apart from layout, the same character comes next. -/
theorem At.peek?_iff {s s' : Cursor} (hs : S.At .any s.rest s'.rest) (hne : s.rest ≠ []) {c : Char}
    (hc : Text.isPlain c = true) : s.peek? = some c ↔ s'.peek? = some c := by
  obtain ⟨hspace, hsemicolon, -⟩ := not_layout_of_isPlain hc
  exact S.head?_eq_some_iff (hs.related hne) hspace hsemicolon

/-- Both readers pass a parenthesis and the layout after it. -/
theorem exists_inside {s s' t' u' : Cursor} (h : S.Related s.rest s'.rest)
    (hopen' : (char '(').Matches s' () t') (hlayout' : layout.Matches t' () u') :
    ∃ t u, (char '(').Matches s () t ∧ layout.Matches t () u ∧ S.At .layout u.rest u'.rest := by
  have hhead : s.rest.head? = some '(' := by
    refine (S.head?_eq_some_iff h (by decide) (by decide)).2 ?_
    rw [rest_of_matches_char hopen', List.head?_cons]
  obtain ⟨rest, hrest⟩ := List.head?_eq_some_iff.1 hhead
  obtain ⟨t, hopen, -⟩ := Reads.char '(' rest s hrest
  have hlayout : layout.Matches t () _ := matches_layout.2 rfl
  have hparen : S.Carries .token (char '(') (char '(') := carries_char (by decide)
  obtain ⟨_, hopened, ht⟩ := hparen hopen (.inl h)
  obtain ⟨-, rfl⟩ := hopen'.unique hopened
  obtain ⟨_, hpassed, hu⟩ := carries_layout hlayout ht.any
  obtain ⟨-, rfl⟩ := hlayout'.unique hpassed
  exact ⟨t, _, hopen, hlayout, hu⟩

/-! ## Decisions -/

section

variable {p q p' q' : Parser Expr}

/-- What is asked of an alternative that is tried after others: it is carried over, it takes
something, and if it takes parentheses then it also closes them. -/
structure Alternative (S : Similarity) (p q : Parser Expr) : Prop where
  carries : S.Carries .token p q
  consumes : Consumes p
  encloses : ∀ {s e t}, p.Matches s e t → Form.Encloses s

/-- An alternative that is turned down by both readers alike, if only what comes after it closes its
parentheses. -/
structure Decided (S : Similarity) (p q : Parser Expr) : Prop extends Alternative S p q where
  rejected : ∀ {s s'}, p.Rejects s → Form.Encloses s → S.Related s.rest s'.rest → q.Rejects s'

/-- If the first alternative was turned down, the second closes its parentheses, so the turning down
is decided. -/
theorem Decided.orElse (hp : Decided S p p') (hq : Alternative S q q') :
    Alternative S (p <|> q) (p' <|> q') where
  carries := hp.carries.orElse hq.carries fun _ _ _ _ hrejects hmatch hs ↦
    hp.rejected hrejects (hq.encloses hmatch) (hs.related (rest_ne_nil hq.consumes hmatch))
  consumes := hp.consumes.orElse hq.consumes
  encloses hmatch := by
    rcases matches_orElse.1 hmatch with hfirst | ⟨-, hsecond⟩
    · exact hp.encloses hfirst
    · exact hq.encloses hsecond

/-- All but the last alternative have to be decided. -/
theorem Alternative.choice {ps qs : List (Parser Expr)} (h : List.Forall₂ (Decided S) ps qs)
    (hp : Alternative S p q) : Alternative S (choice (ps ++ [p])) (choice (qs ++ [q])) := by
  induction h with
  | nil =>
    have hnone {s : Cursor} {e : Expr} {t : Cursor} : ¬ (Parser.choice []).Matches s e t :=
      not_matches_noMatch
    refine ⟨hp.carries.orElse (fun _ _ _ _ hmatch _ ↦ absurd hmatch hnone)
      fun _ _ _ _ _ hmatch _ ↦ absurd hmatch hnone,
      hp.consumes.orElse fun _ _ _ hmatch ↦ absurd hmatch hnone, fun hmatch ↦ ?_⟩
    exact hp.encloses ((matches_orElse.1 hmatch).resolve_right fun hlast ↦ hnone hlast.2)
  | cons hfirst _ ih => exact hfirst.orElse ih

/-- Without an opening parenthesis there is nothing to close. -/
theorem encloses_of_peek {s : Cursor} (h : s.peek? ≠ some '(') : Form.Encloses s := by
  intro t u hopen _
  rw [Cursor.peek?, rest_of_matches_char hopen, List.head?_cons] at h
  exact absurd rfl h

/-- An alternative that takes no parentheses. -/
theorem Mirrors.decided (h : S.Mirrors p q) (hp : Consumes p)
    (hparen : ∀ text, Refuses p ('(' :: text)) : Decided S p q where
  carries := h.carries hp
  consumes := hp
  encloses {s e t} hmatch := by
    apply encloses_of_peek
    intro hpeek
    obtain ⟨rest, hrest⟩ := List.head?_eq_some_iff.1 hpeek
    exact (hparen rest s hrest).not_matches hmatch
  rejected {s s'} hrejects _ hrelated := h.rejected hrejects hrelated s' rfl

/-- An alternative that is decided by its first character. -/
theorem decided_opening {opening : Char} (hopening : Text.isSpace opening = false ∧ opening ≠ ';')
    (hparen : opening ≠ '(') (hcarries : S.Carries .token p q) (hconsumes : Consumes p)
    (hp : ∀ s, p.Rejects s ↔ s.peek? ≠ some opening)
    (hq : ∀ s, q.Rejects s ↔ s.peek? ≠ some opening) : Decided S p q where
  carries := hcarries
  consumes := hconsumes
  encloses {s e t} hmatch := by
    apply encloses_of_peek
    intro hpeek
    have hother : s.peek? ≠ some opening := by
      rw [hpeek]
      exact fun heq ↦ hparen (Option.some.inj heq).symm
    exact ((hp s).2 hother).not_matches hmatch
  rejected {s s'} hrejects _ hrelated := by
    have hiff := S.head?_eq_some_iff hrelated hopening.1 hopening.2
    exact (hq s').2 (mt hiff.2 ((hp s).1 hrejects))

/-- An alternative that is decided by what stands first in its parentheses. -/
theorem decided_parenthesized {α : Type} {first : Parser α} (hcarries : S.Carries .token p q)
    (hconsumes : Consumes p) (hencloses : ∀ {s e t}, p.Matches s e t → Form.Encloses s)
    (hp : ∀ s, p.Rejects s ↔ RejectsInside first s) (hq : ∀ s, q.Rejects s ↔ RejectsInside first s)
    (hfirst : ∀ {s s'}, first.Rejects s → ')' ∈ s.rest → S.Related s.rest s'.rest →
      first.Rejects s') : Decided S p q where
  carries := hcarries
  consumes := hconsumes
  encloses := hencloses
  rejected {s s'} hrejects hclosed hrelated := by
    refine (hq s').2 fun t' u' hopen' hlayout' ↦ ?_
    obtain ⟨t, u, hopen, hlayout, hu⟩ := exists_inside hrelated hopen' hlayout'
    have hclosing := hclosed t u hopen hlayout
    exact hfirst ((hp s).1 hrejects t u hopen hlayout) hclosing
      (hu.related (List.ne_nil_of_mem hclosing))

/-- An alternative that is decided by the keyword in its parentheses. -/
theorem decided_word (k : Keyword) (hcarries : S.Carries .token p q) (hconsumes : Consumes p)
    (hencloses : ∀ {s e t}, p.Matches s e t → Form.Encloses s)
    (hp : ∀ s, p.Rejects s ↔ RejectsInside (keyword k.word) s)
    (hq : ∀ s, q.Rejects s ↔ RejectsInside (keyword k.word) s) : Decided S p q :=
  decided_parenthesized hcarries hconsumes hencloses hp hq fun hrejects _ hrelated ↦
    (S.mirrors_word k).rejected hrejects hrelated _ rfl

end

end Similarity

end Lispette
