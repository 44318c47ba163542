import Lispette.Proofs.Breakage
import Lispette.Proofs.Locality

/-!
# After a broken statement

Reading resumes behind the place where a statement broke: at the end of the source, at a form that
opens in the first column, or where a single count over the whole statement finds its parentheses
closed. No form that opens in the first column is passed on the way.

The count takes comments for code. A parenthesis that a comment closes is therefore still open as
the language reads the text, and what follows is read as if it were outside of the statement. There
are at most as many of them as the comments close.
-/

namespace Lispette

open Lispette.Parser

/-! ## Cursors on one source -/

namespace Cursor

variable {source : String} {s t u : Cursor}

/-- The text that is left determines the place. -/
theorem StandsIn.position_eq (hs : s.StandsIn source) (ht : t.StandsIn source)
    (h : s.rest = t.rest) : s.toPosition = t.toPosition := by
  obtain ⟨before, hsource, hoffset, hline, hcolumn⟩ := hs
  obtain ⟨before', hsource', hoffset', hline', hcolumn'⟩ := ht
  have hbefore : before = before' := by
    rw [hsource, h] at hsource'
    exact List.append_cancel_right hsource'
  subst hbefore
  rcases s with ⟨⟨offset, line, column⟩, size, rest, errors, fits⟩
  rcases t with ⟨⟨offset', line', column'⟩, size', rest', errors', fits'⟩
  simp_all

/-- What lies further on in the source is come to by moving. -/
theorem StandsIn.exists_forward (hs : s.StandsIn source) (ht : t.StandsIn source)
    (hle : s.offset ≤ t.offset) :
    ∃ n, (s.forward n).rest = t.rest ∧ (s.forward n).toPosition = t.toPosition := by
  obtain ⟨before, hsource, hbefore⟩ := id hs
  obtain ⟨before', hsource', hbefore'⟩ := id ht
  obtain ⟨between, rfl⟩ : before <+: before' := by
    rcases List.prefix_or_prefix_of_prefix ⟨_, hsource.symm⟩ ⟨_, hsource'.symm⟩ with
      hprefix | ⟨between, rfl⟩
    · exact hprefix
    · have hoffset := hbefore.offset
      rw [byteLength_append, ← hbefore'.offset] at hoffset
      have hbetween : between = [] := byteLength_eq_zero (by omega)
      simp [hbetween]
  have hrest : (s.forward between.length).rest = t.rest := by
    rw [hsource, List.append_assoc] at hsource'
    rw [rest_forward, List.append_cancel_left hsource', List.drop_left]
  have hmoved := (s.reaches_forward between.length).standsIn hs
  exact ⟨between.length, hrest, hmoved.position_eq ht hrest⟩

theorem opensForm_iff (hrest : s.rest = t.rest) (hposition : s.toPosition = t.toPosition) :
    s.OpensForm ↔ t.OpensForm := by
  rw [OpensForm, OpensForm, peek?, peek?, hrest, hposition]

/-- Between the place where reading broke and the one where it resumes, no form opens in the first
column. -/
theorem not_opensForm_between {start d x : Cursor} (hd : d.StandsIn source) (hx : x.StandsIn source)
    (hafter : d.offset < x.offset)
    (hbefore : x.offset < (closeStatement start d.synchronize).offset) : ¬ x.OpensForm := by
  obtain ⟨i, hrest, hposition⟩ := hd.exists_forward hx (Nat.le_of_lt hafter)
  have hoffset : (d.forward i).offset = x.offset := congrArg Position.offset hposition
  rw [← opensForm_iff hrest hposition]
  rcases Nat.lt_or_ge i (Nesting.closingWidth false { depth := 1 } d.rest) with hfirst | hsecond
  · have hpos : 0 < i := by
      refine Nat.pos_of_ne_zero ?_
      rintro rfl
      exact absurd hoffset (Nat.ne_of_lt hafter)
    exact not_opensForm_of_lt hfirst (.inl hpos)
  · -- The second search starts where the first one stopped, and may stop there.
    obtain ⟨j, rfl⟩ := Nat.exists_eq_add_of_le hsecond
    rw [forward_add] at hoffset ⊢
    change (d.synchronize.forward j).offset = x.offset at hoffset
    change ¬ (d.synchronize.forward j).OpensForm
    have hj : j < Nesting.closingWidth (d.synchronize.column = 0)
        { depth := (Nesting.ofText (passed start d.synchronize)).depth } d.synchronize.rest := by
      by_contra hge
      obtain ⟨k, rfl⟩ := Nat.exists_eq_add_of_le (Nat.le_of_not_lt hge)
      rw [forward_add] at hoffset
      have hle := (reaches_forward k (closeStatement start d.synchronize)).offset_le
      exact absurd hoffset (Nat.ne_of_gt (Nat.lt_of_lt_of_le hbefore hle))
    exact not_opensForm_of_lt hj (.inr rfl)

end Cursor

/-! ## Where reading resumes -/

theorem Parser.matches_of_isMatch {α : Type} {p : Parser α} {s : Cursor}
    (h : (p.run s).reply.isMatch = true) : ∃ a, p.Matches s a (p.run s).cursor := by
  cases hreply : (p.run s).reply with
  | matched a => exact ⟨a, hreply, rfl⟩
  | noMatch | recovered _ => rw [hreply] at h; cases h

theorem Parser.recovers_of_map_reply {α : Type} {p : Parser α} {s : Cursor} {e : SyntaxError}
    (h : (p.run s).reply.map (fun _ ↦ ()) = .recovered e) : p.Recovers s e (p.run s).cursor := by
  cases hreply : (p.run s).reply with
  | recovered d =>
    rw [hreply] at h
    exact ⟨hreply.trans (congrArg _ (Reply.recovered.inj h)), rfl⟩
  | matched _ | noMatch => rw [hreply] at h; cases h

namespace Grammar

variable {g : Grammar} {source : String} {c r : Cursor} {e : SyntaxError}

/-- The loop over the statements of the source has come to `c`, the statement there breaks with the
error, and the loop goes on at `r`. -/
structure ResumesAt (g : Grammar) (source : String) (c : Cursor) (e : SyntaxError) (r : Cursor) :
    Prop where
  reached : ∃ body, Chain g.topLevel (Cursor.ofSource source) body c
  broken : ∃ t, g.statement.Recovers c e t
  resumed : g.topLevel.Matches c (.error e) r

theorem resumesAt_of_recovers {body : List Expr} {t : Cursor}
    (hchain : Chain g.topLevel (Cursor.ofSource source) body c)
    (h : g.statement.Recovers c e t) : g.ResumesAt source c e (Cursor.closeStatement c t) :=
  ⟨⟨body, hchain⟩, ⟨t, h⟩, g.matches_topLevel_of_recovers h⟩

theorem ResumesAt.standsIn (h : g.ResumesAt source c e r) : c.StandsIn source := by
  obtain ⟨body, hchain⟩ := h.reached
  exact hchain.standsIn g.stays_topLevel (Cursor.standsIn_ofSource source)

/-- A broken statement is left in two steps: out of the construct that broke, and out of what is
still open of the statement. -/
theorem ResumesAt.exists_breaks (h : g.ResumesAt source c e r) :
    ∃ d, c.Breaks d ∧ e.stop = d.offset ∧
      r = (Cursor.closeStatement c d.synchronize).withError e := by
  obtain ⟨t, hbroken⟩ := h.broken
  have hresumed := g.matches_topLevel_of_recovers hbroken
  obtain ⟨-, d, hbreaks, hstop, rfl⟩ := g.orderly_statement.recovered trivial hbroken
  refine ⟨d, hbreaks, hstop, ?_⟩
  rw [(h.resumed.unique hresumed).2, Cursor.closeStatement_withError]

theorem ResumesAt.closed (h : g.ResumesAt source c e r) :
    r.atEnd = true ∨ r.OpensForm ∨ (Nesting.ofText (Cursor.passed c r)).depth = 0 := by
  obtain ⟨d, hbreaks, -, rfl⟩ := h.exists_breaks
  exact Cursor.closed_of_breaks (t := Cursor.closeStatement c d.synchronize) hbreaks rfl

/-- Reading resumes behind the error, passes no form on the way that opens in the first column, and
leaves the broken statement closed. -/
theorem resumes_behind_error (g : Grammar) (source : String) (c r : Cursor) (e : SyntaxError)
    (h : g.ResumesAt source c e r) :
    (e.stop < r.offset ∨ r.atEnd = true) ∧
      (∀ x : Cursor, x.StandsIn source → x.OpensForm →
        ¬ (e.stop < x.offset ∧ x.offset < r.offset)) ∧
      (r.atEnd = true ∨ r.OpensForm ∨ (Nesting.ofText (Cursor.passed c r)).depth = 0) := by
  obtain ⟨d, hbreaks, hstop, hr⟩ := h.exists_breaks
  have hd : d.StandsIn source := hbreaks.1.standsIn h.standsIn
  have hclose := Cursor.reaches_closeStatement c d.synchronize
  refine ⟨?_, fun x hx hopens ⟨hafter, hbefore⟩ ↦ ?_, h.closed⟩
  · rw [hr, hstop]
    rcases d.offset_lt_synchronize_or_atEnd with hlt | hend
    · exact .inl (Nat.lt_of_lt_of_le hlt hclose.offset_le)
    · exact .inr (hclose.atEnd hend)
  · rw [hr] at hbefore
    rw [hstop] at hafter
    exact Cursor.not_opensForm_between hd hx hafter hbefore hopens

/-- The second statement breaks after a comment with a quote in it. -/
theorem resumes_behind_error_quoted :
    ∃ c e r, ResumesAt {} "x (f ; it\"s\n (g ]) y) z" c e r ∧ c.offset = 2 ∧ e.stop = 16 ∧
      r.rest = " z".toList ∧ ¬ r.OpensForm ∧ e.stop < r.offset ∧
      (Nesting.ofText (Cursor.passed c r)).depth = 0 := by
  let start := Cursor.ofSource "x (f ; it\"s\n (g ]) y) z"
  let c := ((topLevel {}).run start).cursor
  let e : SyntaxError := ⟨Fault.callEnd.message, 2, 13, 16⟩
  let r := Cursor.closeStatement c ((statement {}).run c).cursor
  have hmatch : ((topLevel {}).run start).reply.isMatch = true := by decide +kernel
  obtain ⟨x, hx⟩ := matches_of_isMatch hmatch
  have hchain : Chain (topLevel {}) start [x] c := .cons (by decide) hx .nil
  have hbroken : (statement {}).Recovers c e ((statement {}).run c).cursor :=
    recovers_of_map_reply (by decide +kernel)
  have hresumes : ResumesAt {} "x (f ; it\"s\n (g ]) y) z" c e r :=
    resumesAt_of_recovers hchain hbroken
  have hrest : c.offset = 2 ∧ r.rest = " z".toList ∧ ¬ r.OpensForm := by decide +kernel
  obtain ⟨hoffset, hrest, hopens⟩ := hrest
  have hend : ¬ r.atEnd = true := by
    rw [Cursor.atEnd, hrest]
    decide
  obtain ⟨hbehind, -, hclosed⟩ := resumes_behind_error {} _ c r e hresumes
  exact ⟨c, e, r, hresumes, hoffset, rfl, hrest, hopens, hbehind.resolve_right hend,
    (hclosed.resolve_left hend).resolve_left hopens⟩

end Grammar

/-! ## Parentheses as the language reads them -/

/-- What a character is part of. A backslash in a string takes the next character with it. -/
inductive Region where
  | code
  | string
  | escape
  | comment
deriving DecidableEq, Repr

/-- A newline ends everything. -/
def Region.step (region : Region) (c : Char) : Region :=
  if c = '\n' then .code
  else match region with
    | .code => if c = '"' then .string else if c = ';' then .comment else .code
    | .string => if c = '"' then .code else if c = '\\' then .escape else .string
    | .escape => .string
    | .comment => .comment

/-- How many parentheses of the code are open, and how many are closed in comments. -/
structure Parentheses where
  region : Region := .code
  unclosed : Nat := 0
  commented : Nat := 0
deriving DecidableEq, Repr

namespace Parentheses

def step (n : Parentheses) (c : Char) : Parentheses where
  region := n.region.step c
  unclosed :=
    if n.region = .code ∧ c = '(' then n.unclosed + 1
    else if n.region = .code ∧ c = ')' then n.unclosed - 1
    else n.unclosed
  commented := if n.region = .comment ∧ c = ')' then n.commented + 1 else n.commented

def ofText (text : List Char) : Parentheses := text.foldl step {}

end Parentheses

namespace Nesting

variable {m : Nesting} {n : Parentheses} {region : Region} {c : Char} {depth : Nat}

/-! The raw count, one step at a time, from where the language stands in each kind of region. -/

theorem step_code (hc : c ≠ '\n') : ({ depth } : Nesting).step c =
    { depth := if c = '(' then depth + 1 else if c = ')' then depth - 1 else depth
      inString := c = '"' } := by
  by_cases hquote : c = '"'
  · subst hquote
    rfl
  · simp only [Nesting.step, hc, hquote, if_false, Bool.false_eq_true, decide_false]
    split_ifs <;> rfl

theorem step_string (hc : c ≠ '\n') : ({ depth, inString := true } : Nesting).step c =
    { depth, inString := c ≠ '"', escaped := c = '\\' } := by
  by_cases hquote : c = '"'
  · subst hquote
    rfl
  · simp [Nesting.step, hc, hquote]

theorem step_escape (hc : c ≠ '\n') :
    ({ depth, inString := true, escaped := true } : Nesting).step c =
      { depth, inString := true } := by
  simp [Nesting.step, hc]

theorem step_newline (m : Nesting) : m.step '\n' = { depth := m.depth } := rfl

/-- Only a closing parenthesis takes the raw count down, and only by one. -/
theorem depth_le_step (m : Nesting) (c : Char) :
    m.depth ≤ (m.step c).depth + if c = ')' then 1 else 0 := by
  simp only [Nesting.step, apply_ite Nesting.depth]
  split_ifs <;> omega

/-- Outside of comments, the count over the raw text reads strings as the language does. -/
def Reads (m : Nesting) : Region → Prop
  | .code => m = { depth := m.depth }
  | .string => m = { depth := m.depth, inString := true }
  | .escape => m = { depth := m.depth, inString := true, escaped := true }
  | .comment => True

/-- Outside of comments, the raw scan knows in which region it stands, since newlines end strings
for it as well. -/
theorem Reads.step (h : m.Reads region) (c : Char) : (m.step c).Reads (region.step c) := by
  by_cases hnewline : c = '\n'
  · subst hnewline
    rw [step_newline]
    exact rfl
  · cases region with
    | code =>
      rw [show m = { depth := m.depth } from h, step_code hnewline]
      by_cases hquote : c = '"'
      · simp [Region.step, Reads, hquote]
      · by_cases hcomment : c = ';' <;> simp [Region.step, Reads, hnewline, hquote, hcomment]
    | string =>
      rw [show m = { depth := m.depth, inString := true } from h, step_string hnewline]
      by_cases hquote : c = '"'
      · simp [Region.step, Reads, hquote]
      · by_cases hescape : c = '\\' <;> simp [Region.step, Reads, hnewline, hquote, hescape]
    | escape =>
      rw [show m = { depth := m.depth, inString := true, escaped := true } from h,
        step_escape hnewline]
      simp [Region.step, Reads, hnewline]
    | comment => simp [Region.step, Reads, hnewline]

/-- The raw count goes along with the reading of the language, but for what comments close. -/
structure Tracks (m : Nesting) (n : Parentheses) : Prop where
  reads : m.Reads n.region
  bound : n.unclosed ≤ m.depth + n.commented

/-- The step of the invariant: what the raw count has lost against the language are parentheses
closed in comments. -/
theorem Tracks.step (h : m.Tracks n) (c : Char) : (m.step c).Tracks (n.step c) where
  reads := h.reads.step c
  bound := by
    obtain ⟨hreads, hbound⟩ := h
    by_cases hnewline : c = '\n'
    · subst hnewline
      simpa [Parentheses.step, step_newline] using hbound
    · rcases n with ⟨region, unclosed, commented⟩
      cases region with
      | code =>
        rw [show m = { depth := m.depth } from hreads, step_code hnewline]
        simp only [Parentheses.step, true_and, reduceCtorEq, false_and, if_false] at hbound ⊢
        split_ifs <;> omega
      | string =>
        rw [show m = { depth := m.depth, inString := true } from hreads, step_string hnewline]
        simpa [Parentheses.step] using hbound
      | escape =>
        rw [show m = { depth := m.depth, inString := true, escaped := true } from hreads,
          step_escape hnewline]
        simpa [Parentheses.step] using hbound
      | comment =>
        have hdepth := m.depth_le_step c
        simp only [Parentheses.step, true_and, reduceCtorEq, false_and, if_false] at hbound ⊢
        split_ifs at hdepth ⊢ <;> omega

theorem tracks_ofText (text : List Char) : (ofText text).Tracks (Parentheses.ofText text) := by
  have hrun : ∀ (m : Nesting) (n : Parentheses), m.Tracks n →
      (m.along text).Tracks (text.foldl Parentheses.step n) := by
    induction text with
    | nil => exact fun _ _ h ↦ h
    | cons c cs ih => exact fun m n h ↦ ih _ _ (h.step c)
  exact hrun {} {} ⟨rfl, Nat.le_refl _⟩

end Nesting

/-- As many parentheses of a broken statement may be left open as its comments close. -/
theorem Grammar.unclosed_le_commented (g : Grammar) (source : String) (c r : Cursor)
    (e : SyntaxError) (h : g.ResumesAt source c e r) :
    r.atEnd = true ∨ r.OpensForm ∨
      (Parentheses.ofText (Cursor.passed c r)).unclosed ≤
        (Parentheses.ofText (Cursor.passed c r)).commented := by
  refine h.closed.imp_right fun hclosed ↦ hclosed.imp_right fun hdepth ↦ ?_
  have hbound := (Nesting.tracks_ofText (Cursor.passed c r)).bound
  rwa [hdepth, Nat.zero_add] at hbound

/-- Neither the comment nor the string that follows the broken call closes anything. -/
theorem Grammar.unclosed_le_commented_string :
    ∃ c e r, ResumesAt {} "(f (g ]) ; done\n \"(\" x) y" c e r ∧ r.rest = " y".toList ∧
      (Parentheses.ofText (Cursor.passed c r)).unclosed = 0 := by
  let c := Cursor.ofSource "(f (g ]) ; done\n \"(\" x) y"
  let e : SyntaxError := ⟨Fault.callEnd.message, 1, 3, 6⟩
  let r := Cursor.closeStatement c ((statement {}).run c).cursor
  have hbroken : (statement {}).Recovers c e ((statement {}).run c).cursor :=
    recovers_of_map_reply (by decide +kernel)
  have hresumes : ResumesAt {} "(f (g ]) ; done\n \"(\" x) y" c e r :=
    resumesAt_of_recovers .nil hbroken
  have hplace : r.rest = " y".toList ∧ ¬ r.OpensForm ∧ r.atEnd = false ∧
      (Parentheses.ofText (Cursor.passed c r)).commented = 0 := by
    decide +kernel
  obtain ⟨hrest, hopens, hend, hcommented⟩ := hplace
  have hclosed := unclosed_le_commented {} _ c r e hresumes
  rw [hend, hcommented] at hclosed
  exact ⟨c, e, r, hresumes, hrest, by simpa [hopens] using hclosed⟩

/-- A comment closes the outer call, and the argument below it is read as a statement. -/
theorem Grammar.unclosed_after_comment :
    ∃ c e r, ResumesAt {} "(f (g ]) ; done)\n x)" c e r ∧ r.rest = "\n x)".toList ∧
      r.atEnd = false ∧ ¬ r.OpensForm ∧
      (Parentheses.ofText (Cursor.passed c r)).unclosed = 1 ∧
      ((statement {}).run r).reply.isMatch = true := by
  let c := Cursor.ofSource "(f (g ]) ; done)\n x)"
  let e : SyntaxError := ⟨Fault.callEnd.message, 1, 3, 6⟩
  let r := Cursor.closeStatement c ((statement {}).run c).cursor
  have hbroken : (statement {}).Recovers c e ((statement {}).run c).cursor :=
    recovers_of_map_reply (by decide +kernel)
  have hplace : r.rest = "\n x)".toList ∧ r.atEnd = false ∧ ¬ r.OpensForm ∧
      (Parentheses.ofText (Cursor.passed c r)).unclosed = 1 ∧
      ((statement {}).run r).reply.isMatch = true := by
    decide +kernel
  exact ⟨c, e, r, resumesAt_of_recovers .nil hbroken, hplace⟩

end Lispette
