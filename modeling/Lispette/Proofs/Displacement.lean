import Mathlib.Data.List.TakeWhile
import Lispette.Proofs.Position
import Lispette.Proofs.Shape
import Lispette.Parser.Basic

/-!
# Displacement

A text may stand by itself or further on in a longer source. What is read from it is then the same,
up to a displacement: offsets grow by the bytes in front of the text, lines by the newlines in front
of it, and columns by what stands in front of it on its first line. Moving a cursor and displacing
it can be exchanged.
-/

namespace Lispette

/-- How far the beginning of a text lies from the beginning of a source. Only the first line of the
text shares its columns with what stands in front. -/
structure Displacement where
  bytes : Nat
  lines : Nat
  columns : Nat
deriving DecidableEq, Repr

/-- The displacement of a text that comes after the given one. -/
def Displacement.after (before : List Char) : Displacement where
  bytes := byteLength before
  lines := before.count '\n'
  columns := (before.reverse.takeWhile (· ≠ '\n')).length

variable (d : Displacement)

/-! ## Displaced positions and errors -/

def Position.displace (p : Position) : Position where
  offset := p.offset + d.bytes
  line := p.line + d.lines
  column := if p.line = 1 then p.column + d.columns else p.column

def SyntaxError.displace (e : SyntaxError) : SyntaxError where
  message := e.message
  line := e.line + d.lines
  start := e.start + d.bytes
  stop := e.stop + d.bytes

def Event.displace : Event → Event
  | .enter rule place => .enter rule (place.displace d)
  | .exit rule verdict place => .exit rule verdict (place.displace d)

namespace Expr

mutual

/-- Displaces every syntax error in the expression. -/
def displace : Expr → Expr
  | number value => number value
  | string text => string text
  | boolean value => boolean value
  | nil => nil
  | array items => array (displaceAll items)
  | identifier name => identifier name
  | unary op operand => unary op operand.displace
  | binary op left right => binary op left.displace right.displace
  | call callee arguments => call callee.displace (displaceAll arguments)
  | chain receiver calls => chain receiver.displace (displaceCalls calls)
  | member target key => member target.displace key.displace
  | constant name value => constant name value.displace
  | function name parameters body => function name parameters (displaceAll body)
  | print value => print value.displace
  | block statements => block (displaceAll statements)
  | closure parameters body => closure parameters (displaceAll body)
  | cond branches otherwise => cond (displaceBranches branches) (displaceElse otherwise)
  | error e => error (e.displace d)

def displaceAll : List Expr → List Expr
  | [] => []
  | e :: es => e.displace :: displaceAll es

def displaceCalls : List (ChainCall Expr) → List (ChainCall Expr)
  | [] => []
  | ⟨target, arguments⟩ :: calls => ⟨target.displace, displaceAll arguments⟩ :: displaceCalls calls

def displaceBranches : List (Branch Expr) → List (Branch Expr)
  | [] => []
  | ⟨condition, body⟩ :: branches =>
    ⟨condition.displace, displaceAll body⟩ :: displaceBranches branches

def displaceElse : Option (List Expr) → Option (List Expr)
  | none => none
  | some body => some (displaceAll body)

end

variable {d}

/-- If no expression of the list changes, the list does not; and likewise for calls, branches and
the last body. -/
theorem displaceAll_eq_self {es : List Expr} (h : ∀ e ∈ es, e.displace d = e) :
    displaceAll d es = es := by
  induction es with
  | nil => rfl
  | cons e es ih =>
    obtain ⟨he, hes⟩ := List.forall_mem_cons.1 h
    rw [displaceAll, he, ih hes]

theorem displaceCalls_eq_self {calls : List (ChainCall Expr)}
    (htargets : ∀ c ∈ calls, c.target.displace d = c.target)
    (harguments : ∀ c ∈ calls, ∀ e ∈ c.arguments, e.displace d = e) :
    displaceCalls d calls = calls := by
  induction calls with
  | nil => rfl
  | cons c calls ih =>
    obtain ⟨htarget, htargets⟩ := List.forall_mem_cons.1 htargets
    obtain ⟨hargument, harguments⟩ := List.forall_mem_cons.1 harguments
    rw [displaceCalls, htarget, displaceAll_eq_self hargument, ih htargets harguments]

theorem displaceBranches_eq_self {branches : List (Branch Expr)}
    (hconditions : ∀ b ∈ branches, b.condition.displace d = b.condition)
    (hbodies : ∀ b ∈ branches, ∀ e ∈ b.body, e.displace d = e) :
    displaceBranches d branches = branches := by
  induction branches with
  | nil => rfl
  | cons b branches ih =>
    obtain ⟨hcondition, hconditions⟩ := List.forall_mem_cons.1 hconditions
    obtain ⟨hbody, hbodies⟩ := List.forall_mem_cons.1 hbodies
    rw [displaceBranches, hcondition, displaceAll_eq_self hbody, ih hconditions hbodies]

theorem displaceElse_eq_self {otherwise : Option (List Expr)}
    (h : ∀ body ∈ otherwise, ∀ e ∈ body, e.displace d = e) :
    displaceElse d otherwise = otherwise := by
  cases otherwise with
  | none => rfl
  | some body => rw [displaceElse, displaceAll_eq_self (h body rfl)]

/-- A well-shaped expression holds no syntax error, so there is nothing to displace in it. -/
theorem WellShaped.displace_eq {place : Place} {e : Expr} (h : e.WellShaped place) :
    e.displace d = e := by
  induction h with
  | number _ | string _ | boolean _ | nil | identifier _ _ _ => rw [displace]
  | array _ ih => rw [displace, displaceAll_eq_self ih]
  | cond _ _ _ _ ihconditions ihbodies ihotherwise =>
    rw [displace, displaceBranches_eq_self ihconditions ihbodies, displaceElse_eq_self ihotherwise]
  | closure _ _ ih => rw [displace, displaceAll_eq_self ih]
  | binary _ _ ihleft ihright => rw [displace, ihleft, ihright]
  | chain _ _ _ ihreceiver ihtargets iharguments =>
    rw [displace, ihreceiver, displaceCalls_eq_self ihtargets iharguments]
  | block _ ih => rw [displace, displaceAll_eq_self ih]
  | call _ _ ihcallee iharguments => rw [displace, ihcallee, displaceAll_eq_self iharguments]
  | member _ _ ihtarget ihkey => rw [displace, ihtarget, ihkey]
  | unary _ ih | constant _ _ ih | print _ ih => rw [displace, ih]
  | function _ _ _ ih => rw [displace, displaceAll_eq_self ih]
  | ofPrimary _ ih | ofMember _ ih | ofExpression _ ih => exact ih

end Expr

def Program.displace (p : Program) : Program := ⟨p.body.map (Expr.displace d)⟩

/-! ## Displaced cursors -/

namespace Cursor

def displace (s : Cursor) : Cursor where
  toPosition := s.toPosition.displace d
  size := s.size + d.bytes
  rest := s.rest
  errors := s.errors.map (SyntaxError.displace d)
  fits := by
    have hfits := s.fits
    simp only [Position.displace]
    omega

@[simp] theorem rest_displace (s : Cursor) : (s.displace d).rest = s.rest := rfl

@[simp] theorem atEnd_displace (s : Cursor) : (s.displace d).atEnd = s.atEnd := rfl

@[simp] theorem remaining_displace (s : Cursor) : (s.displace d).remaining = s.remaining := by
  rw [remaining_eq, remaining_eq, rest_displace]

/-- Errors are displaced along with the cursor that records them. -/
theorem withError_displace (e : SyntaxError) (s : Cursor) :
    (s.displace d).withError (e.displace d) = (s.withError e).displace d := by
  simp [withError, displace]

theorem StandsIn.line_pos {source : String} {s : Cursor} (h : s.StandsIn source) : 0 < s.line := by
  obtain ⟨before, -, -, hline, -⟩ := h
  omega

/-- A newline leaves the first line, so columns are displaced only before it. -/
theorem advance_displace {s : Cursor} (h : 0 < s.line) :
    (s.displace d).advance = s.advance.displace d := by
  rcases s with ⟨⟨offset, line, column⟩, size, rest, errors, fits⟩
  dsimp only at h
  cases rest with
  | nil => rfl
  | cons c cs =>
    by_cases hc : c = '\n'
    · simp [advance, displace, Position.displace, hc, Nat.ne_of_gt h, Nat.add_right_comm]
    · by_cases hline : line = 1 <;>
        simp [advance, displace, Position.displace, hc, hline, Nat.add_right_comm]

variable {source : String}

theorem forward_displace (n : Nat) {s : Cursor} (h : s.StandsIn source) :
    (s.displace d).forward n = (s.forward n).displace d := by
  induction n generalizing s with
  | zero => rfl
  | succ n ih => rw [forward, forward, advance_displace d h.line_pos, ih h.advance]

theorem synchronize_displace {s : Cursor} (h : s.StandsIn source) :
    (s.displace d).synchronize = s.synchronize.displace d :=
  forward_displace d _ h

/-- On its first line, a text has passed as many characters as the column says. -/
theorem StandsIn.column_pos {s : Cursor} (h : s.StandsIn source) (hline : s.line = 1)
    (hoffset : 0 < s.offset) : 0 < s.column := by
  obtain ⟨before, -, hbefore, hlines, hcolumn⟩ := h
  have hnone : '\n' ∉ before := by
    rw [← List.count_eq_zero]
    omega
  have hall : ∀ c ∈ before.reverse, decide (c ≠ '\n') = true := by
    intro c hc
    refine decide_eq_true ?_
    rintro rfl
    exact hnone (List.mem_reverse.1 hc)
  have hne : before ≠ [] := by
    rintro rfl
    rw [hbefore, byteLength] at hoffset
    exact Nat.lt_irrefl 0 hoffset
  rw [hcolumn, List.takeWhile_eq_self_iff.2 hall, List.length_reverse]
  exact List.length_pos_iff.2 hne

/-- Whether a cursor stands in the first column is seen from the text it has passed, unless it has
passed nothing; and at the end of the source it does not matter. -/
theorem closeStatement_displace (start : Cursor) {s : Cursor} (h : s.StandsIn source)
    (hmoved : 0 < s.offset ∨ s.atEnd = true) :
    closeStatement (start.displace d) (s.displace d) = (closeStatement start s).displace d := by
  have hwidth (n : Nesting) : n.closingWidth ((s.displace d).column = 0) s.rest =
      n.closingWidth (s.column = 0) s.rest := by
    rcases hmoved with hoffset | hend
    · have hcolumn : (s.displace d).column = 0 ↔ s.column = 0 := by
        by_cases hline : s.line = 1
        · have hpos := h.column_pos hline hoffset
          simp only [displace, Position.displace, hline, if_true]
          omega
        · simp only [displace, Position.displace, hline, if_false]
      simp only [hcolumn]
    · rw [List.isEmpty_iff.1 hend, Nesting.closingWidth, Nesting.closingWidth]
  rw [closeStatement, closeStatement, ← forward_displace d _ h, rest_displace, hwidth]
  rfl

/-- Where a source goes on with the given text and nothing has gone wrong before, the cursor is the
one at the beginning of that text, displaced. -/
theorem StandsIn.eq_displace {before after : String} {s : Cursor} (h : s.StandsIn (before ++ after))
    (hrest : s.rest = after.toList) (herrors : s.errors = []) :
    s = (ofSource after).displace (.after before.toList) := by
  obtain ⟨passed, hsource, hoffset, hline, hcolumn⟩ := h
  rw [hrest, String.toList_append, List.append_cancel_right_eq] at hsource
  have hsize : s.size = byteLength after.toList + byteLength before.toList := by
    rw [← s.fits, hoffset, hrest, hsource, Nat.add_comm]
  subst hsource
  rcases s with ⟨⟨offset, line, column⟩, size, rest, errors, fits⟩
  dsimp only at hrest herrors hoffset hline hcolumn hsize
  subst hrest herrors hoffset hline hcolumn hsize
  simp [displace, ofSource, Position.displace, Displacement.after]

theorem charsCovering_byteLength (text more : List Char) :
    charsCovering (byteLength text) (text ++ more) = text.length := by
  induction text with
  | nil => cases more <;> rfl
  | cons c cs ih =>
    have hc : 0 < c.utf8Size := c.utf8Size_pos
    have hne : c.utf8Size + byteLength cs ≠ 0 := by omega
    rw [List.cons_append, byteLength, charsCovering, if_neg hne, Nat.add_sub_cancel_left, ih,
      List.length_cons, Nat.add_comm]

/-- Passing what stands in front of a text displaces its beginning. -/
theorem advanceBytes_ofSource (before after : String) :
    (ofSource (before ++ after)).advanceBytes (byteLength before.toList) =
      (ofSource after).displace (.after before.toList) := by
  have hreaches := reaches_forward
    (charsCovering (byteLength before.toList) (ofSource (before ++ after)).rest)
    (ofSource (before ++ after))
  refine (hreaches.standsIn (standsIn_ofSource _)).eq_displace ?_ hreaches.errors_eq
  have hsource : (ofSource (before ++ after)).rest = before.toList ++ after.toList :=
    String.toList_append
  rw [rest_forward, hsource, charsCovering_byteLength, List.drop_left]

end Cursor

end Lispette
