import Lispette.Source.Nesting

/-!
# Where cursors stand

A cursor moves by single steps only, whatever makes it move, so what one step keeps is kept by every
move. A cursor that was made from a source, moved and given errors therefore still stands in that
source: the characters before it determine its offset, line and column, and the rest follows them.
-/

namespace Lispette

/-- The line on which the given byte offset lies. -/
def lineAt : List Char → Nat → Nat
  | [], _ => 1
  | c :: cs, offset =>
    if offset = 0 then 1
    else lineAt cs (offset - c.utf8Size) + if c = '\n' then 1 else 0

theorem byteLength_append (text more : List Char) :
    byteLength (text ++ more) = byteLength text + byteLength more := by
  induction text with
  | nil => simp [byteLength]
  | cons c cs ih => simp only [List.cons_append, byteLength, ih, Nat.add_assoc]

theorem byteLength_eq_zero {text : List Char} (h : byteLength text = 0) : text = [] := by
  have hlength := length_le_byteLength text
  exact List.eq_nil_of_length_eq_zero (by omega)

/-- At the end of a part of the text, the line is told by the newlines in that part. -/
theorem lineAt_byteLength (before rest : List Char) :
    lineAt (before ++ rest) (byteLength before) = 1 + before.count '\n' := by
  induction before with
  | nil => cases rest <;> simp [lineAt, byteLength]
  | cons c cs ih =>
    have hc : 0 < c.utf8Size := c.utf8Size_pos
    have hne : c.utf8Size + byteLength cs ≠ 0 := by omega
    simp only [List.cons_append, lineAt, byteLength, hne, if_false, Nat.add_sub_cancel_left, ih,
      List.count_cons, beq_iff_eq]
    omega

namespace Cursor

/-! ## Moves are steps -/

/-- Moving is done character by character, so moves add up. -/
theorem forward_add (m n : Nat) (s : Cursor) : s.forward (m + n) = (s.forward m).forward n := by
  induction m generalizing s with
  | zero => rw [Nat.zero_add, forward]
  | succ m ih => rw [Nat.succ_add, forward, forward, ih]

/-- What is left behind a text that stands at the cursor. -/
theorem rest_forward_length {s : Cursor} {text : String} {rest : List Char}
    (h : s.rest = text.toList ++ rest) : (s.forward text.length).rest = rest := by
  rw [rest_forward, h, ← String.length_toList, List.drop_left]

/-- Recording an error and moving do not depend on each other, in this and in the three other ways
of moving. -/
theorem advance_withError (e : SyntaxError) (s : Cursor) :
    (s.withError e).advance = s.advance.withError e := by
  rcases s with ⟨position, size, rest, errors, fits⟩
  cases rest <;> rfl

theorem forward_withError (e : SyntaxError) (n : Nat) (s : Cursor) :
    (s.withError e).forward n = (s.forward n).withError e := by
  induction n generalizing s with
  | zero => rfl
  | succ n ih => rw [forward, forward, advance_withError, ih]

theorem synchronize_withError (e : SyntaxError) (s : Cursor) :
    (s.withError e).synchronize = s.synchronize.withError e :=
  forward_withError e _ s

theorem closeStatement_withError (e : SyntaxError) (start s : Cursor) :
    closeStatement start (s.withError e) = (closeStatement start s).withError e :=
  forward_withError e _ s

/-- The second cursor is the first one, moved. -/
def Reaches (s t : Cursor) : Prop := ∃ n, t = s.forward n

theorem Reaches.refl (s : Cursor) : s.Reaches s := ⟨0, rfl⟩

theorem Reaches.trans {s t u : Cursor} (hst : s.Reaches t) (htu : t.Reaches u) : s.Reaches u := by
  obtain ⟨m, rfl⟩ := hst
  obtain ⟨n, rfl⟩ := htu
  exact ⟨m + n, (forward_add m n s).symm⟩

theorem reaches_advance (s : Cursor) : s.Reaches s.advance := ⟨1, rfl⟩

theorem reaches_forward (n : Nat) (s : Cursor) : s.Reaches (s.forward n) := ⟨n, rfl⟩

theorem reaches_synchronize (s : Cursor) : s.Reaches s.synchronize := ⟨_, rfl⟩

theorem reaches_closeStatement (start s : Cursor) : s.Reaches (closeStatement start s) := ⟨_, rfl⟩

theorem Reaches.size_eq {s t : Cursor} (h : s.Reaches t) : t.size = s.size := by
  obtain ⟨n, rfl⟩ := h
  exact size_forward n s

/-- Moving records nothing. -/
theorem Reaches.errors_eq {s t : Cursor} (h : s.Reaches t) : t.errors = s.errors := by
  obtain ⟨n, rfl⟩ := h
  exact errors_forward n s

theorem offset_le_advance (s : Cursor) : s.offset ≤ s.advance.offset := by
  rcases s with ⟨position, size, rest, errors, fits⟩
  cases rest with
  | nil => exact Nat.le_refl _
  | cons c cs => exact Nat.le_add_right _ _

/-- There is no way back by moving. -/
theorem Reaches.offset_le {s t : Cursor} (h : s.Reaches t) : s.offset ≤ t.offset := by
  obtain ⟨n, rfl⟩ := h
  induction n generalizing s with
  | zero => exact Nat.le_refl _
  | succ n ih => exact Nat.le_trans s.offset_le_advance ih

theorem Reaches.remaining_le {s t : Cursor} (h : s.Reaches t) : t.remaining ≤ s.remaining := by
  have hoffset := h.offset_le
  have hsize := h.size_eq
  unfold remaining
  omega

theorem Reaches.atEnd {s t : Cursor} (h : s.Reaches t) (hs : s.atEnd = true) :
    t.atEnd = true := by
  obtain ⟨n, rfl⟩ := h
  have hrest : s.rest = [] := List.isEmpty_iff.1 hs
  simp [Cursor.atEnd, hrest]

/-! ## Progress -/

/-- Before the end of the source, a step passes at least one byte. -/
theorem offset_lt_advance {s : Cursor} (h : s.atEnd = false) : s.offset < s.advance.offset := by
  rcases s with ⟨position, size, rest, errors, fits⟩
  cases rest with
  | nil => simp [atEnd] at h
  | cons c cs => exact Nat.lt_add_of_pos_right c.utf8Size_pos

theorem offset_lt_forward_succ {s : Cursor} (n : Nat) (h : s.atEnd = false) :
    s.offset < (s.forward (n + 1)).offset :=
  Nat.lt_of_lt_of_le (offset_lt_advance h) (reaches_forward n s.advance).offset_le

/-- As each character takes some bytes, none are left exactly if no character is. -/
theorem remaining_eq_zero {s : Cursor} : s.remaining = 0 ↔ s.atEnd = true := by
  rw [remaining_eq, atEnd, List.isEmpty_iff]
  exact ⟨byteLength_eq_zero, fun h ↦ by rw [h, byteLength]⟩

theorem atEnd_of_remaining_lt {s : Cursor} {bytes : Nat} (h : bytes < s.remaining) :
    s.atEnd = false := by
  cases hend : s.atEnd with
  | false => rfl
  | true =>
    have hzero := remaining_eq_zero.2 hend
    omega

/-- Offsets and the bytes left are two views of one move. -/
theorem remaining_lt_iff {s t : Cursor} (hsize : t.size = s.size) :
    t.remaining < s.remaining ↔ s.offset < t.offset := by
  have hs := s.fits
  have ht := t.fits
  rw [remaining_eq, remaining_eq]
  omega

theorem Reaches.remaining_lt_iff {s t : Cursor} (h : s.Reaches t) :
    t.remaining < s.remaining ↔ s.offset < t.offset :=
  Cursor.remaining_lt_iff h.size_eq

/-- The character at which reading failed is passed. -/
theorem offset_lt_synchronize {s : Cursor} (h : s.atEnd = false) :
    s.offset < s.synchronize.offset := by
  obtain ⟨c, cs, hrest⟩ : ∃ c cs, s.rest = c :: cs := by
    cases hrest : s.rest with
    | nil => simp [atEnd, hrest] at h
    | cons c cs => exact ⟨c, cs, rfl⟩
  have hwidth : s.synchronize = s.forward
      (Nesting.closingWidth (c = '\n') (({ depth := 1 } : Nesting).step c) cs + 1) := by
    rw [synchronize, hrest, Nesting.closingWidth, Nat.add_comm]
    simp
  rw [hwidth]
  exact offset_lt_forward_succ _ h

/-- After an error, reading never resumes at the very place where it failed, unless nothing is left.
-/
theorem offset_lt_synchronize_or_atEnd (s : Cursor) :
    s.offset < s.synchronize.offset ∨ s.synchronize.atEnd = true := by
  cases h : s.atEnd with
  | false => exact .inl (offset_lt_synchronize h)
  | true =>
    have hrest : s.rest = [] := List.isEmpty_iff.1 h
    exact .inr (by simp [atEnd, synchronize, hrest])

/-! ## Positions in a source -/

/-- The position of the cursor is the one that the text before it has led to. -/
structure StandsAfter (before : List Char) (s : Cursor) : Prop where
  offset : s.offset = byteLength before
  line : s.line = 1 + before.count '\n'
  column : s.column = (before.reverse.takeWhile (· ≠ '\n')).length

/-- The cursor stands between the two parts of a source. -/
def StandsIn (source : String) (s : Cursor) : Prop :=
  ∃ before, source.toList = before ++ s.rest ∧ s.StandsAfter before

theorem standsIn_ofSource (source : String) : (ofSource source).StandsIn source := by
  refine ⟨[], rfl, ?_⟩
  constructor <;> rfl

/-- The step of the invariant: offset, line and column are kept up with each character that is
passed. -/
theorem StandsIn.advance {source : String} {s : Cursor} (h : s.StandsIn source) :
    s.advance.StandsIn source := by
  obtain ⟨before, hsource, hoffset, hline, hcolumn⟩ := h
  rcases s with ⟨⟨offset, line, column⟩, size, rest, errors, fits⟩
  cases rest with
  | nil => exact ⟨before, hsource, hoffset, hline, hcolumn⟩
  | cons c cs =>
    dsimp only at hoffset hline hcolumn
    refine ⟨before ++ [c], by simpa using hsource, ?_, ?_, ?_⟩
    · change offset + c.utf8Size = _
      rw [byteLength_append, byteLength, byteLength, hoffset, Nat.add_zero]
    · change (if c = '\n' then line + 1 else line) = _
      by_cases hc : c = '\n' <;> simp [hc, hline, Nat.add_assoc]
    · change (if c = '\n' then 0 else column + 1) = _
      by_cases hc : c = '\n' <;> simp [hc, hcolumn]

theorem Reaches.standsIn {source : String} {s t : Cursor} (h : s.Reaches t)
    (hs : s.StandsIn source) : t.StandsIn source := by
  obtain ⟨n, rfl⟩ := h
  induction n generalizing s with
  | zero => exact hs
  | succ n ih => exact ih hs.advance

theorem StandsIn.withError {source : String} {s : Cursor} (e : SyntaxError)
    (h : s.StandsIn source) : (s.withError e).StandsIn source := by
  obtain ⟨before, hsource, hoffset, hline, hcolumn⟩ := h
  exact ⟨before, hsource, hoffset, hline, hcolumn⟩

/-- The line of a cursor is the line of its offset in the source. -/
theorem StandsIn.line_eq {source : String} {s : Cursor} (h : s.StandsIn source) :
    s.line = lineAt source.toList s.offset := by
  obtain ⟨before, hsource, hoffset, hline, -⟩ := h
  rw [hline, hoffset, hsource, lineAt_byteLength]

/-- The cursors that moving and recording errors can lead to from the beginning of a source. -/
inductive Reachable (source : String) : Cursor → Prop where
  | ofSource : Reachable source (ofSource source)
  | advance {s : Cursor} : Reachable source s → Reachable source s.advance
  | advanceBytes {s : Cursor} (bytes : Nat) :
    Reachable source s → Reachable source (s.advanceBytes bytes)
  | withError {s : Cursor} (e : SyntaxError) :
    Reachable source s → Reachable source (s.withError e)
  | synchronize {s : Cursor} : Reachable source s → Reachable source s.synchronize
  | closeStatement {s : Cursor} (start : Cursor) :
    Reachable source s → Reachable source (closeStatement start s)

/-- The invariant holds for every cursor that can be obtained, by induction on how it was. -/
theorem Reachable.standsIn {source : String} {s : Cursor} (h : s.Reachable source) :
    s.StandsIn source := by
  induction h with
  | ofSource => exact standsIn_ofSource source
  | advance _ ih => exact ih.advance
  | advanceBytes bytes _ ih => exact (reaches_forward _ _).standsIn ih
  | withError e _ ih => exact ih.withError e
  | synchronize _ ih => exact (reaches_synchronize _).standsIn ih
  | closeStatement start _ ih => exact (reaches_closeStatement start _).standsIn ih

theorem StandsIn.size_eq {source : String} {s : Cursor} (h : s.StandsIn source) :
    s.size = byteLength source.toList := by
  obtain ⟨before, hsource, hoffset, -, -⟩ := h
  rw [← s.fits, hoffset, hsource, byteLength_append]

theorem StandsIn.remaining_lt_iff {source : String} {s t : Cursor} (hs : s.StandsIn source)
    (ht : t.StandsIn source) : t.remaining < s.remaining ↔ s.offset < t.offset :=
  Cursor.remaining_lt_iff (ht.size_eq.trans hs.size_eq.symm)

/-- The text before and behind a cursor leaves only its errors open. -/
theorem StandsAfter.eq {before : List Char} {s t : Cursor} (hs : s.StandsAfter before)
    (ht : t.StandsAfter before) (hrest : s.rest = t.rest) (herrors : s.errors = t.errors) :
    s = t := by
  have hsize : s.size = t.size := by rw [← s.fits, ← t.fits, hs.offset, ht.offset, hrest]
  rcases s with ⟨⟨offset, line, column⟩, size, rest, errors, fits⟩
  rcases t with ⟨⟨offset', line', column'⟩, size', rest', errors', fits'⟩
  obtain rfl : offset = offset' := hs.offset.trans ht.offset.symm
  obtain rfl : line = line' := hs.line.trans ht.line.symm
  obtain rfl : column = column' := hs.column.trans ht.column.symm
  dsimp only at hsize hrest herrors
  subst hsize hrest herrors
  rfl

theorem Reachable.withErrors {source : String} {s : Cursor} (errors : List SyntaxError)
    (h : s.Reachable source) : Reachable source { s with errors := s.errors ++ errors } := by
  induction errors generalizing s with
  | nil => simpa using h
  | cons e errors ih => simpa [Cursor.withError] using ih (h.withError e)

/-- Moving is made of single steps, each of which is one of the ways to obtain a cursor. -/
theorem Reaches.reachable {source : String} {s t : Cursor} (h : s.Reaches t)
    (hs : s.Reachable source) : t.Reachable source := by
  obtain ⟨n, rfl⟩ := h
  induction n generalizing s with
  | zero => exact hs
  | succ n ih => exact ih hs.advance

/-- Every place in a source can be reached, with any errors. -/
theorem StandsIn.reachable {source : String} {s : Cursor} (h : s.StandsIn source) :
    s.Reachable source := by
  obtain ⟨before, hsource, hs⟩ := h
  have hreaches := reaches_forward before.length (ofSource source)
  have hrest : ((ofSource source).forward before.length).rest = s.rest := by
    rw [rest_forward]
    change source.toList.drop before.length = s.rest
    rw [hsource, List.drop_left]
  have herrors : ((ofSource source).forward before.length).errors = [] := hreaches.errors_eq
  obtain ⟨before', hsource', ht⟩ := hreaches.standsIn (standsIn_ofSource source)
  obtain rfl : before' = before := by
    rw [hrest, hsource] at hsource'
    exact (List.append_cancel_right hsource').symm
  have heq : s = { (ofSource source).forward before'.length with
      errors := ((ofSource source).forward before'.length).errors ++ s.errors } :=
    hs.eq ⟨ht.offset, ht.line, ht.column⟩ hrest.symm (by rw [herrors, List.nil_append])
  rw [heq]
  exact (hreaches.reachable .ofSource).withErrors s.errors

end Cursor

end Lispette
