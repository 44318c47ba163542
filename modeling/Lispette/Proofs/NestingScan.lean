import Lispette.Proofs.Lexeme

/-!
# Counting over pieces of text

A broken statement is left behind by two searches. Each of them counts parentheses anew, from
outside of string literals. Both together still find what a single count over the whole statement
finds: the first search begins outside of strings too, or else where the line ends before that could
matter, and it ends at a parenthesis that closes something, hence outside of strings.
-/

namespace Lispette

namespace Nesting

variable {n m : Nesting} {text more : List Char}

/-- The count goes on over a text. -/
def along (n : Nesting) (text : List Char) : Nesting := text.foldl step n

@[simp] theorem along_nil : n.along [] = n := rfl

@[simp] theorem along_cons (c : Char) : n.along (c :: text) = (n.step c).along text := rfl

@[simp] theorem along_append : n.along (text ++ more) = (n.along text).along more :=
  List.foldl_append

theorem ofText_eq (text : List Char) : ofText text = along {} text := rfl

/-- Outside of string literals. -/
def AtRest (n : Nesting) : Prop := n.inString = false ∧ n.escaped = false

/-- The two counts differ in nothing but their depth. -/
def Agrees (n m : Nesting) : Prop := n.inString = m.inString ∧ n.escaped = m.escaped

theorem AtRest.agrees (hn : n.AtRest) (hm : m.AtRest) : n.Agrees m :=
  ⟨hn.1.trans hm.1.symm, hn.2.trans hm.2.symm⟩

theorem Agrees.atRest (h : n.Agrees m) (hn : n.AtRest) : m.AtRest :=
  ⟨h.1.symm.trans hn.1, h.2.symm.trans hn.2⟩

theorem atRest_ofDepth (depth : Nat) : ({ depth } : Nesting).AtRest := ⟨rfl, rfl⟩

/-- Outside of strings, the depth is all there is to a count. -/
theorem AtRest.eq_ofDepth (h : n.AtRest) : n = { depth := n.depth } := by
  rcases n with ⟨depth, inString, escaped⟩
  obtain ⟨rfl, rfl⟩ := h
  rfl

/-! ## Single characters -/

theorem atRest_step_newline : (n.step '\n').AtRest := by
  simp [step, AtRest]

theorem AtRest.step {c : Char} (h : n.AtRest) (hc : c ≠ '"') : (n.step c).AtRest := by
  obtain ⟨hstring, hescaped⟩ := h
  unfold Nesting.step
  split_ifs <;> simp_all [AtRest]

theorem Agrees.step (h : n.Agrees m) (c : Char) : (n.step c).Agrees (m.step c) := by
  obtain ⟨hstring, hescaped⟩ := h
  unfold Nesting.step
  split_ifs <;> simp_all [Agrees]

theorem Agrees.along (h : n.Agrees m) (text : List Char) :
    (n.along text).Agrees (m.along text) := by
  induction text generalizing n m with
  | nil => exact h
  | cons c cs ih => exact ih (h.step c)

/-- Only a parenthesis outside of strings can close what is open. -/
theorem atRest_of_closing {c : Char} (hopen : n.depth ≠ 0) (hclosed : (n.step c).depth = 0) :
    (n.step c).AtRest := by
  unfold Nesting.step at hclosed ⊢
  split_ifs at hclosed ⊢ <;> simp_all [AtRest]

/-! ## Texts that end outside of strings -/

/-- Read from outside of strings, the text ends there. -/
def Settles (text : List Char) : Prop := ∀ n : Nesting, n.AtRest → (n.along text).AtRest

theorem Settles.append (htext : Settles text) (hmore : Settles more) : Settles (text ++ more) := by
  intro n hn
  rw [along_append]
  exact hmore _ (htext n hn)

theorem settles_of_no_quote (h : '"' ∉ text) : Settles text := by
  intro n hn
  induction text generalizing n with
  | nil => exact hn
  | cons c cs ih =>
    have hc : c ≠ '"' := fun hquote ↦ h (hquote ▸ List.mem_cons_self)
    exact ih (List.not_mem_of_not_mem_cons h) _ (hn.step hc)

/-- Inside of a string that goes on. -/
theorem along_stringBody {body : List Char} (h : IsStringBody body) (depth : Nat) :
    along { depth, inString := true } body = { depth, inString := true } := by
  induction h with
  | nil => rfl
  | plain hquote hbackslash hnewline _ ih =>
    simpa [step, hquote, hbackslash, hnewline] using ih
  | escape hnewline _ ih => simpa [step, hnewline] using ih

theorem settles_string {body : List Char} (h : IsStringBody body) :
    Settles ('"' :: (body ++ ['"'])) := by
  intro n hn
  have hopen : n.step '"' = { depth := n.depth, inString := true } := by
    rw [hn.eq_ofDepth]
    rfl
  rw [along_cons, hopen, along_append, along_stringBody h]
  exact ⟨rfl, rfl⟩

/-- Layout ends outside of strings, whatever its comments hold, unless the source ends with it. -/
theorem settles_layout (inComment : Bool) (text : List Char) :
    text.drop (Text.layoutWidth inComment text) = [] ∨
      ∀ n : Nesting, (inComment = false → n.AtRest) →
        (n.along (text.take (Text.layoutWidth inComment text))).AtRest := by
  fun_induction Text.layoutWidth inComment text with
  | case1 => exact .inl rfl
  | case2 inComment cs ih =>
    refine ih.imp (by simp [Nat.add_comm 1]) fun hcs n _ ↦ ?_
    rw [Nat.add_comm, List.take_succ_cons, along_cons]
    exact hcs _ fun _ ↦ atRest_step_newline
  | case3 inComment c cs _ _ ih =>
    refine ih.imp (by simp [Nat.add_comm 1]) fun hcs n _ ↦ ?_
    rw [Nat.add_comm, List.take_succ_cons, along_cons]
    exact hcs _ (by simp)
  | case4 inComment c cs _ hcomment hspace ih =>
    have hquote : c ≠ '"' := by
      rintro rfl
      exact absurd hspace (by decide)
    have hcode : inComment = false := by simp_all
    refine ih.imp (by simp [Nat.add_comm 1]) fun hcs n hn ↦ ?_
    rw [Nat.add_comm, List.take_succ_cons, along_cons]
    exact hcs _ fun _ ↦ (hn hcode).step hquote
  | case5 inComment c cs _ hcomment _ =>
    have hcode : inComment = false := by simp_all
    exact .inr fun n hn ↦ by simpa using hn hcode

end Nesting

/-! ## Lines that end -/

namespace Text

/-- Nothing is left of the line, or a backslash alone. -/
inductive EndsLine : List Char → Prop where
  | atEnd : EndsLine []
  | backslash : EndsLine ['\\']
  | newline (more : List Char) : EndsLine ('\n' :: more)
  | backslashNewline (more : List Char) : EndsLine ('\\' :: '\n' :: more)

/-- What goes on after the inside of a string is its closing quote, or the line ends. -/
theorem endsLine_drop_stringWidth (rest : List Char) :
    (rest.drop (stringWidth rest)).head? = some '"' ∨ EndsLine (rest.drop (stringWidth rest)) := by
  fun_induction stringWidth rest with
  | case1 => exact .inr .atEnd
  | case2 c h =>
    simp only [Bool.or_eq_true, decide_eq_true_eq] at h
    rcases h with (rfl | rfl) | rfl
    · exact .inl rfl
    · exact .inr (.newline [])
    · exact .inr .backslash
  | case3 c h => exact .inr .atEnd
  | case4 c d cs h =>
    simp only [Bool.or_eq_true, decide_eq_true_eq] at h
    rcases h with rfl | rfl
    · exact .inl rfl
    · exact .inr (.newline _)
  | case5 cs h => exact .inr (.backslashNewline cs)
  | case6 d cs hd h ih => simpa [Nat.add_comm 2] using ih
  | case7 c d cs h hc ih => simpa [Nat.add_comm 1] using ih

end Text

/-! ## Where a search stops -/

namespace Cursor

open Nesting

variable {s t u : Cursor}

/-- An opening parenthesis in the first column. -/
def OpensForm (s : Cursor) : Prop := s.peek? = some '(' ∧ s.column = 0

instance (s : Cursor) : Decidable s.OpensForm := inferInstanceAs (Decidable (_ ∧ _))

theorem column_advance {c : Char} {cs : List Char} (h : s.rest = c :: cs) :
    s.advance.column = if c = '\n' then 0 else s.column + 1 := by
  rcases s with ⟨⟨offset, line, column⟩, size, rest, errors, fits⟩
  subst h
  rfl

/-- After a step, the first column is where a newline was passed. -/
theorem column_advance_eq_zero {c : Char} {cs : List Char} (h : s.rest = c :: cs) :
    s.advance.column = 0 ↔ c = '\n' := by
  rw [column_advance h]
  split <;> simp_all

@[simp] theorem passed_forward (s : Cursor) (n : Nat) : passed s (s.forward n) = s.rest.take n := by
  rw [passed, rest_forward, List.length_drop]
  rcases Nat.le_total n s.rest.length with hle | hle
  · rw [Nat.sub_sub_self hle]
  · rw [Nat.sub_eq_zero_of_le hle, Nat.sub_zero, List.take_length, List.take_of_length_le hle]

theorem Reaches.passed_append (hst : s.Reaches t) (htu : t.Reaches u) :
    passed s u = passed s t ++ passed t u := by
  obtain ⟨m, rfl⟩ := hst
  obtain ⟨n, rfl⟩ := htu
  rw [passed_forward (s.forward m), ← forward_add, passed_forward, passed_forward, rest_forward,
    List.take_add]

/-- A search that finds everything closed has come to rest, unless it was stopped before. -/
theorem stops_closingWidth {fresh : Bool} {n : Nesting} (hfresh : fresh = true → s.column = 0)
    (hn : n.depth = 0 → n.AtRest) (ht : t = s.forward (closingWidth fresh n s.rest)) :
    t.atEnd = true ∨ t.OpensForm ∨
      (n.along (passed s t)).depth = 0 ∧ (n.along (passed s t)).AtRest := by
  subst ht
  rw [passed_forward]
  induction hrest : s.rest generalizing s fresh n with
  | nil => exact .inl (by simp [atEnd, hrest])
  | cons c cs ih =>
    rw [closingWidth]
    split_ifs with hstop
    · simp only [Bool.or_eq_true, Bool.and_eq_true, decide_eq_true_eq] at hstop
      rcases hstop with hzero | ⟨hcolumn, rfl⟩
      · exact .inr (.inr ⟨hzero, hn hzero⟩)
      · exact .inr (.inl ⟨by simp [peek?, forward, hrest], hfresh hcolumn⟩)
    · have hopen : n.depth ≠ 0 := fun hzero ↦ hstop (by simp [hzero])
      have hcs : s.advance.rest = cs := by simp [hrest]
      rw [Nat.add_comm, List.take_succ_cons, along_cons, forward]
      refine ih (fun hc ↦ ?_) (atRest_of_closing hopen) hcs
      exact (column_advance_eq_zero hrest).2 (of_decide_eq_true hc)

/-- A search does not pass what opens a form in the first column, but where it starts it may. -/
theorem not_opensForm_of_lt {fresh : Bool} {n : Nesting} {i : Nat}
    (hi : i < closingWidth fresh n s.rest) (hstart : 0 < i ∨ fresh = decide (s.column = 0)) :
    ¬ (s.forward i).OpensForm := by
  induction i generalizing s fresh n with
  | zero =>
    rintro ⟨hpeek, hcolumn⟩
    obtain ⟨cs, hrest⟩ := List.head?_eq_some_iff.1 hpeek
    obtain hlt | rfl := hstart
    · omega
    · rw [show s.rest = '(' :: cs from hrest, closingWidth] at hi
      simp [show s.column = 0 from hcolumn] at hi
  | succ i ih =>
    cases hrest : s.rest with
    | nil => simp [hrest, closingWidth] at hi
    | cons c cs =>
      rw [hrest, closingWidth] at hi
      split_ifs at hi with hstop
      · omega
      · have hcs : s.advance.rest = cs := by simp [hrest]
        have hnext : i < closingWidth (c = '\n') (n.step c) s.advance.rest := by
          rw [hcs]
          omega
        exact ih hnext (.inr (by simp only [column_advance_eq_zero hrest]))

/-! ## One count over a statement -/

/-- Where the line ends, what was counted before does not matter to the search that starts there. -/
theorem agrees_of_endsLine (h : Text.EndsLine s.rest) :
    s.synchronize.atEnd = true ∨
      ∀ n : Nesting, (along { depth := 1 } (passed s s.synchronize)).Agrees
        (n.along (passed s s.synchronize)) := by
  rw [synchronize, passed_forward]
  generalize hrest : s.rest = rest at h
  cases h with
  | atEnd => exact .inl (by simp [atEnd, hrest])
  | backslash => exact .inl (by simp [atEnd, hrest, closingWidth])
  | newline more =>
    refine .inr fun n ↦ ?_
    rw [closingWidth, if_neg (by decide), Nat.add_comm, List.take_succ_cons, along_cons, along_cons]
    exact (atRest_step_newline.agrees atRest_step_newline).along _
  | backslashNewline more =>
    refine .inr fun n ↦ ?_
    rw [closingWidth, if_neg (by decide), closingWidth, if_neg (by decide), Nat.add_comm,
      List.take_succ_cons, Nat.add_comm, List.take_succ_cons]
    exact (atRest_step_newline.agrees atRest_step_newline).along _

/-- Reading got from `s` to `d` and broke there: outside of strings, or where the line ends. -/
def Breaks (s d : Cursor) : Prop :=
  s.Reaches d ∧ (Settles (passed s d) ∨ Text.EndsLine d.rest)

/-- However the parts were searched, a single count over the whole statement finds it closed. -/
theorem closed_of_breaks {d : Cursor} (h : s.Breaks d)
    (ht : t = closeStatement s d.synchronize) :
    t.atEnd = true ∨ t.OpensForm ∨ (ofText (passed s t)).depth = 0 := by
  obtain ⟨hsd, hbreak⟩ := h
  have hsync := d.reaches_synchronize
  have hclose : d.synchronize.Reaches t := ht ▸ reaches_closeStatement s d.synchronize
  have hpassed : ofText (passed s d.synchronize) =
      (ofText (passed s d)).along (passed d d.synchronize) := by
    rw [hsd.passed_append hsync, ofText_eq, ofText_eq, along_append]
  have hfound : d.synchronize = d.forward (closingWidth false { depth := 1 } d.rest) := rfl
  rcases stops_closingWidth (by simp) (fun _ ↦ atRest_ofDepth 1) hfound with
    hend | hopens | ⟨-, hrest⟩
  · exact .inl (hclose.atEnd hend)
  · -- The second search stops where it starts.
    have hstay : t = d.synchronize := by
      obtain ⟨hpeek, hcolumn⟩ := hopens
      obtain ⟨cs, hcs⟩ := List.head?_eq_some_iff.1 hpeek
      have hrest : d.synchronize.rest = '(' :: cs := hcs
      have hfirst : d.synchronize.column = 0 := hcolumn
      rw [ht, closeStatement]
      simp [hrest, hfirst, closingWidth, forward]
    exact .inr (.inl (hstay ▸ hopens))
  · have hsettled : d.synchronize.atEnd = true ∨ (ofText (passed s d.synchronize)).AtRest := by
      rw [hpassed]
      rcases hbreak with hsettles | hline
      · have hd := hsettles {} ⟨rfl, rfl⟩
        exact .inr ((((atRest_ofDepth 1).agrees hd).along _).atRest hrest)
      · exact (agrees_of_endsLine hline).imp_right fun hagrees ↦ (hagrees _).atRest hrest
    rcases hsettled with hend | hsettled
    · exact .inl (hclose.atEnd hend)
    · have hwhole : ofText (passed s t) =
          along { depth := (ofText (passed s d.synchronize)).depth } (passed d.synchronize t) := by
        rw [← hsettled.eq_ofDepth, (hsd.trans hsync).passed_append hclose, ofText_eq, ofText_eq,
          along_append]
      rw [hwhole]
      rcases stops_closingWidth (fun h ↦ of_decide_eq_true h) (fun _ ↦ atRest_ofDepth _) ht with
        hend | hopens | ⟨hclosed, -⟩
      · exact .inl hend
      · exact .inr (.inl hopens)
      · exact .inr (.inr hclosed)

end Cursor

end Lispette
