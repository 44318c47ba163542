import Lispette.Proofs.Faults
import Lispette.Proofs.Kind
import Lispette.Proofs.OutlineTree

/-!
# The line of an expression

Each expression has one line of its own in an outline. The line names the kind and shows the texts
that the expression holds itself: a number, a name, parameters, the inside of a string, an error.
Nothing is escaped or quoted, and still a line tells all of them, since names hold neither blanks
nor brackets, a string is all that stands between the outer quotes, and the places of an error are
read from its end.
-/

namespace Lispette

/-! ## Operators and names -/

theorem UnaryOperator.symbol_inj {op op' : UnaryOperator}
    (h : String.singleton op.symbol = String.singleton op'.symbol) : op = op' := by
  have hall : ∀ a ∈ all, ∀ b ∈ all, String.singleton a.symbol = String.singleton b.symbol →
      a = b := by
    decide
  exact hall op op.mem_all op' op'.mem_all h

/-- Separators are not characters of names, and so do not occur in them. -/
theorem not_mem_of_isName {c : Char} (hc : Text.isNameChar c = false) {name : String}
    (h : isName name = true) : c ∉ name.toList := by
  intro hmem
  rw [isNameChar_of_isName h c hmem] at hc
  cases hc

theorem not_mem_parameters {c : Char} (hc : Text.isNameChar c = false) (hblank : c ≠ ' ')
    {parameters : List String} (h : ∀ name ∈ parameters, isName name = true) :
    c ∉ [' '].intercalate (parameters.map String.toList) :=
  Text.not_mem_intercalate (by simpa using hblank) (List.forall_mem_map.2 fun name hname ↦
    not_mem_of_isName hc (h name hname))

/-- A list of names can be read off the line that joins them by spaces. -/
theorem parameters_inj {parameters parameters' : List String}
    (h : ∀ name ∈ parameters, isName name = true) (h' : ∀ name ∈ parameters', isName name = true)
    (heq : " ".intercalate parameters = " ".intercalate parameters') :
    parameters = parameters' := by
  have hpieces {parameters : List String} (h : ∀ name ∈ parameters, isName name = true) :
      ∀ x ∈ parameters.map String.toList, ' ' ∉ x ∧ x ≠ [] := by
    refine List.forall_mem_map.2 fun name hname ↦ ⟨not_mem_of_isName (by decide) (h name hname), ?_⟩
    obtain ⟨c, cs, hword, -⟩ := isName_cases (h name hname)
    simp [hword]
  have heq := congrArg String.toList heq
  rw [String.toList_intercalate, String.toList_intercalate] at heq
  exact Expr.eq_of_map_eq (fun _ _ _ _ ↦ String.toList_inj.1)
    (Text.intercalate_inj (hpieces h) (hpieces h') heq)

/-! ## Errors -/

namespace SyntaxError

/-- The text of an error with its three numbers apart, as it is taken to pieces below. -/
theorem toList_text (e : SyntaxError) :
    e.text.toList =
      e.message.toList ++ " at line ".toList ++ Nat.toDigits 10 e.line ++ " (".toList ++
        Nat.toDigits 10 e.start ++ "..".toList ++ Nat.toDigits 10 e.stop ++ ")".toList := by
  simp [text]

/-- The places are read from the end, so the message may hold anything. -/
theorem text_inj {e e' : SyntaxError} (h : e.text = e'.text) : e = e' := by
  have h := congrArg String.toList h
  rw [toList_text, toList_text] at h
  have htext := List.append_cancel_right h
  obtain ⟨htext, hstop⟩ := Text.numbered_inj (c := '.') rfl (by decide) htext
  obtain ⟨htext, hstart⟩ := Text.numbered_inj (c := '(') rfl (by decide) htext
  obtain ⟨htext, hline⟩ := Text.numbered_inj (c := ' ') rfl (by decide) htext
  calc
    e = ⟨e.message, e.line, e.start, e.stop⟩ := rfl
    _ = e' := by rw [String.toList_inj.1 htext, hline, hstart, hstop]

theorem NamesFault.newline_not_mem_text {e : SyntaxError} (h : e.NamesFault) :
    '\n' ∉ e.text.toList := by
  obtain ⟨fault, hmessage⟩ := h
  have hdigits (n : Nat) : '\n' ∉ Nat.toDigits 10 n := fun hmem ↦
    absurd (Decimal.isDigit_of_mem_toDigits _ hmem) (by decide)
  rw [toList_text, hmessage]
  simp [fault.newline_not_mem_message, hdigits]

end SyntaxError

/-! ## Expressions -/

/-- The name of a kind ends at a blank or with the line. -/
theorem Kind.name_append_inj {k k' : Kind} {more more' : List Char}
    (hmore : ∀ c ∈ more.head?, c = ' ') (hmore' : ∀ c ∈ more'.head?, c = ' ')
    (h : k.name.toList ++ more = k'.name.toList ++ more') : k = k' ∧ more = more' := by
  have hword (k : Kind) : ∀ c ∈ k.name.toList, decide (c ≠ ' ') = true := by
    cases k <;> simp [name]
  have hblank {more : List Char} (hmore : ∀ c ∈ more.head?, c = ' ') :
      ∀ c ∈ more.head?, decide (c ≠ ' ') = false := by
    intro c hc
    simp [hmore c hc]
  obtain ⟨hname, hmore⟩ := Text.append_inj_of_span (hword k) (hword k') (hblank hmore)
    (hblank hmore') h
  exact ⟨name_inj (String.toList_inj.1 hname), hmore⟩

theorem IsStringBody.newline_not_mem {text : List Char} (h : IsStringBody text) : '\n' ∉ text := by
  induction h with
  | nil => simp
  | plain _ _ hc _ ih => simp [Ne.symm hc, ih]
  | escape hc _ ih => simp [Ne.symm hc, ih]

namespace Expr

def functionLine (name : String) (parameters : List String) : String :=
  "FunctionDecl " ++ name ++ "(" ++ " ".intercalate parameters ++ ")"

def closureLine (parameters : List String) : String :=
  "Function |" ++ " ".intercalate parameters ++ "|"

/-- The text on the line of an expression. -/
def headline : Expr → String
  | number value => "Number " ++ value.display
  | string text => "String \"" ++ text ++ "\""
  | boolean value => "Boolean " ++ if value then "true" else "false"
  | nil => "Nil"
  | identifier name => "Identifier " ++ name
  | array _ => "Array"
  | unary op _ => "UnaryOp " ++ String.singleton op.symbol
  | binary op _ _ => "BinaryOp " ++ op.symbol
  | call .. => "Call"
  | chain .. => "MethodCallChain"
  | member .. => "Member"
  | constant name _ => "VariableDecl " ++ name
  | function name parameters _ => functionLine name parameters
  | print _ => "Print"
  | block _ => "Block"
  | closure parameters _ => closureLine parameters
  | cond .. => "Cond"
  | error e => "ParseError " ++ e.text

/-- The texts that the expression itself holds are such as are read from sources. -/
def HasSourceTexts : Expr → Prop
  | number value => ∃ code, value = .finite false code
  | string text => IsStringBody text.toList
  | identifier name => isName name = true
  | constant name _ => isName name = true
  | function name parameters _ => isName name = true ∧ ∀ name ∈ parameters, isName name = true
  | closure parameters _ => ∀ name ∈ parameters, isName name = true
  | error e => e.NamesFault
  | _ => True

variable {e e' : Expr}

/-- Where everything was read from a source, the texts in it are of the shapes that a source can
have. -/
theorem WellShaped.hasSourceTexts {place : Place} (h : e.WellShaped place) :
    e.HasSourceTexts := by
  induction h with
  | number code => exact ⟨code, rfl⟩
  | string htext => exact htext
  | identifier hname _ _ => exact hname
  | closure hparameters _ _ => exact hparameters
  | constant hname _ _ => exact hname
  | function hname hparameters _ _ => exact ⟨hname, hparameters⟩
  | ofPrimary _ ih | ofMember _ ih | ofExpression _ ih => exact ih
  | _ => trivial

theorem newline_not_mem_headline (h : e.HasSourceTexts) : '\n' ∉ e.headline.toList := by
  have hnewline : Text.isNameChar '\n' = false := by decide
  cases e with
  | number value =>
    obtain ⟨code, rfl⟩ := h
    have hdisplay : '\n' ∉ (Binary64.finite false code).display.toList := fun hmem ↦
      absurd (Binary64.isDigit_or_point_of_mem_display code _ hmem) (by decide)
    simp [headline, hdisplay]
  | string text => simp [headline, h.newline_not_mem]
  | boolean value => cases value <;> simp [headline]
  | identifier name => simp [headline, not_mem_of_isName hnewline h]
  | unary op operand => cases op <;> simp [headline, UnaryOperator.symbol]
  | binary op left right => cases op <;> simp [headline, BinaryOperator.symbol]
  | constant name value => simp [headline, not_mem_of_isName hnewline h]
  | function name parameters body =>
    rw [headline]
    unfold functionLine
    simp [not_mem_of_isName hnewline h.1, not_mem_parameters hnewline (by decide) h.2]
  | closure parameters body =>
    rw [headline]
    unfold closureLine
    simp [not_mem_parameters hnewline (by decide) h]
  | error e => simp [headline, h.newline_not_mem_text]
  | nil | array | call | chain | member | print | block | cond => simp [headline]

/-- The name of the kind ends where the line does or at a blank. -/
theorem headline_eq (e : Expr) : ∃ more, e.headline.toList = e.kind.name.toList ++ more ∧
    ∀ c ∈ more.head?, c = ' ' := by
  cases e with
  | function name parameters body =>
    rw [headline]
    unfold functionLine
    simp [kind, Kind.name]
  | closure parameters body =>
    rw [headline]
    unfold closureLine
    simp [kind, Kind.name]
  | _ => simp [headline, kind, Kind.name]

/-- A headline fits on one line and does not begin with a space. -/
theorem isLineText_headline (h : e.HasSourceTexts) : IsLineText e.headline := by
  refine ⟨newline_not_mem_headline h, ?_⟩
  obtain ⟨more, hheadline, -⟩ := e.headline_eq
  rw [hheadline]
  cases e.kind <;> simp [Kind.name]

/-- The first word tells the kind. -/
theorem kind_eq_of_headline (h : e.headline = e'.headline) : e.kind = e'.kind := by
  obtain ⟨more, hheadline, hmore⟩ := e.headline_eq
  obtain ⟨more', hheadline', hmore'⟩ := e'.headline_eq
  rw [h, hheadline'] at hheadline
  exact (Kind.name_append_inj hmore' hmore hheadline).1.symm

/-- The parenthesis ends the name, since no name has one, and the parameters stand inside of it. -/
theorem functionLine_inj {name name' : String} {parameters parameters' : List String}
    (hname : isName name = true) (hname' : isName name' = true)
    (hparameters : ∀ name ∈ parameters, isName name = true)
    (hparameters' : ∀ name ∈ parameters', isName name = true)
    (h : functionLine name parameters = functionLine name' parameters') :
    name = name' ∧ parameters = parameters' := by
  have hopening : Text.isNameChar '(' = false := by decide
  unfold functionLine at h
  have htext := congrArg String.toList h
  simp only [String.toList_append] at htext
  have hsignature := List.append_cancel_right htext
  simp only [List.append_assoc] at hsignature
  obtain ⟨hnames, hlists⟩ := Text.append_cons_inj (not_mem_of_isName hopening hname)
    (not_mem_of_isName hopening hname') (List.append_cancel_left hsignature)
  exact ⟨String.toList_inj.1 hnames,
    parameters_inj hparameters hparameters' (String.toList_inj.1 hlists)⟩

theorem closureLine_inj {parameters parameters' : List String}
    (hparameters : ∀ name ∈ parameters, isName name = true)
    (hparameters' : ∀ name ∈ parameters', isName name = true)
    (h : closureLine parameters = closureLine parameters') : parameters = parameters' := by
  unfold closureLine at h
  have htext := congrArg String.toList h
  simp only [String.toList_append] at htext
  have hlists := List.append_cancel_left (List.append_cancel_right htext)
  exact parameters_inj hparameters hparameters' (String.toList_inj.1 hlists)

end Expr

end Lispette
