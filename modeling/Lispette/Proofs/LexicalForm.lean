import Lispette.Proofs.SuffixBinding
import Lispette.Proofs.Vocabulary

/-!
# The lexical form of generated code

Generated code is put together from texts. What comes out is still in form: string literals end on
their line, brackets match, and no two characters meet that would be read as another operator or as
a comment. Each text leaves brackets and literals as it finds them, and does not end in a character
that could be joined with the next. A minus sign is the one exception, and it is put only before
texts that do not begin with another.
-/

namespace Lispette

namespace JavaScript

/-! ## Scanning code -/

/-- Two characters that must not meet outside of string literals. -/
def joins (last c : Char) : Bool :=
  (last = '-' && c = '-') || (last = '+' && c = '+') || (last = '/' && (c = '/' || c = '*'))

/-- The bracket that the given one closes. -/
def opening? : Char → Option Char
  | ')' => some '('
  | ']' => some '['
  | '\x7d' => some '\x7b'
  | _ => none

def isOpening (c : Char) : Bool := c = '(' || c = '[' || c = '\x7b'

/-- Outside of string literals, after the given character; in a literal; after a backslash there. -/
inductive Mode where
  | code (last : Char)
  | string
  | escape
deriving DecidableEq, Repr

/-- The brackets that are open, the last one first. -/
structure Scan where
  opened : List Char
  mode : Mode
deriving DecidableEq, Repr

namespace Scan

/-- Stops at a newline in a string literal, at a bracket that does not close the last one opened,
and at two characters that must not meet. -/
def step (s : Scan) (c : Char) : Option Scan :=
  match s.mode with
  | .escape => if c = '\n' then none else some { s with mode := .string }
  | .string =>
    if c = '\n' then none
    else if c = '"' then some { s with mode := .code c }
    else if c = '\\' then some { s with mode := .escape }
    else some s
  | .code last =>
    if joins last c then none
    else if c = '"' then some { s with mode := .string }
    else if isOpening c then some ⟨c :: s.opened, .code c⟩
    else match opening? c with
      | some opening =>
        if s.opened.head? = some opening then some ⟨s.opened.tail, .code c⟩ else none
      | none => some { s with mode := .code c }

def run (s : Scan) (text : List Char) : Option Scan := text.foldlM step s

/-- A text begins as if a space were before it. -/
def start : Scan := ⟨[], .code ' '⟩

end Scan

/-- The scan comes to the end of the text, where all brackets and all string literals are closed. -/
def isWellFormed (text : String) : Bool :=
  match Scan.start.run text.toList with
  | some ⟨[], .code _⟩ => true
  | _ => false

example : ["(]", "f(", "\"a\nb\"", "\"a", "--x", "x//y"].any isWellFormed = false := by
  decide +kernel

/-! ## Steps and runs -/

namespace Scan

variable {s t : Scan} {opened more : List Char} {last c : Char} {mode : Mode}

@[simp] theorem run_cons (cs : List Char) : s.run (c :: cs) = (s.step c).bind (·.run cs) := rfl

@[simp] theorem run_append (a b : List Char) : s.run (a ++ b) = (s.run a).bind (·.run b) :=
  List.foldlM_append

/-- Brackets that were open before stay open. -/
theorem step_frame (h : step ⟨opened, mode⟩ c = some t) :
    step ⟨opened ++ more, mode⟩ c = some ⟨t.opened ++ more, t.mode⟩ := by
  cases mode with
  | escape | string =>
    unfold step at h ⊢
    dsimp only at h ⊢
    split_ifs at h ⊢ <;> cases h <;> rfl
  | code last =>
    unfold step at h ⊢
    dsimp only at h ⊢
    split_ifs at h ⊢ with hjoins hquote hopening
    · cases h
      rfl
    · cases h
      rfl
    · cases hc : opening? c with
      | none =>
        rw [hc] at h
        cases h
        rfl
      | some opening =>
        rw [hc] at h
        dsimp only at h ⊢
        split_ifs at h with hhead
        obtain ⟨rest, rfl⟩ := List.head?_eq_some_iff.1 hhead
        cases h
        simp

/-- Over a whole text as over a single character. -/
theorem run_frame {text : List Char} (h : run ⟨opened, mode⟩ text = some t) :
    run ⟨opened ++ more, mode⟩ text = some ⟨t.opened ++ more, t.mode⟩ := by
  induction text generalizing opened mode with
  | nil =>
    cases h
    rfl
  | cons c cs ih =>
    rw [run_cons] at h ⊢
    obtain ⟨u, hstep, hrun⟩ := Option.bind_eq_some_iff.1 h
    rw [step_frame hstep]
    exact ih hrun

/-- Of the character before a text, it matters only whether the text may follow it. -/
theorem run_code_congr {last' : Char} {text : List Char} (hne : text ≠ [])
    (h : ∀ c ∈ text.head?, joins last c = joins last' c) :
    run ⟨opened, .code last⟩ text = run ⟨opened, .code last'⟩ text := by
  cases text with
  | nil => exact absurd rfl hne
  | cons c cs =>
    have hjoins := h c rfl
    simp only [run_cons, step, hjoins]

end Scan

/-! ## Texts that leave the scan in order -/

/-- Nothing is joined with the character. -/
def isCalm (last : Char) : Bool := last ≠ '-' && last ≠ '+' && last ≠ '/'

/-- Any character may follow a calm one. -/
theorem joins_of_isCalm {last : Char} (h : isCalm last = true) (c : Char) :
    joins last c = false := by
  simp only [isCalm, Bool.and_eq_true, decide_eq_true_eq] at h
  simp [joins, h]

/-- Read outside of string literals where the first brackets are open, the text leads there again,
with the second brackets open, and nothing is joined with its end. -/
def Leads (text : String) (opened closed : List Char) : Prop :=
  ((Scan.run ⟨opened, .code ' '⟩ text.toList).any fun s ↦
    s.opened = closed && match s.mode with
      | .code last => isCalm last
      | _ => false) = true

instance (text : String) (opened closed : List Char) : Decidable (Leads text opened closed) :=
  inferInstanceAs (Decidable (_ = true))

/-- The text leaves brackets as it finds them. -/
abbrev Balanced (text : String) : Prop := Leads text [] []

variable {text more : String} {opened middle closed : List Char}

/-- The same with the last character named. -/
theorem leads_iff : Leads text opened closed ↔
    ∃ last, Scan.run ⟨opened, .code ' '⟩ text.toList = some ⟨closed, .code last⟩ ∧
      isCalm last = true := by
  rw [Leads, Option.any_eq_true]
  constructor
  · rintro ⟨⟨found, mode⟩, hrun, h⟩
    simp only [Bool.and_eq_true, decide_eq_true_eq] at h
    obtain ⟨rfl, hmode⟩ := h
    cases mode with
    | code last => exact ⟨last, hrun, hmode⟩
    | string | escape => cases hmode
  · rintro ⟨last, hrun, hcalm⟩
    exact ⟨_, hrun, by simpa using hcalm⟩

namespace Leads

/-- A text that leads from some open brackets to others does so inside of any that were opened
before. -/
theorem frame (h : Leads text opened closed) (outer : List Char) :
    Leads text (opened ++ outer) (closed ++ outer) := by
  obtain ⟨last, hrun, hcalm⟩ := leads_iff.1 h
  exact leads_iff.2 ⟨last, Scan.run_frame hrun, hcalm⟩

/-- The last character of the first text is calm, so it does not matter with which the second
begins. -/
theorem append (h : Leads text opened middle) (hmore : Leads more middle closed) :
    Leads (text ++ more) opened closed := by
  obtain ⟨last, hrun, hcalm⟩ := leads_iff.1 h
  obtain ⟨last', hrun', hcalm'⟩ := leads_iff.1 hmore
  rw [leads_iff, String.toList_append, Scan.run_append, hrun, Option.bind_some]
  by_cases hne : more.toList = []
  · rw [hne] at hrun' ⊢
    cases hrun'
    exact ⟨last, rfl, hcalm⟩
  · have hspace : isCalm ' ' = true := by decide
    have hjoins : ∀ c ∈ more.toList.head?, joins last c = joins ' ' c :=
      fun c _ ↦ (joins_of_isCalm hcalm c).trans (joins_of_isCalm hspace c).symm
    rw [Scan.run_code_congr hne hjoins]
    exact ⟨last', hrun', hcalm'⟩

/-- A text that leaves brackets as it finds them may come at any place. -/
theorem keep (h : Leads text opened closed) (hmore : Balanced more) :
    Leads (text ++ more) opened closed := h.append (hmore.frame closed)

end Leads

/-! ## Words, numbers and strings -/

/-- The character neither begins nor ends anything. -/
def isInert (c : Char) : Bool :=
  c ∉ ['"', '(', '[', '\x7b', ')', ']', '\x7d', '-', '+', '/']

/-- An inert character neither opens nor closes anything, and is calm itself. -/
theorem step_of_isInert {last c : Char} (hlast : isCalm last = true) (hc : isInert c = true) :
    Scan.step ⟨opened, .code last⟩ c = some ⟨opened, .code c⟩ ∧ isCalm c = true := by
  simp only [isInert, List.mem_cons, List.not_mem_nil, or_false, not_or, decide_eq_true_eq] at hc
  have hclosing : opening? c = none := by
    unfold opening?
    split <;> simp_all
  simp [Scan.step, joins_of_isCalm hlast, isOpening, isCalm, hc, hclosing]

/-- A text without brackets, quotes and signs leaves the scan as it was. -/
theorem balanced_of_isInert (h : ∀ c ∈ text.toList, isInert c = true) : Balanced text := by
  have hrun : ∀ (cs : List Char) (last : Char), (∀ c ∈ cs, isInert c = true) →
      isCalm last = true → ∃ last', Scan.run ⟨[], .code last⟩ cs = some ⟨[], .code last'⟩ ∧
        isCalm last' = true := by
    intro cs
    induction cs with
    | nil => exact fun last _ hlast ↦ ⟨last, rfl, hlast⟩
    | cons c cs ih =>
      intro last hcs hlast
      obtain ⟨hc, hcs⟩ := List.forall_mem_cons.1 hcs
      obtain ⟨hstep, hcalm⟩ := step_of_isInert hlast hc
      rw [Scan.run_cons, hstep]
      exact ih c hcs hcalm
  exact leads_iff.2 (hrun _ ' ' h (by decide))

theorem isInert_of_isNameChar {c : Char} (h : Text.isNameChar c = true) : isInert c = true := by
  have hactive : ∀ d ∈ ['"', '(', '[', '\x7b', ')', ']', '\x7d', '-', '+', '/'],
      Text.isNameChar d = false := List.all_iff_forall_prop.1 (by decide)
  refine decide_eq_true fun hc ↦ ?_
  rw [hactive c hc] at h
  cases h

theorem balanced_name {name : String} (h : isName name = true) : Balanced name :=
  balanced_of_isInert fun c hc ↦ isInert_of_isNameChar (isNameChar_of_isName h c hc)

theorem balanced_indent (depth : Nat) : Balanced (indent depth) := by
  refine balanced_of_isInert fun c hc ↦ ?_
  rw [indent, String.toList_ofList] at hc
  rw [List.eq_of_mem_replicate hc]
  decide

theorem balanced_number (code : Fin Binary64.finiteCodes) :
    Balanced (Binary64.finite false code).display := by
  refine balanced_of_isInert fun c hc ↦ ?_
  rcases Binary64.isDigit_or_point_of_mem_display code c hc with hc | rfl
  · exact isInert_of_isNameChar (Text.isNameChar_of_isDigit hc)
  · decide

/-- Inside of a literal, escapes are passed in pairs, and no quote or newline is met. -/
theorem run_stringBody {body : List Char} (h : IsStringBody body) :
    Scan.run ⟨opened, .string⟩ body = some ⟨opened, .string⟩ := by
  induction h with
  | nil => rfl
  | plain hquote hbackslash hnewline _ ih =>
    simpa [Scan.step, hquote, hbackslash, hnewline] using ih
  | escape hnewline _ ih => simpa [Scan.step, hnewline] using ih

/-- A literal is opened and closed; its second quote is calm. -/
theorem balanced_string (h : IsStringBody text.toList) : Balanced ("\"" ++ text ++ "\"") := by
  rw [Balanced, leads_iff, String.toList_append, String.toList_append, Scan.run_append,
    Scan.run_append]
  change ∃ last, ((Scan.run ⟨[], .string⟩ text.toList).bind fun s ↦ s.run ['"']) = _ ∧ _
  rw [run_stringBody h]
  exact ⟨'"', rfl, rfl⟩

/-! ## Texts in brackets and in rows -/

theorem leads_open : Leads "(" [] ['('] := by decide

theorem balanced_comma : Balanced ", " := by decide

theorem balanced_newline : Balanced "\n" := by decide

theorem balanced_parenthesized {code : Code} (h : Balanced code.text) :
    Balanced code.parenthesized.text := by
  simp only [Code.parenthesized, Code.text_append]
  exact (leads_open.keep h).append (by decide)

/-- Balanced texts with balanced separators between them. -/
theorem balanced_join {separator : String} (hseparator : Balanced separator) {pieces : List Code}
    (h : ∀ piece ∈ pieces, Balanced piece.text) : Balanced (Code.join separator pieces).text := by
  fun_induction Code.join separator pieces with
  | case1 => decide
  | case2 piece => exact h piece (by simp)
  | case3 piece pieces _ ih =>
    obtain ⟨hpiece, hpieces⟩ := List.forall_mem_cons.1 h
    simp only [Code.text_append]
    exact (hpiece.append hseparator).append (ih hpieces)

theorem balanced_intercalate {names : List String} (h : ∀ name ∈ names, isName name = true) :
    Balanced (", ".intercalate names) := by
  induction names with
  | nil => decide
  | cons name names ih =>
    obtain ⟨hname, hnames⟩ := List.forall_mem_cons.1 h
    cases names with
    | nil =>
      rw [String.intercalate_singleton]
      exact balanced_name hname
    | cons next names =>
      rw [String.intercalate_cons_cons]
      exact ((balanced_name hname).append balanced_comma).append (ih hnames)

theorem balanced_arguments {codes : List Code} (h : ∀ code ∈ codes, Balanced code.text) :
    Balanced (Code.commaSeparated codes).parenthesized.text :=
  balanced_parenthesized (balanced_join balanced_comma h)

/-! ## Blocks -/

/-- The code of the line and the name it binds. -/
structure Line.IsBalanced (line : Line) : Prop where
  code : Balanced line.code.text
  declares : ∀ name ∈ line.declares, Balanced name

/-- Each line ends with a semicolon, behind its code or behind the name that it returns. -/
theorem balanced_blockLines {indentation : String} (hindent : Balanced indentation)
    {lines : List Line} (h : ∀ line ∈ lines, line.IsBalanced) :
    ∀ code ∈ blockLines indentation lines, Balanced code.text := by
  have hreturn : Balanced "return " := by decide
  have hend : Balanced ";" := by decide
  fun_induction blockLines indentation lines with
  | case1 => simp
  | case2 code =>
    have hcode := (h _ List.mem_cons_self).code
    simp only [List.forall_mem_singleton, Code.text_append]
    exact ((hindent.append hreturn).append hcode).append hend
  | case3 code name =>
    obtain ⟨hcode, hname⟩ := h _ List.mem_cons_self
    simp only [List.forall_mem_cons, Code.text_append]
    exact ⟨(hindent.append hcode).append hend,
      ((hindent.append hreturn).append (hname name rfl)).append hend, by simp⟩
  | case4 line lines _ _ ih =>
    obtain ⟨hline, hlines⟩ := List.forall_mem_cons.1 h
    simp only [List.forall_mem_cons, Code.text_append]
    exact ⟨(hindent.append hline.code).append hend, ih hlines⟩

/-- The brace that opens a block is closed by the one at its end. -/
theorem balanced_block (depth : Nat) {lines : List Line} (h : ∀ line ∈ lines, line.IsBalanced) :
    Balanced (block depth lines).text := by
  have hopen : Leads "\x7b\n" [] ['\x7b'] := by decide
  rw [block]
  split_ifs
  · decide
  · have hlines :=
      balanced_join balanced_newline (balanced_blockLines (balanced_indent (depth + 1)) h)
    simp only [Code.text_append]
    exact (((hopen.keep hlines).keep balanced_newline).keep (balanced_indent depth)).append
      (by decide)

theorem balanced_renderLines {depth : Nat} {body : List Expr}
    (h : ∀ e ∈ body, e.isError = false →
      Balanced (render depth e).text ∧ ∀ name ∈ e.declaredName?, Balanced name) :
    ∀ line ∈ renderLines depth body, line.IsBalanced := by
  induction body with
  | nil => simp [renderLines]
  | cons e es ih =>
    obtain ⟨he, hes⟩ := List.forall_mem_cons.1 h
    rw [renderLines]
    split_ifs with herror
    · exact ih hes
    · obtain ⟨hcode, hname⟩ := he (by simpa using herror)
      exact List.forall_mem_cons.2 ⟨⟨hcode, hname⟩, ih hes⟩

/-! ## Operands, targets and closures -/

theorem balanced_asOperand {e : Expr} {code : Code} (h : Balanced code.text) :
    Balanced (asOperand e code).text := by
  cases e with
  | closure => exact balanced_parenthesized h
  | _ => exact h

theorem balanced_asTarget {e : Expr} {code : Code} (h : Balanced code.text) :
    Balanced (asTarget e code).text := by
  cases e with
  | number | closure => exact balanced_parenthesized h
  | _ => exact h

theorem display_ne_nil (value : Binary64) : value.display.toList ≠ [] := by
  cases value with
  | finite negative code =>
    obtain ⟨c, cs, htext, -⟩ := (Decimal.shortest .awayFromZero code).positional_head
    cases negative <;> simp [Binary64.display, Binary64.signed, htext]
  | infinite negative => cases negative <;> simp [Binary64.display, Binary64.signed]
  | nan => decide

/-- An operator always has something before which it stands. -/
theorem asOperand_ne_nil {place : Place} {e : Expr} (h : e.WellShaped place) (depth : Nat) :
    (asOperand e (render depth e)).text.toList ≠ [] := by
  have hopens := opens_target h depth
  obtain ⟨c, hhead, -⟩ := Option.map_eq_some_iff.1 hopens
  obtain ⟨cs, htext⟩ := List.head?_eq_some_iff.1 hhead
  have hne : (target depth e).text.toList ≠ [] := by simp [htext]
  cases e with
  | number value =>
    simp only [render]
    exact display_ne_nil value
  | _ => exact hne

/-- The one place where two signs could meet: an operand that begins with a minus is put in
parentheses. -/
theorem balanced_negated {operand : Code} (hne : operand.text.toList ≠ [])
    (h : Balanced operand.text) : Balanced (negated operand).text := by
  rw [negated]
  split_ifs with hhead
  · have hopen : Leads ("-" ++ "(") [] ['('] := by decide
    simp only [Code.parenthesized, Code.text_append, ← String.append_assoc]
    exact (hopen.keep h).append (by decide)
  · -- The operand does not begin with a minus sign, so it may follow one.
    have hjoins : ∀ c ∈ operand.text.toList.head?, joins '-' c = joins ' ' c := by
      intro c hc
      have hminus : c ≠ '-' := by
        rintro rfl
        exact hhead hc
      simp [joins, hminus]
    obtain ⟨last, hrun, hcalm⟩ := leads_iff.1 h
    rw [Balanced, leads_iff, Code.text_append, String.toList_append, Scan.run_append]
    change ∃ last, Scan.run ⟨[], .code '-'⟩ operand.text.toList = _ ∧ _
    rw [Scan.run_code_congr hne hjoins]
    exact ⟨last, hrun, hcalm⟩

theorem balanced_unary (op : UnaryOperator) {operand : Code} (hne : operand.text.toList ≠ [])
    (h : Balanced operand.text) : Balanced (unary op operand).text := by
  cases op with
  | negate => exact balanced_negated hne h
  | not | bitNot =>
    simp only [unary, Code.text_append]
    exact Leads.append (by decide) h

/-- The operator has a space on both sides, so that its sign does not meet another. -/
theorem balanced_binary (op : BinaryOperator) {left right : Code} (hleft : Balanced left.text)
    (hright : Balanced right.text) :
    Balanced ("(" ++ left ++ " " ++ op.javaScript ++ " " ++ right ++ ")" : Code).text := by
  have hspace : Balanced " " := by decide
  -- An operator may end in a character that is joined with others, but a space follows it.
  have hoperator : Balanced (op.javaScript ++ " ") := by cases op <;> decide
  have hgroup : "(" ++ left.text ++ " " ++ op.javaScript ++ " " =
      "(" ++ left.text ++ " " ++ (op.javaScript ++ " ") := String.append_assoc
  simp only [Code.text_append]
  rw [hgroup]
  exact ((((leads_open.keep hleft).keep hspace).keep hoperator).keep hright).append (by decide)

/-- A name is written behind a point, and any other key in brackets. -/
theorem balanced_access {key : Expr} {depth : Nat} (h : Balanced (render depth key).text) :
    Balanced (access key (render depth key)).text := by
  have hpoint : Balanced "." := by decide
  have hopen : Leads "[" [] ['['] := by decide
  cases key with
  | identifier name =>
    rw [render] at h
    simp only [access, Code.text_append]
    exact hpoint.append h
  | _ =>
    simp only [access, Code.text_append]
    exact (hopen.keep h).append (by decide)

/-- With or without the helper around it, the parameters and the body stay in brackets. -/
theorem balanced_closure {parameters : List String} {body : Code}
    (hparameters : ∀ name ∈ parameters, isName name = true) (hbody : Balanced body.text) :
    Balanced (closure parameters body).text := by
  have hclose : Leads ") => " ['('] [] := by decide
  have hcurry : Balanced curryName := by decide
  have harrow : Balanced ("(" ++ ", ".intercalate parameters ++ ") => " ++ body : Code).text := by
    simp only [Code.text_append]
    exact ((leads_open.keep (balanced_intercalate hparameters)).append hclose).append hbody
  rw [closure]
  split_ifs
  · exact hcurry.append (balanced_parenthesized harrow)
  · exact harrow

/-! ## Expressions -/

theorem balanced_renderAll {depth : Nat} {items : List Expr}
    (h : ∀ e ∈ items, ∀ depth, Balanced (render depth e).text) :
    ∀ code ∈ renderAll depth items, Balanced code.text := by
  induction items with
  | nil => simp [renderAll]
  | cons e es ih =>
    obtain ⟨he, hes⟩ := List.forall_mem_cons.1 h
    rw [renderAll]
    exact List.forall_mem_cons.2 ⟨he depth, ih hes⟩

theorem balanced_renderCalls {depth : Nat} {calls : List (ChainCall Expr)}
    (htargets : ∀ c ∈ calls, ∀ depth, Balanced (render depth c.target).text)
    (harguments : ∀ c ∈ calls, ∀ e ∈ c.arguments, ∀ depth, Balanced (render depth e).text) :
    Balanced (renderCalls depth calls).text := by
  induction calls with
  | nil =>
    rw [renderCalls]
    decide
  | cons call calls ih =>
    obtain ⟨htarget, htargets⟩ := List.forall_mem_cons.1 htargets
    obtain ⟨hargument, harguments⟩ := List.forall_mem_cons.1 harguments
    rw [renderCalls, Code.text_append, Code.text_append]
    exact ((balanced_access (htarget depth)).append
      (balanced_arguments (balanced_renderAll hargument))).append (ih htargets harguments)

theorem isName_of_declaredName {place : Place} {e : Expr} (h : e.WellShaped place) :
    ∀ name ∈ e.declaredName?, isName name = true := by
  induction h with
  | constant hname _ => simpa [Expr.declaredName?] using hname
  | function hname _ _ => simpa [Expr.declaredName?] using hname
  | ofPrimary _ ih | ofMember _ ih | ofExpression _ ih => exact ih
  | _ => simp [Expr.declaredName?]

/-- A block of statements each of which is in form. -/
theorem balanced_body {depth : Nat} {body : List Expr}
    (hshaped : ∀ e ∈ body, e.WellShaped .statement)
    (h : ∀ e ∈ body, ∀ depth, Balanced (render depth e).text) :
    Balanced (block depth (renderLines (depth + 1) body)).text := by
  refine balanced_block depth (balanced_renderLines fun e he _ ↦ ⟨h e he _, fun name hname ↦ ?_⟩)
  exact balanced_name (isName_of_declaredName (hshaped e he) name hname)

theorem balanced_renderBranches {depth : Nat} {branches : List (Branch Expr)}
    (hconditions : ∀ b ∈ branches, ∀ depth, Balanced (render depth b.condition).text)
    (hshaped : ∀ b ∈ branches, ∀ e ∈ b.body, e.WellShaped .statement)
    (hbodies : ∀ b ∈ branches, ∀ e ∈ b.body, ∀ depth, Balanced (render depth e).text) :
    ∀ code ∈ renderBranches depth branches, Balanced code.text := by
  have hopen : Leads "if (" [] ['('] := by decide
  have hclose : Leads ") " ['('] [] := by decide
  induction branches with
  | nil => simp [renderBranches]
  | cons branch branches ih =>
    obtain ⟨hcondition, hconditions⟩ := List.forall_mem_cons.1 hconditions
    obtain ⟨hstatements, hshaped⟩ := List.forall_mem_cons.1 hshaped
    obtain ⟨hbody, hbodies⟩ := List.forall_mem_cons.1 hbodies
    rw [renderBranches]
    refine List.forall_mem_cons.2 ⟨?_, ih hconditions hshaped hbodies⟩
    simp only [Code.text_append]
    exact ((hopen.keep (hcondition depth)).append hclose).append (balanced_body hstatements hbody)

theorem balanced_renderElse {depth : Nat} {otherwise : Option (List Expr)}
    (hshaped : ∀ body ∈ otherwise, ∀ e ∈ body, e.WellShaped .statement)
    (h : ∀ body ∈ otherwise, ∀ e ∈ body, ∀ depth, Balanced (render depth e).text) :
    Balanced (renderElse depth otherwise).text := by
  have helse : Balanced " else " := by decide
  cases otherwise with
  | none =>
    rw [renderElse]
    decide
  | some body =>
    rw [renderElse, Code.text_append]
    exact helse.append (balanced_body (hshaped body rfl) (h body rfl))

/-- The code of an expression leaves brackets and string literals as it finds them. -/
theorem balanced_render {place : Place} {e : Expr} (h : e.WellShaped place) (depth : Nat) :
    Balanced (render depth e).text := by
  induction h generalizing depth with
  | number code =>
    rw [render]
    exact balanced_number code
  | string htext =>
    simp only [render, Code.text_append]
    exact balanced_string htext
  | boolean value => cases value <;> (simp only [render]; decide)
  | nil =>
    rw [render]
    decide
  | array _ ih =>
    have hopen : Leads "[" [] ['['] := by decide
    simp only [render, Code.text_append]
    exact (hopen.keep (balanced_join balanced_comma (balanced_renderAll ih))).append (by decide)
  | identifier hname =>
    rw [render]
    exact balanced_name hname
  | @cond branches _ _ _ hbodies helse ihconditions ihbodies ihelse =>
    have hopen : Leads "(() => \x7b\n" [] ['\x7b', '('] := by decide
    have hseparator : Balanced " else " := by decide
    have hbranches : Balanced (Code.join " else " (renderBranches (depth + 1) branches)).text :=
      balanced_join hseparator (balanced_renderBranches ihconditions hbodies ihbodies)
    simp only [render, Code.text_append]
    exact (((((hopen.keep (balanced_indent _)).keep hbranches).keep
      (balanced_renderElse helse ihelse)).keep balanced_newline).keep (balanced_indent _)).append
        (by decide)
  | closure hparameters hbody ih =>
    rw [render]
    exact balanced_closure hparameters (balanced_body hbody ih)
  | binary _ _ ihleft ihright =>
    rw [render]
    exact balanced_binary _ (balanced_asOperand (ihleft depth)) (balanced_asOperand (ihright depth))
  | chain _ _ _ ihreceiver ihtargets iharguments =>
    rw [render, Code.text_append]
    exact (balanced_asTarget (ihreceiver depth)).append
      (balanced_renderCalls ihtargets iharguments)
  | block hstatements ih =>
    have hopen : Leads "(() => " [] ['('] := by decide
    simp only [render, Code.text_append]
    exact (hopen.keep (balanced_body hstatements ih)).append (by decide)
  | call _ _ ihcallee iharguments =>
    rw [render, Code.text_append]
    exact (balanced_asTarget (ihcallee depth)).append
      (balanced_arguments (balanced_renderAll iharguments))
  | member _ _ ihtarget ihkey =>
    rw [render, Code.text_append]
    exact (balanced_asTarget (ihtarget depth)).append (balanced_access (ihkey depth))
  | unary hoperand ih =>
    rw [render]
    exact balanced_unary _ (asOperand_ne_nil hoperand depth) (balanced_asOperand (ih depth))
  | constant hname _ ih =>
    have hconst : Balanced "const " := by decide
    have hequals : Balanced " = " := by decide
    simp only [render, Code.text_append]
    exact ((hconst.append (balanced_name hname)).append hequals).append (ih depth)
  | function hname hparameters hbody ih =>
    have hfunction : Balanced "function " := by decide
    have hclose : Leads ") " ['('] [] := by decide
    simp only [render, Code.text_append]
    exact ((((hfunction.append (balanced_name hname)).append leads_open).keep
      (balanced_intercalate hparameters)).append hclose).append (balanced_body hbody ih)
  | print _ ih =>
    have hcall : Leads "console.log(String(" [] ['(', '('] := by decide
    simp only [render, Code.text_append]
    exact (hcall.keep (ih depth)).append (by decide)
  | ofPrimary _ ih | ofMember _ ih | ofExpression _ ih => exact ih depth

/-! ## Programs -/

theorem balanced_curryHelper : Balanced (curryHelper ++ "\n") := by decide +kernel

/-- Errors have no line; all other statements are well-shaped. -/
theorem balanced_statements {body : List Expr} (h : ∀ e ∈ body, Grammar.IsTopLevel e) :
    Balanced (statements body).text := by
  have hend : Balanced ";" := by decide
  have hlines : ∀ line ∈ renderLines 0 body, line.IsBalanced := by
    refine balanced_renderLines fun e he hread ↦ ?_
    have hshaped : e.WellShaped .statement := (h e he).resolve_left (by simp [hread])
    exact ⟨balanced_render hshaped 0,
      fun name hname ↦ balanced_name (isName_of_declaredName hshaped name hname)⟩
  refine balanced_join balanced_newline (List.forall_mem_map.2 fun line hline ↦ ?_)
  rw [Code.text_append]
  exact (hlines line hline).code.append hend

/-- A balanced text comes to its end with nothing open. -/
theorem Leads.isWellFormed (h : Balanced text) : isWellFormed text = true := by
  obtain ⟨last, hrun, -⟩ := leads_iff.1 h
  simp only [JavaScript.isWellFormed, Scan.start, hrun]

end JavaScript

/-- The code of a program is in form, whatever errors its source has. -/
theorem isWellFormed_generate (source : String) (p : Program)
    (hp : (parse source).program = some p) : JavaScript.isWellFormed (generate p) = true := by
  have htop := (Grammar.yields_program {} _ p _ (Grammar.program_parse {} hp)).2
  have hstatements := JavaScript.balanced_statements htop
  refine JavaScript.Leads.isWellFormed ?_
  unfold generate
  dsimp only
  split_ifs
  · exact JavaScript.balanced_curryHelper.append hstatements
  · exact hstatements

/-- A minus sign before another, and what would be a comment outside of a string literal. -/
theorem isWellFormed_generate_negated :
    ∃ p, (parse "(f (g ]) y)\n(f --x \"//\\\"(\")").program = some p ∧
      generate p = "f(-(-x), \"//\\\"(\");" ∧ JavaScript.isWellFormed (generate p) = true := by
  have hread : (parse "(f (g ]) y)\n(f --x \"//\\\"(\")").program.map generate =
      some "f(-(-x), \"//\\\"(\");" := by
    decide +kernel
  obtain ⟨p, hp, hcode⟩ := Option.map_eq_some_iff.1 hread
  exact ⟨p, hp, hcode, isWellFormed_generate _ p hp⟩

end Lispette
