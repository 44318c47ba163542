import Lispette.Proofs.Delimited
import Lispette.Proofs.GeneratorState
import Lispette.Proofs.Numeral

/-!
# Indentation

Code is moved in as a whole. What a generator writes at some depth is what it writes at no depth,
with two spaces more for each level after every newline, however blocks and conditionals are nested
in it. Newlines come from blocks and conditionals alone and are always followed by the indentation
of their line; for that the strings and names of the expression must not hold newlines of their own.
-/

namespace Lispette

/-! ## Texts without newlines -/

namespace Expr

/-- The texts of the expression itself that are written as they are. -/
def ownTexts : Expr → List String
  | string text => [text]
  | identifier name => [name]
  | constant name _ => [name]
  | function name parameters _ => name :: parameters
  | closure parameters _ => parameters
  | _ => []

/-- None of the expression's own strings and names holds a newline. -/
def HasLineTexts (e : Expr) : Prop := ∀ text ∈ e.ownTexts, '\n' ∉ text.toList

/-- The name that a declaration returns is among its own texts. -/
theorem HasLineTexts.declaredName {e : Expr} (h : e.HasLineTexts) {name : String}
    (hname : e.declaredName? = some name) : '\n' ∉ name.toList := by
  cases e with
  | constant | function =>
    obtain rfl := Option.some.inj hname
    exact h _ List.mem_cons_self
  | _ => cases hname

end Expr

theorem Binary64.newline_not_mem_display (value : Binary64) : '\n' ∉ value.display.toList := by
  cases value with
  | finite negative code =>
    have hdisplay : '\n' ∉ (finite false code).display.toList := fun hmem ↦
      absurd (isDigit_or_point_of_mem_display code _ hmem) (by decide)
    cases negative with
    | false => exact hdisplay
    | true => simpa [display, signed] using hdisplay
  | infinite negative => cases negative <;> decide
  | nan => decide

theorem newline_not_mem_parameters {parameters : List String}
    (h : ∀ name ∈ parameters, '\n' ∉ name.toList) :
    '\n' ∉ (", ".intercalate parameters).toList := by
  rw [String.toList_intercalate]
  exact Text.not_mem_intercalate (by decide) (List.forall_mem_map.2 h)

namespace JavaScript

theorem newline_not_mem_indent (depth : Nat) : '\n' ∉ (indent depth).toList := by
  simp [indent]

theorem indent_append (m n : Nat) : indent m ++ indent n = indent (m + n) := by
  rw [indent, indent, indent, ← String.ofList_append, List.replicate_append_replicate,
    ← Nat.mul_add]

/-! ## Moving lines in -/

/-- Every line of the text but the first is moved in by the given number of levels. -/
def moveIn (levels : Nat) (text : String) : String :=
  String.ofList (text.toList.flatMap fun c ↦
    if c = '\n' then '\n' :: List.replicate (2 * levels) ' ' else [c])

variable {levels : Nat}

theorem moveIn_append (a b : String) :
    moveIn levels (a ++ b) = moveIn levels a ++ moveIn levels b := by
  rw [moveIn, String.toList_append, List.flatMap_append, String.ofList_append, moveIn, moveIn]

/-- A text on one line is not changed by moving it in. -/
theorem moveIn_line {text : String} (h : '\n' ∉ text.toList) : moveIn levels text = text := by
  have hchars : ∀ c ∈ text.toList,
      (if c = '\n' then '\n' :: List.replicate (2 * levels) ' ' else [c]) = [c] := by
    rintro c hc
    refine if_neg ?_
    rintro rfl
    exact h hc
  rw [moveIn, List.flatMap_def, List.map_congr_left hchars, ← List.flatMap_def,
    List.flatMap_singleton', String.ofList_toList]

theorem moveIn_newline : moveIn levels "\n" = "\n" ++ indent levels := by
  rw [indent, ← String.toList_inj]
  simp [moveIn]

/-- A text begins as it did before. -/
theorem head?_moveIn (text : String) : (moveIn levels text).toList.head? = text.toList.head? := by
  rw [moveIn, String.toList_ofList]
  cases text.toList with
  | nil => rfl
  | cons c cs =>
    rw [List.flatMap_cons]
    split <;> simp [*]

namespace Code

def moveIn (levels : Nat) (code : Code) : Code :=
  { code with text := JavaScript.moveIn levels code.text }

@[simp] theorem moveIn_append (a b : Code) :
    (a ++ b).moveIn levels = a.moveIn levels ++ b.moveIn levels :=
  Code.ext (by simp [moveIn, JavaScript.moveIn_append]) (by simp [moveIn])

@[simp] theorem moveIn_line {text : String} (h : '\n' ∉ text.toList) :
    (text : Code).moveIn levels = text :=
  Code.ext (JavaScript.moveIn_line h) rfl

@[simp] theorem moveIn_parenthesized (code : Code) :
    code.parenthesized.moveIn levels = (code.moveIn levels).parenthesized := by
  simp [parenthesized]

/-- A separator on one line stays as it is between the pieces. -/
theorem moveIn_join {separator : String} (h : '\n' ∉ separator.toList) (pieces : List Code) :
    (join separator pieces).moveIn levels = join separator (pieces.map (moveIn levels)) := by
  induction pieces with
  | nil => exact moveIn_line (by simp)
  | cons piece pieces ih =>
    cases pieces with
    | nil => rfl
    | cons next pieces =>
      rw [join_cons_cons, moveIn_append, moveIn_append, moveIn_line h, ih]
      rfl

theorem moveIn_commaSeparated (pieces : List Code) :
    (commaSeparated pieces).moveIn levels = commaSeparated (pieces.map (moveIn levels)) :=
  moveIn_join (by decide) pieces

/-- The code as a line of its own, moved in from its beginning on. -/
def indented (levels : Nat) (code : Code) : Code := (indent levels : Code) ++ code.moveIn levels

/-- What comes after a newline is indented, and moved in itself. -/
theorem moveIn_newline_append (code : Code) :
    (("\n" : Code) ++ code).moveIn levels = ("\n" : Code) ++ code.indented levels := by
  have hnewline : ("\n" : Code).moveIn levels = ("\n" : Code) ++ (indent levels : Code) :=
    Code.ext (by simp [moveIn, JavaScript.moveIn_newline]) (by simp [moveIn])
  rw [moveIn_append, hnewline, append_assoc, indented]

/-- Each of several lines is moved in, if a newline goes before the first as well. -/
theorem moveIn_lines {lines : List Code} (h : lines ≠ []) :
    (("\n" : Code) ++ join "\n" lines).moveIn levels =
      ("\n" : Code) ++ join "\n" (lines.map (indented levels)) := by
  induction lines with
  | nil => exact absurd rfl h
  | cons line lines ih =>
    cases lines with
    | nil => exact moveIn_newline_append line
    | cons next lines =>
      have hnext := ih (List.cons_ne_nil _ _)
      rw [List.map_cons] at hnext
      calc
        (("\n" : Code) ++ join "\n" (line :: next :: lines)).moveIn levels
        _ = (("\n" : Code) ++ line).moveIn levels ++
            (("\n" : Code) ++ join "\n" (next :: lines)).moveIn levels := by
          rw [join_cons_cons, ← moveIn_append, append_assoc, append_assoc]
        _ = ("\n" : Code) ++ join "\n" ((line :: next :: lines).map (indented levels)) := by
          rw [moveIn_newline_append, hnext, List.map_cons, List.map_cons, join_cons_cons,
            append_assoc, append_assoc]

end Code

/-! ## Blocks -/

def Line.moveIn (levels : Nat) (line : Line) : Line :=
  { line with code := line.code.moveIn levels }

/-- The names that lines bind are written on lines of their own. -/
def BindsLines (lines : List Line) : Prop :=
  ∀ line ∈ lines, ∀ name ∈ line.declares, '\n' ∉ name.toList

/-- The indentation of a line and that by which it is moved in make one. -/
theorem indented_indent (depth : Nat) (code : Code) :
    ((indent depth : Code) ++ code).indented levels =
      (indent (depth + levels) : Code) ++ code.moveIn levels := by
  have hindent :
      (indent levels : Code) ++ (indent depth : Code) = (indent (depth + levels) : Code) :=
    Code.ext (by simp [indent_append, Nat.add_comm]) (by simp)
  rw [Code.indented, Code.moveIn_append, Code.moveIn_line (newline_not_mem_indent depth),
    ← Code.append_assoc, hindent]

/-- The lines of a deeper block are those of the block, each one indented further. -/
theorem blockLines_moveIn (depth : Nat) {lines : List Line} (h : BindsLines lines) :
    blockLines (indent (depth + levels)) (lines.map (Line.moveIn levels)) =
      (blockLines (indent depth) lines).map (Code.indented levels) := by
  induction lines with
  | nil => rfl
  | cons line lines ih =>
    obtain ⟨hline, hlines⟩ := List.forall_mem_cons.1 h
    cases lines with
    | nil =>
      rcases line with ⟨code, _ | name⟩
      · simp [blockLines, Line.moveIn, Code.append_assoc, indented_indent]
      · have hname := hline name rfl
        simp [blockLines, Line.moveIn, hname, Code.append_assoc, indented_indent]
    | cons next lines =>
      have hnext := ih hlines
      simp only [List.map_cons] at hnext
      simp only [List.map_cons, blockLines_cons_cons, hnext]
      simp [Line.moveIn, Code.append_assoc, indented_indent]

/-- What a newline and the indentation of the next line go before. -/
theorem moveIn_nextLine (depth : Nat) (code : Code) :
    (("\n" : Code) ++ ((indent depth : Code) ++ code)).moveIn levels =
      ("\n" : Code) ++ ((indent (depth + levels) : Code) ++ code.moveIn levels) := by
  rw [Code.moveIn_newline_append, indented_indent]

theorem blockLines_ne_nil (indentation : String) {lines : List Line} (h : lines ≠ []) :
    blockLines indentation lines ≠ [] := by
  cases lines with
  | nil => exact absurd rfl h
  | cons line lines =>
    cases lines with
    | nil => rcases line with ⟨code, _ | name⟩ <;> exact List.cons_ne_nil _ _
    | cons next lines =>
      rw [blockLines_cons_cons]
      exact List.cons_ne_nil _ _

/-- A block of at least one line, taken apart where its lines break. -/
theorem block_eq (depth : Nat) {lines : List Line} (h : lines ≠ []) :
    block depth lines =
      ("\x7b" : Code) ++
        (("\n" : Code) ++ Code.join "\n" (blockLines (indent (depth + 1)) lines)) ++
        (("\n" : Code) ++ ((indent depth : Code) ++ ("\x7d" : Code))) := by
  have hopen : ("\x7b\n" : Code) = ("\x7b" : Code) ++ ("\n" : Code) := Code.ext (by simp) (by simp)
  rw [block, if_neg (by simpa using h), hopen]
  simp only [Code.append_assoc]

/-- Braces, newlines and lines of a block move in together; an empty block has no newline. -/
theorem block_moveIn (depth : Nat) {lines : List Line} (h : BindsLines lines) :
    block (depth + levels) (lines.map (Line.moveIn levels)) =
      (block depth lines).moveIn levels := by
  cases lines with
  | nil => exact (Code.moveIn_line (by decide)).symm
  | cons line lines =>
    have hne : line :: lines ≠ [] := List.cons_ne_nil _ _
    have hdepth : depth + levels + 1 = depth + 1 + levels := Nat.add_right_comm _ _ _
    rw [block_eq _ (by simp), hdepth, blockLines_moveIn _ h, block_eq depth hne, Code.moveIn_append,
      Code.moveIn_append, Code.moveIn_lines (blockLines_ne_nil _ hne), moveIn_nextLine,
      Code.moveIn_line (by decide), Code.moveIn_line (by decide)]

/-! ## Operands, targets and closures -/

@[simp] theorem moveIn_unary (op : UnaryOperator) (operand : Code) :
    (unary op operand).moveIn levels = unary op (operand.moveIn levels) := by
  cases op with
  | not | bitNot => simp [unary, UnaryOperator.javaScript, UnaryOperator.symbol]
  | negate =>
    have hhead : (operand.moveIn levels).text.toList.head? = operand.text.toList.head? :=
      head?_moveIn operand.text
    simp only [unary, negated, hhead]
    split <;> simp

@[simp] theorem moveIn_asOperand (e : Expr) (code : Code) :
    (asOperand e code).moveIn levels = asOperand e (code.moveIn levels) := by
  cases e with
  | closure => exact code.moveIn_parenthesized
  | _ => rfl

@[simp] theorem moveIn_asTarget (e : Expr) (code : Code) :
    (asTarget e code).moveIn levels = asTarget e (code.moveIn levels) := by
  cases e with
  | number | closure => exact code.moveIn_parenthesized
  | _ => rfl

/-- A key in brackets may go over several lines, which move in with it. -/
theorem moveIn_access {key : Expr} (h : key.HasLineTexts) (code : Code) :
    (access key code).moveIn levels = access key (code.moveIn levels) := by
  cases key with
  | identifier name =>
    have hname : '\n' ∉ name.toList := h name (List.mem_singleton_self name)
    simp [access, hname]
  | _ => simp [access]

theorem moveIn_closure {parameters : List String} (h : ∀ name ∈ parameters, '\n' ∉ name.toList)
    (body : Code) :
    (closure parameters body).moveIn levels = closure parameters (body.moveIn levels) := by
  let arrow (body : Code) : Code := "(" ++ ", ".intercalate parameters ++ ") => " ++ body
  have harrow : (arrow body).moveIn levels = arrow (body.moveIn levels) := by
    simp [arrow, Code.moveIn_line (newline_not_mem_parameters h)]
  unfold closure
  split
  · refine Code.ext ?_ rfl
    change moveIn levels (curryName ++ (arrow body).parenthesized.text) =
      curryName ++ (arrow (body.moveIn levels)).parenthesized.text
    rw [moveIn_append, moveIn_line (by decide), ← harrow, ← Code.moveIn_parenthesized]
    rfl
  · exact harrow

/-! ## Expressions -/

/-- At any depth, the code of the expression is moved in as a whole. -/
def IsUniform (e : Expr) : Prop :=
  ∀ depth levels, render (depth + levels) e = (render depth e).moveIn levels

theorem renderAll_moveIn {es : List Expr} (h : ∀ e ∈ es, IsUniform e) (depth levels : Nat) :
    renderAll (depth + levels) es = (renderAll depth es).map (Code.moveIn levels) := by
  rw [renderAll_eq_map, renderAll_eq_map, List.map_map]
  exact List.map_congr_left fun e he ↦ h e he depth levels

theorem renderLines_moveIn {es : List Expr} (h : ∀ e ∈ es, IsUniform e) (depth levels : Nat) :
    renderLines (depth + levels) es = (renderLines depth es).map (Line.moveIn levels) := by
  rw [renderLines_eq_map, renderLines_eq_map, List.map_map]
  refine List.map_congr_left fun e he ↦ ?_
  rw [h e (List.mem_filter.1 he).1]
  rfl

/-- Names are among the own texts of a statement, hence on one line. -/
theorem bindsLines_renderLines {es : List Expr} (h : ∀ e ∈ es, e.HasLineTexts) (depth : Nat) :
    BindsLines (renderLines depth es) := by
  rw [renderLines_eq_map]
  refine List.forall_mem_map.2 fun e he name hname ↦ ?_
  exact (h e (List.mem_filter.1 he).1).declaredName hname

/-- The statements of a body, each uniform and with names of one line. -/
theorem body_moveIn {es : List Expr} (h : ∀ e ∈ es, e.HasLineTexts ∧ IsUniform e)
    (depth levels : Nat) :
    block (depth + levels) (renderLines (depth + levels + 1) es) =
      (block depth (renderLines (depth + 1) es)).moveIn levels := by
  have hdepth : depth + levels + 1 = depth + 1 + levels := Nat.add_right_comm _ _ _
  rw [hdepth, renderLines_moveIn fun e he ↦ (h e he).2,
    block_moveIn _ (bindsLines_renderLines (fun e he ↦ (h e he).1) _)]

theorem renderCalls_moveIn {calls : List (ChainCall Expr)}
    (h : ∀ e ∈ calls.flatMap fun c ↦ c.target :: c.arguments, e.HasLineTexts ∧ IsUniform e)
    (depth levels : Nat) :
    renderCalls (depth + levels) calls = (renderCalls depth calls).moveIn levels := by
  induction calls with
  | nil =>
    rw [renderCalls, renderCalls]
    exact (Code.moveIn_line (by decide)).symm
  | cons c calls ih =>
    simp only [List.flatMap_cons, List.forall_mem_append, List.forall_mem_cons] at h
    obtain ⟨⟨⟨hkey, htarget⟩, harguments⟩, hcalls⟩ := h
    have hall := renderAll_moveIn (fun e he ↦ (harguments e he).2) depth levels
    rw [renderCalls, renderCalls, htarget, hall, ih hcalls]
    simp [moveIn_access hkey, Code.moveIn_commaSeparated]

/-- The condition of each branch and the block of its body move in. -/
theorem renderBranches_moveIn {branches : List (Branch Expr)}
    (h : ∀ e ∈ branches.flatMap fun b ↦ b.condition :: b.body, e.HasLineTexts ∧ IsUniform e)
    (depth levels : Nat) :
    renderBranches (depth + levels) branches =
      (renderBranches depth branches).map (Code.moveIn levels) := by
  induction branches with
  | nil => rw [renderBranches, renderBranches, List.map_nil]
  | cons b branches ih =>
    simp only [List.flatMap_cons, List.forall_mem_append, List.forall_mem_cons] at h
    obtain ⟨⟨⟨-, hcondition⟩, hbody⟩, hbranches⟩ := h
    rw [renderBranches, renderBranches, hcondition, body_moveIn hbody, ih hbranches]
    simp

theorem renderElse_moveIn {otherwise : Option (List Expr)}
    (h : ∀ e ∈ otherwise.getD [], e.HasLineTexts ∧ IsUniform e) (depth levels : Nat) :
    renderElse (depth + levels) otherwise = (renderElse depth otherwise).moveIn levels := by
  cases otherwise with
  | none =>
    rw [renderElse, renderElse]
    exact (Code.moveIn_line (by decide)).symm
  | some body =>
    have hbody : ∀ e ∈ body, e.HasLineTexts ∧ IsUniform e := h
    rw [renderElse, renderElse, body_moveIn hbody]
    simp

/-- A conditional, taken apart where its lines break. -/
theorem render_cond (depth : Nat) (branches : List (Branch Expr)) (otherwise : Option (List Expr)) :
    render depth (.cond branches otherwise) =
      ("(() => \x7b" : Code) ++
        (("\n" : Code) ++ ((indent (depth + 1) : Code) ++
          (Code.join " else " (renderBranches (depth + 1) branches) ++
            renderElse (depth + 1) otherwise))) ++
        (("\n" : Code) ++ ((indent depth : Code) ++ ("\x7d)()" : Code))) := by
  have hopen : ("(() => \x7b\n" : Code) = ("(() => \x7b" : Code) ++ ("\n" : Code) :=
    Code.ext (by simp) (by simp)
  rw [render, hopen]
  simp only [Code.append_assoc]

/-- By induction on the expression. Only blocks and conditionals bring newlines, and both put the
indentation of their line behind them. -/
theorem isUniform {e : Expr} (h : e.Everywhere Expr.HasLineTexts) : IsUniform e := by
  induction e using Expr.induction_on_children with
  | h e ih =>
    intro depth levels
    obtain ⟨htexts, hchildren⟩ := Expr.everywhere_iff.1 h
    have hparts : ∀ d ∈ e.children, d.HasLineTexts ∧ IsUniform d := fun d hd ↦
      ⟨hchildren d hd d (.inl rfl), ih d hd (hchildren d hd)⟩
    clear ih hchildren
    cases e with
    | number value =>
      rw [render, render, Code.moveIn_line value.newline_not_mem_display]
    | string text =>
      have htext : '\n' ∉ text.toList := htexts text (List.mem_singleton_self text)
      simp [render, htext]
    | boolean value =>
      rw [render, render]
      cases value <;> exact (Code.moveIn_line (by decide)).symm
    | nil | error =>
      rw [render, render]
      exact (Code.moveIn_line (by decide)).symm
    | array items =>
      have hitems : ∀ e ∈ items, IsUniform e := fun e he ↦ (hparts e he).2
      rw [render, render, renderAll_moveIn hitems]
      simp [Code.moveIn_commaSeparated]
    | identifier name =>
      rw [render, render, Code.moveIn_line (htexts name (List.mem_singleton_self name))]
    | unary op operand =>
      obtain ⟨-, hoperand⟩ := hparts operand (by simp [Expr.children])
      simp [render, hoperand depth levels]
    | binary op left right =>
      obtain ⟨-, hleft⟩ := hparts left (by simp [Expr.children])
      obtain ⟨-, hright⟩ := hparts right (by simp [Expr.children])
      have hop : '\n' ∉ op.javaScript.toList := by cases op <;> decide
      simp [render, hleft depth levels, hright depth levels, hop]
    | call callee arguments =>
      obtain ⟨⟨-, hcallee⟩, harguments⟩ := List.forall_mem_cons.1 hparts
      have hall := renderAll_moveIn (fun e he ↦ (harguments e he).2) depth levels
      rw [render, render, hcallee, hall]
      simp [Code.moveIn_commaSeparated]
    | chain receiver calls =>
      obtain ⟨⟨-, hreceiver⟩, hcalls⟩ := List.forall_mem_cons.1 hparts
      rw [render, render, hreceiver, renderCalls_moveIn hcalls]
      simp
    | member target key =>
      obtain ⟨-, htarget⟩ := hparts target (by simp [Expr.children])
      obtain ⟨hkey, hkey'⟩ := hparts key (by simp [Expr.children])
      rw [render, render, htarget, hkey']
      simp [moveIn_access hkey]
    | constant name value =>
      obtain ⟨-, hvalue⟩ := hparts value (by simp [Expr.children])
      have hname : '\n' ∉ name.toList := htexts name (List.mem_singleton_self name)
      simp [render, hvalue depth levels, hname]
    | function name parameters body =>
      obtain ⟨hname, hparameters⟩ := List.forall_mem_cons.1 htexts
      have hbody : ∀ e ∈ body, e.HasLineTexts ∧ IsUniform e := hparts
      rw [render, render, body_moveIn hbody]
      simp [hname, Code.moveIn_line (newline_not_mem_parameters hparameters)]
    | print value =>
      obtain ⟨-, hvalue⟩ := hparts value (by simp [Expr.children])
      simp [render, hvalue depth levels]
    | block statements =>
      have hbody : ∀ e ∈ statements, e.HasLineTexts ∧ IsUniform e := hparts
      rw [render, render, body_moveIn hbody]
      simp
    | closure parameters body =>
      have hbody : ∀ e ∈ body, e.HasLineTexts ∧ IsUniform e := hparts
      have hparameters : ∀ name ∈ parameters, '\n' ∉ name.toList := htexts
      rw [render, render, body_moveIn hbody, moveIn_closure hparameters]
    | cond branches otherwise =>
      obtain ⟨hbranches, hotherwise⟩ := List.forall_mem_append.1 hparts
      have hdepth : depth + levels + 1 = depth + 1 + levels := Nat.add_right_comm _ _ _
      rw [render_cond, render_cond, hdepth, renderBranches_moveIn hbranches,
        renderElse_moveIn hotherwise, Code.moveIn_append, Code.moveIn_append, moveIn_nextLine,
        moveIn_nextLine]
      simp [Code.moveIn_join]

namespace Generator

/-- What a generator writes at some depth is what it writes at no depth, moved in. -/
theorem text_moveIn (depth : Nat) (needsCurry : Bool) :
    (∀ e : Expr, e.Everywhere Expr.HasLineTexts →
      ((Generator.mk depth needsCurry).expression e).1 =
        moveIn depth ((Generator.mk 0 needsCurry).expression e).1) ∧
      ∀ statements : List Expr, (∀ e ∈ statements, e.Everywhere Expr.HasLineTexts) →
        ((Generator.mk depth needsCurry).block statements).1 =
          moveIn depth ((Generator.mk 0 needsCurry).block statements).1 := by
  constructor
  · intro e he
    have hcode := isUniform he 0 depth
    rw [Nat.zero_add] at hcode
    rw [expression_eq, expression_eq]
    exact congrArg Code.text hcode
  · intro statements h
    have hcode := body_moveIn (fun e he ↦ ⟨h e he e (.inl rfl), isUniform (h e he)⟩) 0 depth
    rw [Nat.zero_add] at hcode
    rw [block_eq, block_eq]
    exact congrArg Code.text hcode

/-- A binding within a branch, as an expression and as the only statement of a block. -/
theorem text_moveIn_branch :
    ∃ e : Expr, e.Everywhere Expr.HasLineTexts ∧
      ((Generator.mk 0 false).expression e).1 =
        "(() => \x7b\n  if (x) \x7b\n    const k = \"a\";\n    return k;\n  \x7d\n\x7d)()" ∧
      ((Generator.mk 1 false).expression e).1 = moveIn 1 ((Generator.mk 0 false).expression e).1 ∧
      ((Generator.mk 1 false).block [e]).1 = moveIn 1 ((Generator.mk 0 false).block [e]).1 := by
  have hleaf : ∀ e : Expr, e.HasLineTexts → e.children = [] → e.Everywhere Expr.HasLineTexts :=
    fun e he hchildren ↦ Expr.everywhere_iff.2 ⟨he, by simp [hchildren]⟩
  have hvalue : Expr.Everywhere Expr.HasLineTexts (.string "a") :=
    hleaf _ (by simp [Expr.HasLineTexts, Expr.ownTexts]) rfl
  have hcondition : Expr.Everywhere Expr.HasLineTexts (.identifier "x") :=
    hleaf _ (by simp [Expr.HasLineTexts, Expr.ownTexts]) rfl
  have hconstant : Expr.Everywhere Expr.HasLineTexts (.constant "k" (.string "a")) :=
    Expr.everywhere_iff.2 ⟨by simp [Expr.HasLineTexts, Expr.ownTexts],
      List.forall_mem_singleton.2 hvalue⟩
  let e : Expr := .cond [⟨.identifier "x", [.constant "k" (.string "a")]⟩] none
  have he : e.Everywhere Expr.HasLineTexts := by
    refine Expr.everywhere_iff.2 ⟨by simp [e, Expr.HasLineTexts, Expr.ownTexts], ?_⟩
    exact List.forall_mem_cons.2 ⟨hcondition, List.forall_mem_singleton.2 hconstant⟩
  have htext := text_moveIn 1 false
  exact ⟨e, he, by decide +kernel, htext.1 e he, htext.2 [e] (List.forall_mem_singleton.2 he)⟩

end Generator

end JavaScript

end Lispette
