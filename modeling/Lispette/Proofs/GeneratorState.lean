import Lispette.JavaScript.Generator
import Lispette.Proofs.Shape

/-!
# What a generator keeps from piece to piece

A generator goes through an expression once and changes as it goes: it stands deeper inside of
blocks and conditionals, and it notes closures that rely on the helper. Nothing of that shows in the
text. At every point the generator is back at the depth at which it began, and its text is that of
the code of the expression at that depth, whatever it wrote before. So a program is generated
statement by statement, and the helper is needed exactly if some closure has two parameters or more.
-/

namespace Lispette

namespace JavaScript

/-! ## Pieces without their notes -/

attribute [ext] Code

namespace Code

theorem append_assoc (a b c : Code) : a ++ b ++ c = a ++ (b ++ c) :=
  Code.ext (by simp [String.append_assoc]) (by simp [Bool.or_assoc])

/-- The text alone. -/
def bare (code : Code) : Code := { text := code.text }

/-- Code that relies on no helper is what is left of any code with the same text. -/
theorem eq_bare {a b : Code} (htext : a.text = b.text) (h : b.curries = false) : a.bare = b := by
  cases b
  simp_all [bare]

@[simp] theorem text_bare (code : Code) : code.bare.text = code.text := rfl

@[simp] theorem curries_bare (code : Code) : code.bare.curries = false := rfl

@[simp] theorem bare_coe (text : String) : (text : Code).bare = text := rfl

@[simp] theorem bare_append (a b : Code) : (a ++ b).bare = a.bare ++ b.bare :=
  eq_bare (by simp) (by simp)

@[simp] theorem bare_parenthesized (code : Code) :
    code.parenthesized.bare = code.bare.parenthesized := by
  simp [parenthesized]

@[simp] theorem curries_parenthesized (code : Code) :
    code.parenthesized.curries = code.curries := by
  simp [parenthesized]

theorem join_cons_cons (separator : String) (piece next : Code) (pieces : List Code) :
    join separator (piece :: next :: pieces) =
      piece ++ separator ++ join separator (next :: pieces) := rfl

@[simp] theorem bare_join (separator : String) (pieces : List Code) :
    (join separator pieces).bare = join separator (pieces.map bare) := by
  induction pieces with
  | nil => rfl
  | cons piece pieces ih =>
    cases pieces with
    | nil => rfl
    | cons next pieces => simp only [join_cons_cons, bare_append, bare_coe, ih, List.map_cons]

/-- Pieces that are joined rely on the helper if one of them does. Separators never do. -/
@[simp] theorem curries_join (separator : String) (pieces : List Code) :
    (join separator pieces).curries = pieces.any Code.curries := by
  induction pieces with
  | nil => rfl
  | cons piece pieces ih =>
    cases pieces with
    | nil => exact (Bool.or_false _).symm
    | cons next pieces =>
      simp only [join_cons_cons, curries_append, ih, Bool.or_false, List.any_cons]

end Code

/-- The line with the text of its code alone. -/
def Line.bare (line : Line) : Line := { line with code := line.code.bare }

/-- Only the last line of a block is returned, so all others are plain statements. -/
theorem blockLines_cons_cons (indentation : String) (line next : Line) (lines : List Line) :
    blockLines indentation (line :: next :: lines) =
      (indentation ++ line.code ++ ";") :: blockLines indentation (next :: lines) := by
  rcases line with ⟨code, _ | name⟩ <;> rfl

/-- How lines are put together depends on their texts and names, not on their notes. -/
theorem map_bare_blockLines (indentation : String) (lines : List Line) :
    (blockLines indentation lines).map Code.bare =
      blockLines indentation (lines.map Line.bare) := by
  induction lines with
  | nil => rfl
  | cons line lines ih =>
    cases lines with
    | nil => rcases line with ⟨code, _ | name⟩ <;> simp [blockLines, Line.bare]
    | cons next lines =>
      simp only [List.map_cons] at ih
      simp only [blockLines_cons_cons, List.map_cons, ih, Code.bare_append, Code.bare_coe]
      rfl

/-- A line that returns a name repeats nothing of its code, so the notes are those of the lines. -/
theorem any_curries_blockLines (indentation : String) (lines : List Line) :
    (blockLines indentation lines).any Code.curries = lines.any (·.code.curries) := by
  induction lines with
  | nil => rfl
  | cons line lines ih =>
    cases lines with
    | nil => rcases line with ⟨code, _ | name⟩ <;> simp [blockLines]
    | cons next lines =>
      simp only [blockLines_cons_cons, List.any_cons, ih, Code.curries_append, Bool.or_false,
        Bool.false_or]

@[simp] theorem bare_block (depth : Nat) (lines : List Line) :
    (block depth lines).bare = block depth (lines.map Line.bare) := by
  unfold block
  rw [List.isEmpty_map]
  split
  · rfl
  · simp [map_bare_blockLines]

/-- A block relies on the helper if one of its lines does. -/
@[simp] theorem curries_block (depth : Nat) (lines : List Line) :
    (block depth lines).curries = lines.any (·.code.curries) := by
  unfold block
  split
  · rename_i hempty
    rw [List.isEmpty_iff.1 hempty, List.any_nil]
  · simp [any_curries_blockLines]

@[simp] theorem bare_unary (op : UnaryOperator) (operand : Code) :
    (unary op operand).bare = unary op operand.bare := by
  cases op with
  | not | bitNot => simp [unary]
  | negate =>
    by_cases hminus : operand.text.toList.head? = some '-' <;> simp [unary, negated, hminus]

@[simp] theorem curries_unary (op : UnaryOperator) (operand : Code) :
    (unary op operand).curries = operand.curries := by
  cases op with
  | not | bitNot => simp [unary]
  | negate =>
    simp only [unary, negated]
    split <;> simp

@[simp] theorem bare_asOperand (e : Expr) (code : Code) :
    (asOperand e code).bare = asOperand e code.bare := by
  cases e with
  | closure => exact code.bare_parenthesized
  | _ => rfl

@[simp] theorem curries_asOperand (e : Expr) (code : Code) :
    (asOperand e code).curries = code.curries := by
  cases e with
  | closure => exact code.curries_parenthesized
  | _ => rfl

@[simp] theorem bare_asTarget (e : Expr) (code : Code) :
    (asTarget e code).bare = asTarget e code.bare := by
  cases e with
  | number | closure => exact code.bare_parenthesized
  | _ => rfl

@[simp] theorem curries_asTarget (e : Expr) (code : Code) :
    (asTarget e code).curries = code.curries := by
  cases e with
  | number | closure => exact code.curries_parenthesized
  | _ => rfl

@[simp] theorem bare_access (key : Expr) (code : Code) :
    (access key code).bare = access key code.bare := by
  cases key <;> simp [access]

/-- A name is written as a property, and nothing in a name could rely on the helper. -/
@[simp] theorem curries_access (depth : Nat) (key : Expr) :
    (access key (render depth key)).curries = (render depth key).curries := by
  cases key <;> simp [access, render]

/-- A closure itself relies on the helper if it has two parameters or more. -/
@[simp] theorem curries_closure (parameters : List String) (body : Code) :
    (closure parameters body).curries = (body.curries || decide (1 < parameters.length)) := by
  unfold closure
  split <;> simp [*]

/-- The notes of the body do not show in the text of the closure. -/
@[simp] theorem bare_closure_bare (parameters : List String) (body : Code) :
    (closure parameters body.bare).bare = (closure parameters body).bare := by
  unfold closure
  split <;> simp [Code.bare, Code.parenthesized]

/-! ## Writing in one pass -/

namespace Generator

variable {α β : Type} {depth : Nat}

/-- The generator once it has written code that relies on the helper, if it does. -/
def noting (g : Generator) (curries : Bool) : Generator :=
  { g with needsCurry := g.needsCurry || curries }

/-- At the given depth, `write` yields the value whatever was written before, comes back to that
depth, and notes whether the helper is relied on. -/
def Writes (depth : Nat) (write : StateM Generator α) (value : α) (curries : Bool) : Prop :=
  ∀ g : Generator, g.depth = depth → write.run g = (value, g.noting curries)

namespace Writes

variable {write : StateM Generator α} {value : α} {curries : Bool}

theorem congr {value' : α} {curries' : Bool} (h : Writes depth write value curries)
    (hvalue : value = value') (hcurries : curries = curries') :
    Writes depth write value' curries' :=
  hvalue ▸ hcurries ▸ h

theorem pure (value : α) : Writes depth (Pure.pure value) value false := by
  intro g _
  rw [noting, Bool.or_false]
  rfl

/-- The notes of two steps add up. The second step begins at the depth of the first, which has come
back to it. -/
theorem bind {next : α → StateM Generator β} {value' : β} {curries' : Bool}
    (h : Writes depth write value curries) (hnext : Writes depth (next value) value' curries') :
    Writes depth (write >>= next) value' (curries || curries') := by
  intro g hg
  have hfirst := h g hg
  have hsecond := hnext (g.noting curries) hg
  rw [noting, noting, Bool.or_assoc] at hsecond
  rw [StateT.run_bind, hfirst]
  exact hsecond

theorem map (f : α → β) (h : Writes depth write value curries) :
    Writes depth (do return f (← write)) (f value) curries :=
  (h.bind (.pure (f value))).congr rfl (Bool.or_false curries)

/-- One level further in, and back again at the end. -/
theorem deeper (h : Writes (depth + 1) write value curries) :
    Writes depth (Generator.deeper write) value curries := by
  intro g hg
  have hinside := h { g with depth := g.depth + 1 } (congrArg (· + 1) hg)
  have hrun : (Generator.deeper write).run g =
      (fun (written, g) ↦ (written, { g with depth := g.depth - 1 }))
        (write.run { g with depth := g.depth + 1 }) := rfl
  rw [hrun, hinside]
  rfl

theorem indentation : Writes depth Generator.indentation (indent depth) false := by
  intro g hg
  rw [noting, Bool.or_false, ← hg]
  rfl

/-- A note is moved from the code into the generator, where it stays. -/
theorem absorb (code : Code) : Writes depth (Generator.absorb code) code.bare code.curries :=
  fun _ _ ↦ rfl

/-- The lines of a block stand one level deeper than its braces. -/
theorem enclose {lines : StateM Generator (List Line)} {written : List Line}
    (h : Writes (depth + 1) lines written curries) :
    Writes depth (Generator.enclose lines) (JavaScript.block depth written) curries := by
  refine (h.deeper.bind
    (fun g hg ↦ ?_ : Writes depth _ (JavaScript.block depth written) false)).congr
    rfl (Bool.or_false _)
  rw [noting, Bool.or_false, ← hg]
  rfl

end Writes

/-- The generator writes the code of the expression. -/
def IsWritten (e : Expr) : Prop :=
  ∀ depth, Writes depth (write e) (render depth e).bare (render depth e).curries

/-- The expressions of a list are written one after the other, each by the generator that the one
before it left. -/
theorem writes_all {es : List Expr} (h : ∀ e ∈ es, IsWritten e) (depth : Nat) :
    Writes depth (writeAll es) ((renderAll depth es).map Code.bare)
      ((renderAll depth es).any Code.curries) := by
  induction es with
  | nil =>
    rw [writeAll]
    exact .pure []
  | cons e es ih =>
    obtain ⟨he, hes⟩ := List.forall_mem_cons.1 h
    rw [writeAll]
    exact ((he depth).bind ((ih hes).map _)).congr (by simp [renderAll]) (by simp [renderAll])

/-- Statements that stand for errors are passed over by both. -/
theorem writes_lines {es : List Expr} (h : ∀ e ∈ es, IsWritten e) (depth : Nat) :
    Writes depth (writeLines es) ((renderLines depth es).map Line.bare)
      ((renderLines depth es).any (·.code.curries)) := by
  induction es with
  | nil =>
    rw [writeLines]
    exact .pure []
  | cons e es ih =>
    obtain ⟨he, hes⟩ := List.forall_mem_cons.1 h
    rw [writeLines, renderLines]
    split
    · exact ih hes
    · exact ((he depth).bind ((ih hes).map _)).congr (by simp [Line.bare]) (by simp)

/-- A body is written as the block of its lines. -/
theorem writes_body {es : List Expr} (h : ∀ e ∈ es, IsWritten e) (depth : Nat) :
    Writes depth (enclose (writeLines es))
      (JavaScript.block depth (renderLines (depth + 1) es)).bare
      (JavaScript.block depth (renderLines (depth + 1) es)).curries :=
  (writes_lines h (depth + 1)).enclose.congr (bare_block _ _).symm (curries_block _ _).symm

theorem writes_calls {calls : List (ChainCall Expr)} (htargets : ∀ c ∈ calls, IsWritten c.target)
    (harguments : ∀ c ∈ calls, ∀ e ∈ c.arguments, IsWritten e) (depth : Nat) :
    Writes depth (writeCalls calls) (renderCalls depth calls).bare
      (renderCalls depth calls).curries := by
  induction calls with
  | nil =>
    rw [writeCalls]
    exact .pure _
  | cons c calls ih =>
    obtain ⟨htarget, htargets⟩ := List.forall_mem_cons.1 htargets
    obtain ⟨hargument, harguments⟩ := List.forall_mem_cons.1 harguments
    rw [writeCalls]
    refine ((htarget depth).bind ((writes_all hargument depth).bind
      ((ih htargets harguments).map _))).congr ?_ ?_
    · simp [renderCalls, Code.commaSeparated]
    · simp [renderCalls, Code.commaSeparated, Bool.or_assoc]

theorem writes_branches {branches : List (Branch Expr)}
    (hconditions : ∀ b ∈ branches, IsWritten b.condition)
    (hbodies : ∀ b ∈ branches, ∀ e ∈ b.body, IsWritten e) (depth : Nat) :
    Writes depth (writeBranches branches) ((renderBranches depth branches).map Code.bare)
      ((renderBranches depth branches).any Code.curries) := by
  induction branches with
  | nil =>
    rw [writeBranches]
    exact .pure []
  | cons b branches ih =>
    obtain ⟨hcondition, hconditions⟩ := List.forall_mem_cons.1 hconditions
    obtain ⟨hbody, hbodies⟩ := List.forall_mem_cons.1 hbodies
    rw [writeBranches]
    refine ((hcondition depth).bind ((writes_body hbody depth).bind
      ((ih hconditions hbodies).map _))).congr ?_ ?_
    · simp [renderBranches]
    · simp [renderBranches, Bool.or_assoc]

theorem writes_else {otherwise : Option (List Expr)}
    (h : ∀ e ∈ otherwise.getD [], IsWritten e) (depth : Nat) :
    Writes depth (writeElse otherwise) (renderElse depth otherwise).bare
      (renderElse depth otherwise).curries := by
  cases otherwise with
  | none =>
    rw [writeElse]
    exact .pure _
  | some body =>
    rw [writeElse]
    exact ((writes_body h depth).map _).congr (by simp [renderElse]) (by simp [renderElse])

/-- One pass of the generator writes the code of an expression, whatever it wrote before. -/
theorem isWritten (e : Expr) : IsWritten e := by
  induction e using Expr.induction_on_children with
  | h e ih =>
    intro depth
    cases e with
    | number | string | nil | identifier | error =>
      rw [write, render]
      exact (Writes.pure _).congr (by simp) (by simp)
    | boolean value =>
      rw [write, render]
      cases value <;> exact .pure _
    | array items =>
      have hitems : ∀ e ∈ items, IsWritten e := ih
      rw [write, render]
      exact ((writes_all hitems depth).map _).congr (by simp [Code.commaSeparated])
        (by simp [Code.commaSeparated])
    | unary op operand =>
      have hoperand : IsWritten operand := ih operand (by simp [Expr.children])
      rw [write, render]
      exact ((hoperand depth).map _).congr (by simp) (by simp)
    | binary op left right =>
      have hleft : IsWritten left := ih left (by simp [Expr.children])
      have hright : IsWritten right := ih right (by simp [Expr.children])
      rw [write, render]
      exact ((hleft depth).bind ((hright depth).map _)).congr (by simp) (by simp)
    | call callee arguments =>
      obtain ⟨hcallee, harguments⟩ := List.forall_mem_cons.1 ih
      rw [write, render]
      exact ((hcallee depth).bind ((writes_all harguments depth).map _)).congr
        (by simp [Code.commaSeparated]) (by simp [Code.commaSeparated])
    | chain receiver calls =>
      simp only [Expr.children, List.forall_mem_cons, List.forall_mem_flatMap] at ih
      obtain ⟨hreceiver, hcalls⟩ := ih
      have hcalls' := writes_calls (fun c hc ↦ (hcalls c hc).1) (fun c hc ↦ (hcalls c hc).2) depth
      rw [write, render]
      exact ((hreceiver depth).bind (hcalls'.map _)).congr (by simp) (by simp)
    | member target key =>
      have htarget : IsWritten target := ih target (by simp [Expr.children])
      have hkey : IsWritten key := ih key (by simp [Expr.children])
      rw [write, render]
      exact ((htarget depth).bind ((hkey depth).map _)).congr (by simp) (by simp)
    | constant name value =>
      have hvalue : IsWritten value := ih value (by simp [Expr.children])
      rw [write, render]
      exact ((hvalue depth).map _).congr (by simp) (by simp)
    | function name parameters body =>
      have hbody : ∀ e ∈ body, IsWritten e := ih
      rw [write, render]
      exact ((writes_body hbody depth).map _).congr (by simp) (by simp)
    | print value =>
      have hvalue : IsWritten value := ih value (by simp [Expr.children])
      rw [write, render]
      exact ((hvalue depth).map _).congr (by simp) (by simp)
    | block statements =>
      have hstatements : ∀ e ∈ statements, IsWritten e := ih
      rw [write, render]
      exact ((writes_body hstatements depth).map _).congr (by simp) (by simp)
    | closure parameters body =>
      have hbody : ∀ e ∈ body, IsWritten e := ih
      rw [write, render]
      have hclosure : Writes depth
          (absorb (closure parameters (JavaScript.block depth (renderLines (depth + 1) body)).bare))
          _ _ := .absorb _
      exact ((writes_body hbody depth).bind hclosure).congr (bare_closure_bare _ _)
        (by simp only [curries_closure, Code.curries_bare, Bool.false_or])
    | cond branches otherwise =>
      simp only [Expr.children, List.forall_mem_append, List.forall_mem_flatMap,
        List.forall_mem_cons] at ih
      obtain ⟨hbranches, hotherwise⟩ := ih
      have hchain := writes_branches (fun b hb ↦ (hbranches b hb).1) (fun b hb ↦ (hbranches b hb).2)
        (depth + 1)
      have helse := writes_else hotherwise (depth + 1)
      have hinside : Writes (depth + 1) (do
          return (← indentation) ++ Code.join " else " (← writeBranches branches) ++
            (← writeElse otherwise)) _ _ :=
        .bind .indentation (hchain.bind (helse.map _))
      rw [write, render]
      refine (hinside.deeper.bind (.map _ .indentation)).congr (Code.eq_bare ?_ ?_).symm ?_
      · simp [String.append_assoc, ← Code.bare_join]
      · simp
      · simp

/-- What the generator gives for an expression, and how it is then left: the depth is as before, and
the note is added. -/
theorem expression_eq (g : Generator) (e : Expr) :
    g.expression e = ((render g.depth e).text, g.noting (render g.depth e).curries) := by
  rw [expression, isWritten e g.depth g rfl]
  rfl

theorem block_eq (g : Generator) (statements : List Expr) :
    g.block statements =
      ((JavaScript.block g.depth (renderLines (g.depth + 1) statements)).text,
        g.noting (JavaScript.block g.depth (renderLines (g.depth + 1) statements)).curries) := by
  rw [Generator.block, writes_body (fun e _ ↦ isWritten e) g.depth g rfl]
  rfl

end Generator

end JavaScript

/-! ## Closures that rely on the helper -/

namespace Expr

/-- A closure of two or more parameters. -/
def isCurried : Expr → Bool
  | closure parameters _ => 1 < parameters.length
  | _ => false

/-- Such a closure stands somewhere in the expression. -/
def HoldsCurried (e : Expr) : Prop := ∃ d : Expr, (d = e ∨ d.Inside e) ∧ d.isCurried = true

/-- From the outermost expression inwards: the closure is the expression itself, or one of its parts
holds it. -/
theorem holdsCurried_iff {e : Expr} :
    e.HoldsCurried ↔ e.isCurried = true ∨ ∃ d ∈ e.children, d.HoldsCurried := by
  constructor
  · rintro ⟨c, rfl | hc, hcurried⟩
    · exact .inl hcurried
    · obtain ⟨d, hd, hcd⟩ := inside_iff.1 hc
      exact .inr ⟨d, hd, c, hcd, hcurried⟩
  · rintro (hcurried | ⟨d, hd, c, hcd, hcurried⟩)
    · exact ⟨e, .inl rfl, hcurried⟩
    · exact ⟨c, .inr (inside_iff.2 ⟨d, hd, hcd⟩), hcurried⟩

/-- Errors have no parts, so passing over them loses no closure. -/
theorem not_holdsCurried_of_isError {e : Expr} (h : e.isError = true) : ¬ e.HoldsCurried := by
  rw [holdsCurried_iff]
  cases e with
  | error => simp [isCurried, children]
  | _ => cases h

end Expr

namespace JavaScript

theorem renderAll_eq_map (depth : Nat) (es : List Expr) :
    renderAll depth es = es.map (render depth) := by
  induction es with
  | nil => rw [renderAll, List.map_nil]
  | cons e es ih => rw [renderAll, ih, List.map_cons]

/-- The lines of a body are those of its statements, errors left out. -/
theorem renderLines_eq_map (depth : Nat) (es : List Expr) :
    renderLines depth es =
      (es.filter (!·.isError)).map fun e ↦ ⟨render depth e, e.declaredName?⟩ := by
  induction es with
  | nil => rw [renderLines, List.filter_nil, List.map_nil]
  | cons e es ih => cases herror : e.isError <;> simp [renderLines, herror, ih]

/-- The code of the expression tells whether such a closure stands in it. -/
def Tells (e : Expr) : Prop := ∀ depth, (render depth e).curries = true ↔ e.HoldsCurried

theorem tells_all {es : List Expr} (h : ∀ e ∈ es, Tells e) (depth : Nat) :
    (renderAll depth es).any Code.curries = true ↔ ∃ e ∈ es, e.HoldsCurried := by
  rw [renderAll_eq_map, List.any_map, List.any_eq_true]
  exact exists_congr fun e ↦ and_congr_right fun he ↦ h e he depth

/-- Syntax errors are left out of a block, and no closure stands in them. -/
theorem tells_lines {es : List Expr} (h : ∀ e ∈ es, Tells e) (depth : Nat) :
    (renderLines depth es).any (·.code.curries) = true ↔ ∃ e ∈ es, e.HoldsCurried := by
  rw [renderLines_eq_map, List.any_map, List.any_eq_true]
  refine exists_congr fun e ↦ ?_
  rw [List.mem_filter, and_assoc]
  refine and_congr_right fun he ↦ ?_
  cases herror : e.isError with
  | false => simpa using h e he depth
  | true => simpa using Expr.not_holdsCurried_of_isError herror

theorem tells_calls {calls : List (ChainCall Expr)}
    (h : ∀ e ∈ calls.flatMap fun c ↦ c.target :: c.arguments, Tells e) (depth : Nat) :
    (renderCalls depth calls).curries = true ↔
      ∃ e ∈ calls.flatMap fun c ↦ c.target :: c.arguments, e.HoldsCurried := by
  induction calls with
  | nil => simp [renderCalls]
  | cons c calls ih =>
    simp only [List.flatMap_cons, List.forall_mem_append, List.forall_mem_cons] at h
    obtain ⟨⟨htarget, harguments⟩, hcalls⟩ := h
    simp only [renderCalls, Code.commaSeparated, Code.curries_append, Code.curries_parenthesized,
      Code.curries_join, curries_access, Bool.or_eq_true, htarget depth, tells_all harguments depth,
      ih hcalls, List.flatMap_cons, List.mem_append, List.mem_cons, or_and_right, exists_or,
      exists_eq_left]

/-- The condition and the body of each branch are told one by one. -/
theorem tells_branches {branches : List (Branch Expr)}
    (h : ∀ e ∈ branches.flatMap fun b ↦ b.condition :: b.body, Tells e) (depth : Nat) :
    (renderBranches depth branches).any Code.curries = true ↔
      ∃ e ∈ branches.flatMap fun b ↦ b.condition :: b.body, e.HoldsCurried := by
  induction branches with
  | nil => simp [renderBranches]
  | cons b branches ih =>
    simp only [List.flatMap_cons, List.forall_mem_append, List.forall_mem_cons] at h
    obtain ⟨⟨hcondition, hbody⟩, hbranches⟩ := h
    simp only [renderBranches, List.any_cons, Code.curries_append, curries_block, Bool.or_eq_true,
      Bool.false_or, Bool.or_false, hcondition depth, tells_lines hbody (depth + 1), ih hbranches,
      List.flatMap_cons, List.mem_append, List.mem_cons, or_and_right, exists_or, exists_eq_left]

theorem tells_else {otherwise : Option (List Expr)} (h : ∀ e ∈ otherwise.getD [], Tells e)
    (depth : Nat) :
    (renderElse depth otherwise).curries = true ↔ ∃ e ∈ otherwise.getD [], e.HoldsCurried := by
  cases otherwise with
  | none => simp [renderElse]
  | some body =>
    rw [renderElse, Code.curries_append, Bool.false_or, curries_block]
    exact tells_lines h (depth + 1)

/-- The code of an expression relies on the helper exactly if a closure in it does. -/
theorem tells (e : Expr) : Tells e := by
  induction e using Expr.induction_on_children with
  | h e ih =>
    intro depth
    rw [Expr.holdsCurried_iff]
    cases e with
    | number | string | nil | identifier | error => simp [render, Expr.isCurried, Expr.children]
    | boolean value => cases value <;> simp [render, Expr.isCurried, Expr.children]
    | array items =>
      have hitems := tells_all ih depth
      simpa [render, Code.commaSeparated, Expr.isCurried, Expr.children] using hitems
    | unary op operand =>
      have hoperand := ih operand (by simp [Expr.children]) depth
      simpa [render, Expr.isCurried, Expr.children] using hoperand
    | binary op left right =>
      have hleft := ih left (by simp [Expr.children]) depth
      have hright := ih right (by simp [Expr.children]) depth
      simp [render, Expr.isCurried, Expr.children, hleft, hright]
    | call callee arguments =>
      obtain ⟨hcallee, harguments⟩ := List.forall_mem_cons.1 ih
      simp only [render, Code.commaSeparated, Code.curries_append, curries_asTarget,
        Code.curries_parenthesized, Code.curries_join, Bool.or_eq_true, hcallee depth,
        tells_all harguments depth]
      simp [Expr.isCurried, Expr.children]
    | chain receiver calls =>
      obtain ⟨hreceiver, hcalls⟩ := List.forall_mem_cons.1 ih
      simp only [render, Code.curries_append, curries_asTarget, Bool.or_eq_true, hreceiver depth,
        tells_calls hcalls depth, Expr.isCurried, Expr.children, Bool.false_eq_true, false_or,
        List.mem_cons, or_and_right, exists_or, exists_eq_left]
    | member target key =>
      have htarget := ih target (by simp [Expr.children]) depth
      have hkey := ih key (by simp [Expr.children]) depth
      simp [render, Expr.isCurried, Expr.children, htarget, hkey]
    | constant name value | print value =>
      have hvalue := ih value (by simp [Expr.children]) depth
      simpa [render, Expr.isCurried, Expr.children] using hvalue
    | function name parameters body =>
      have hbody := tells_lines ih (depth + 1)
      simpa [render, Expr.isCurried, Expr.children] using hbody
    | block statements =>
      have hstatements := tells_lines ih (depth + 1)
      simpa [render, Expr.isCurried, Expr.children] using hstatements
    | closure parameters body =>
      have hbody := tells_lines ih (depth + 1)
      rw [render, curries_closure, curries_block, Bool.or_eq_true, or_comm, Expr.isCurried]
      exact or_congr Iff.rfl hbody
    | cond branches otherwise =>
      obtain ⟨hbranches, hotherwise⟩ := List.forall_mem_append.1 ih
      simp only [render, Code.curries_append, Code.curries_join, Bool.or_eq_true, Bool.false_or,
        Bool.or_false, tells_branches hbranches (depth + 1), tells_else hotherwise (depth + 1),
        Expr.isCurried, Expr.children, Bool.false_eq_true, false_or, List.mem_append, or_and_right,
        exists_or]

instance (e : Expr) : Decidable e.HoldsCurried := decidable_of_iff _ (tells e 0)

/-! ## Sequences of requests -/

namespace Generator

/-- What a generator may be asked to write. -/
inductive Request where
  | expression (e : Expr)
  | block (statements : List Expr)

namespace Request

/-- The expressions that are to be written. -/
def trees : Request → List Expr
  | expression e => [e]
  | block statements => statements

def answer (g : Generator) : Request → String × Generator
  | expression e => g.expression e
  | block statements => g.block statements

/-- The texts that one generator gives to requests in turn, and the generator after the last. -/
def answers (g : Generator) : List Request → List String × Generator
  | [] => ([], g)
  | request :: requests =>
    let (text, next) := request.answer g
    let (texts, last) := answers next requests
    (text :: texts, last)

/-- One request moves nothing but the note, and the note tells what stands in its trees. -/
theorem answer_eq (request : Request) (depth : Nat) : ∃ text curries,
    (∀ g : Generator, g.depth = depth → request.answer g = (text, g.noting curries)) ∧
      (curries = true ↔ ∃ e ∈ request.trees, e.HoldsCurried) := by
  cases request with
  | expression e =>
    refine ⟨(render depth e).text, (render depth e).curries, ?_, ?_⟩
    · rintro g rfl
      exact g.expression_eq e
    · simp [tells e depth, trees]
  | block statements =>
    let code := JavaScript.block depth (renderLines (depth + 1) statements)
    refine ⟨code.text, code.curries, ?_, ?_⟩
    · rintro g rfl
      exact g.block_eq statements
    · rw [curries_block]
      exact tells_lines (fun e _ ↦ tells e) (depth + 1)

/-- Over any number of requests, each is answered as by a generator that has written nothing. -/
theorem answers_eq (requests : List Request) (g : Generator) :
    (answers g requests).1 = requests.map (fun request ↦ (request.answer { depth := g.depth }).1) ∧
      ((answers g requests).2.needsCurry = true ↔
        g.needsCurry = true ∨ ∃ request ∈ requests, ∃ e ∈ request.trees, e.HoldsCurried) := by
  induction requests generalizing g with
  | nil => simp [answers]
  | cons request requests ih =>
    obtain ⟨text, curries, hanswer, hcurries⟩ := request.answer_eq g.depth
    obtain ⟨htexts, hneeds⟩ := ih (g.noting curries)
    rw [answers, hanswer g rfl, List.map_cons, hanswer { depth := g.depth } rfl]
    refine ⟨congrArg (text :: ·) htexts, hneeds.trans ?_⟩
    simp only [noting, Bool.or_eq_true, hcurries, or_assoc, List.mem_cons, or_and_right, exists_or,
      exists_eq_left]

end Request

end Generator

/-! ## Programs -/

theorem text_join (separator : String) (pieces : List Code) :
    (Code.join separator pieces).text = separator.intercalate (pieces.map Code.text) := by
  induction pieces with
  | nil => rfl
  | cons piece pieces ih =>
    cases pieces with
    | nil => exact String.intercalate_singleton.symm
    | cons next pieces =>
      rw [Code.join_cons_cons, Code.text_append, Code.text_append, ih]
      exact String.intercalate_cons_cons.symm

/-- Each statement as written by a generator that has written nothing before. -/
theorem text_statements (body : List Expr) :
    (statements body).text = "\n".intercalate
      ((body.filter (!·.isError)).map fun e ↦ (({} : Generator).expression e).1 ++ ";") := by
  rw [statements, text_join, renderLines_eq_map, List.map_map, List.map_map]
  refine congrArg _ (List.map_congr_left fun e _ ↦ ?_)
  rw [Generator.expression_eq]
  exact Code.text_append _ _

theorem curries_statements (body : List Expr) :
    (statements body).curries = true ↔ ∃ e ∈ body, e.HoldsCurried := by
  have hlines := tells_lines (fun e (_ : e ∈ body) ↦ tells e) 0
  simpa [statements, Function.comp_def] using hlines

namespace Generator

/-- The statements in turn, by one generator, and the generator after the last. What stands for an
error is passed over. -/
def writeStatements (g : Generator) : List Expr → List String × Generator
  | [] => ([], g)
  | e :: body =>
    if e.isError then writeStatements g body
    else
      let (text, next) := g.expression e
      let (texts, last) := writeStatements next body
      ((text ++ ";") :: texts, last)

/-- A whole program by one generator, which tells at the end whether the helper is needed. -/
def writeProgram (p : Program) : String :=
  let (texts, last) := writeStatements {} p.body
  if last.needsCurry then curryHelper ++ "\n" ++ "\n".intercalate texts else "\n".intercalate texts

/-- The texts depend on nothing but the depth, and the generator moves only its note. -/
theorem writeStatements_eq (g : Generator) (body : List Expr) :
    g.writeStatements body =
      ((renderLines g.depth body).map fun line ↦ (line.code ++ ";" : Code).text,
        g.noting ((renderLines g.depth body).any (·.code.curries))) := by
  induction body generalizing g with
  | nil => simp [writeStatements, renderLines, noting]
  | cons e body ih =>
    rw [writeStatements, renderLines]
    split
    · exact ih g
    · simp [expression_eq, ih, noting, Code.text_append, Bool.or_assoc]

end Generator

/-- Rendering the statements apart gives what one generator writes that goes through all of them. -/
theorem generate_eq_writeProgram (p : Program) : generate p = Generator.writeProgram p := by
  have htexts : (statements p.body).text =
      "\n".intercalate ((renderLines 0 p.body).map fun line ↦ (line.code ++ ";" : Code).text) := by
    rw [statements, text_join, List.map_map]
    rfl
  have hcurries : (statements p.body).curries = (renderLines 0 p.body).any (·.code.curries) := by
    simp [statements, Function.comp_def]
  rw [generate, Generator.writeProgram, Generator.writeStatements_eq]
  simp only [Generator.noting, Bool.false_or, htexts, hcurries]

end JavaScript

open JavaScript in
/-- A program is generated statement by statement, with the helper in front exactly if a closure in
it has two parameters or more. Likewise, each of a sequence of requests to one generator is answered
as by a new one, and the generator then tells whether such a closure has been written. -/
theorem generate_statementwise (p : Program) (requests : List Generator.Request) :
    generate p =
        (if ∃ e ∈ p.body, e.HoldsCurried then curryHelper ++ "\n" else "") ++
          "\n".intercalate
            ((p.body.filter (!·.isError)).map fun e ↦ (({} : Generator).expression e).1 ++ ";") ∧
      (Generator.Request.answers {} requests).1 =
        requests.map (fun request ↦ (request.answer {}).1) ∧
      ((Generator.Request.answers {} requests).2.needsCurry = true ↔
        ∃ request ∈ requests, ∃ e ∈ request.trees, e.HoldsCurried) := by
  obtain ⟨htexts, hneeds⟩ := Generator.Request.answers_eq requests {}
  refine ⟨?_, htexts, by simpa using hneeds⟩
  rw [generate, ← text_statements]
  by_cases hcurries : ∃ e ∈ p.body, e.HoldsCurried
  · rw [if_pos ((curries_statements p.body).2 hcurries), if_pos hcurries]
  · rw [if_neg (mt (curries_statements p.body).1 hcurries), if_neg hcurries, String.empty_append]

end Lispette
