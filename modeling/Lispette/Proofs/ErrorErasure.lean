import Lispette.Proofs.GeneratorState

/-!
# Programs without their errors

Where a statement could not be read, its error stands among the statements around it. Errors leave
no text, so they can be taken out of all lists of statements, at every depth, and the code stays the
same. That holds at the end of a body as well, where the last statement yields the value: which
statement is the last is decided among those that are no errors.
-/

namespace Lispette

namespace Expr

/-! ## Erasing errors -/

mutual

/-- The expression without the errors among the statements of its bodies. An error that stands in
any other place is kept. -/
def erase : Expr → Expr
  | number value => number value
  | string text => string text
  | boolean value => boolean value
  | nil => nil
  | array items => array (eraseAll items)
  | identifier name => identifier name
  | unary op operand => unary op (erase operand)
  | binary op left right => binary op (erase left) (erase right)
  | call callee arguments => call (erase callee) (eraseAll arguments)
  | chain receiver calls => chain (erase receiver) (eraseCalls calls)
  | member target key => member (erase target) (erase key)
  | constant name value => constant name (erase value)
  | function name parameters body => function name parameters (eraseStatements body)
  | print value => print (erase value)
  | block statements => block (eraseStatements statements)
  | closure parameters body => closure parameters (eraseStatements body)
  | cond branches otherwise => cond (eraseBranches branches) (eraseElse otherwise)
  | error e => error e

def eraseAll : List Expr → List Expr
  | [] => []
  | e :: es => erase e :: eraseAll es

/-- Those of the statements that are no errors. -/
def eraseStatements : List Expr → List Expr
  | [] => []
  | e :: es => if e.isError then eraseStatements es else erase e :: eraseStatements es

def eraseCalls : List (ChainCall Expr) → List (ChainCall Expr)
  | [] => []
  | ⟨target, arguments⟩ :: calls => ⟨erase target, eraseAll arguments⟩ :: eraseCalls calls

def eraseBranches : List (Branch Expr) → List (Branch Expr)
  | [] => []
  | ⟨condition, body⟩ :: branches =>
    ⟨erase condition, eraseStatements body⟩ :: eraseBranches branches

def eraseElse : Option (List Expr) → Option (List Expr)
  | none => none
  | some body => some (eraseStatements body)

end

attribute [simp] erase eraseAll eraseStatements eraseCalls eraseBranches eraseElse

theorem eraseAll_eq_map (es : List Expr) : eraseAll es = es.map erase := by
  induction es with
  | nil => rw [eraseAll, List.map_nil]
  | cons e es ih => rw [eraseAll, ih, List.map_cons]

/-- Among statements, errors are left out; everything else stays in its place. -/
theorem eraseStatements_eq_map (es : List Expr) :
    eraseStatements es = (es.filter (!·.isError)).map erase := by
  induction es with
  | nil => rw [eraseStatements, List.filter_nil, List.map_nil]
  | cons e es ih => cases herror : e.isError <;> simp [eraseStatements, herror, ih]

theorem eraseCalls_eq_map (calls : List (ChainCall Expr)) :
    eraseCalls calls = calls.map fun c ↦ ⟨c.target.erase, eraseAll c.arguments⟩ := by
  induction calls with
  | nil => rw [eraseCalls, List.map_nil]
  | cons c calls ih => rw [eraseCalls, ih, List.map_cons]

theorem eraseBranches_eq_map (branches : List (Branch Expr)) :
    eraseBranches branches =
      branches.map fun b ↦ ⟨b.condition.erase, eraseStatements b.body⟩ := by
  induction branches with
  | nil => rw [eraseBranches, List.map_nil]
  | cons b branches ih => rw [eraseBranches, ih, List.map_cons]

theorem eraseElse_eq_map (otherwise : Option (List Expr)) :
    eraseElse otherwise = otherwise.map eraseStatements := by
  cases otherwise <;> simp [eraseElse]

/-- Erasing does not turn anything into an error, or an error into anything else. -/
@[simp] theorem isError_erase (e : Expr) : e.erase.isError = e.isError := by
  cases e <;> simp [erase, isError, error?]

@[simp] theorem declaredName?_erase (e : Expr) : e.erase.declaredName? = e.declaredName? := by
  cases e <;> simp [erase, declaredName?]

/-! ## No error is left -/

/-- The lists of statements that the expression itself holds. -/
def bodies : Expr → List (List Expr)
  | function _ _ body | block body | closure _ body => [body]
  | cond branches otherwise => branches.map Branch.body ++ otherwise.toList
  | _ => []

/-- No error stands among the statements of the expression's own bodies. -/
def HasCleanBodies (e : Expr) : Prop := ∀ body ∈ e.bodies, ∀ s ∈ body, s.isError = false

theorem isError_of_mem_eraseStatements {es : List Expr} {e : Expr}
    (h : e ∈ eraseStatements es) : e.isError = false := by
  rw [eraseStatements_eq_map] at h
  obtain ⟨d, hd, rfl⟩ := List.mem_map.1 h
  simpa using (List.mem_filter.1 hd).2

/-- All bodies go through `eraseStatements`, whatever they belong to. -/
theorem hasCleanBodies_erase (e : Expr) : e.erase.HasCleanBodies := by
  intro body hbody s hs
  obtain ⟨es, rfl⟩ : ∃ es, body = eraseStatements es := by
    cases e with
    | function | block | closure =>
      rw [erase] at hbody
      exact ⟨_, List.mem_singleton.1 hbody⟩
    | cond branches otherwise =>
      rw [erase, eraseBranches_eq_map, eraseElse_eq_map] at hbody
      simp only [bodies, List.mem_append, List.map_map, List.mem_map, Option.mem_toList,
        Option.map_eq_some_iff] at hbody
      rcases hbody with ⟨b, -, rfl⟩ | ⟨body, -, rfl⟩
      · exact ⟨b.body, rfl⟩
      · exact ⟨body, rfl⟩
    | _ =>
      rw [erase] at hbody
      exact absurd hbody List.not_mem_nil
  exact isError_of_mem_eraseStatements hs

theorem exists_of_mem_eraseAll {es : List Expr} {d : Expr} (h : d ∈ eraseAll es) :
    ∃ c ∈ es, d = c.erase := by
  rw [eraseAll_eq_map] at h
  obtain ⟨c, hc, rfl⟩ := List.mem_map.1 h
  exact ⟨c, hc, rfl⟩

theorem exists_of_mem_eraseStatements {es : List Expr} {d : Expr} (h : d ∈ eraseStatements es) :
    ∃ c ∈ es, d = c.erase := by
  rw [eraseStatements_eq_map] at h
  obtain ⟨c, hc, rfl⟩ := List.mem_map.1 h
  exact ⟨c, (List.mem_filter.1 hc).1, rfl⟩

/-- What is left of an expression is composed of what is left of its children. -/
theorem exists_of_mem_children_erase {d e : Expr} (h : d ∈ e.erase.children) :
    ∃ c ∈ e.children, d = c.erase := by
  cases e with
  | number | string | boolean | nil | identifier | error =>
    rw [erase] at h
    exact absurd h List.not_mem_nil
  | array items =>
    rw [erase] at h
    exact exists_of_mem_eraseAll h
  | unary | constant | print =>
    rw [erase] at h
    exact ⟨_, List.mem_singleton_self _, List.mem_singleton.1 h⟩
  | binary left right | member left right =>
    rw [erase] at h
    simpa [children] using h
  | call callee arguments =>
    rw [erase] at h
    rcases List.mem_cons.1 h with rfl | h
    · exact ⟨callee, List.mem_cons_self, rfl⟩
    · obtain ⟨c, hc, rfl⟩ := exists_of_mem_eraseAll h
      exact ⟨c, List.mem_cons_of_mem _ hc, rfl⟩
  | chain receiver calls =>
    rw [erase, eraseCalls_eq_map] at h
    simp only [children, List.mem_cons, List.mem_flatMap, List.mem_map] at h ⊢
    rcases h with rfl | ⟨_, ⟨c, hc, rfl⟩, rfl | h⟩
    · exact ⟨receiver, .inl rfl, rfl⟩
    · exact ⟨c.target, .inr ⟨c, hc, .inl rfl⟩, rfl⟩
    · obtain ⟨a, ha, rfl⟩ := exists_of_mem_eraseAll h
      exact ⟨a, .inr ⟨c, hc, .inr ha⟩, rfl⟩
  | function _ _ body | block body | closure _ body =>
    rw [erase] at h
    exact exists_of_mem_eraseStatements h
  | cond branches otherwise =>
    rw [erase, eraseBranches_eq_map, eraseElse_eq_map] at h
    simp only [children, List.mem_append, List.mem_flatMap, List.mem_map, List.mem_cons] at h ⊢
    rcases h with ⟨_, ⟨b, hb, rfl⟩, rfl | h⟩ | h
    · exact ⟨b.condition, .inl ⟨b, hb, .inl rfl⟩, rfl⟩
    · obtain ⟨s, hs, rfl⟩ := exists_of_mem_eraseStatements h
      exact ⟨s, .inl ⟨b, hb, .inr hs⟩, rfl⟩
    · cases otherwise with
      | none => exact absurd h List.not_mem_nil
      | some body =>
        obtain ⟨s, hs, rfl⟩ := exists_of_mem_eraseStatements h
        exact ⟨s, .inr hs, rfl⟩

/-- By induction on the expression, since its parts have been erased in the same way. -/
theorem everywhere_hasCleanBodies_erase (e : Expr) : e.erase.Everywhere HasCleanBodies := by
  induction e using induction_on_children with
  | h e ih =>
    refine everywhere_iff.2 ⟨e.hasCleanBodies_erase, fun d hd ↦ ?_⟩
    obtain ⟨c, hc, rfl⟩ := exists_of_mem_children_erase hd
    exact ih c hc

end Expr

/-! ## The code stays the same -/

namespace JavaScript

open Lispette.Expr

/-- Erasing leaves the form of an expression, and so the parentheses around it. -/
theorem asOperand_erase (e : Expr) (code : Code) : asOperand e.erase code = asOperand e code := by
  cases e <;> rw [erase] <;> rfl

theorem asTarget_erase (e : Expr) (code : Code) : asTarget e.erase code = asTarget e code := by
  cases e <;> rw [erase] <;> rfl

theorem access_erase (key : Expr) (code : Code) : access key.erase code = access key code := by
  cases key <;> rw [erase] <;> rfl

/-- The expression has the same code without its errors. -/
def KeepsCode (e : Expr) : Prop := ∀ depth, render depth e.erase = render depth e

theorem renderAll_erase {es : List Expr} (h : ∀ e ∈ es, KeepsCode e) (depth : Nat) :
    renderAll depth (eraseAll es) = renderAll depth es := by
  rw [renderAll_eq_map, renderAll_eq_map, eraseAll_eq_map, List.map_map]
  exact List.map_congr_left fun e he ↦ h e he depth

/-- The lines of a body are those of its statements that are no errors, with or without errors
between them. -/
theorem renderLines_erase {es : List Expr} (h : ∀ e ∈ es, KeepsCode e) (depth : Nat) :
    renderLines depth (eraseStatements es) = renderLines depth es := by
  induction es with
  | nil => rw [eraseStatements]
  | cons e es ih =>
    obtain ⟨he, hes⟩ := List.forall_mem_cons.1 h
    cases herror : e.isError with
    | true => simp [eraseStatements, renderLines, herror, ih hes]
    | false => simp [eraseStatements, renderLines, herror, ih hes, he depth]

/-- The calls of a chain, by induction on the list of them. -/
theorem renderCalls_erase {calls : List (ChainCall Expr)}
    (h : ∀ e ∈ calls.flatMap fun c ↦ c.target :: c.arguments, KeepsCode e) (depth : Nat) :
    renderCalls depth (eraseCalls calls) = renderCalls depth calls := by
  induction calls with
  | nil => rw [eraseCalls]
  | cons c calls ih =>
    simp only [List.flatMap_cons, List.forall_mem_append, List.forall_mem_cons] at h
    obtain ⟨⟨htarget, harguments⟩, hcalls⟩ := h
    rw [eraseCalls, renderCalls, renderCalls, access_erase, htarget depth,
      renderAll_erase harguments, ih hcalls]

theorem renderBranches_erase {branches : List (Branch Expr)}
    (h : ∀ e ∈ branches.flatMap fun b ↦ b.condition :: b.body, KeepsCode e) (depth : Nat) :
    renderBranches depth (eraseBranches branches) = renderBranches depth branches := by
  induction branches with
  | nil => rw [eraseBranches]
  | cons b branches ih =>
    simp only [List.flatMap_cons, List.forall_mem_append, List.forall_mem_cons] at h
    obtain ⟨⟨hcondition, hbody⟩, hbranches⟩ := h
    rw [eraseBranches, renderBranches, renderBranches, hcondition depth, renderLines_erase hbody,
      ih hbranches]

theorem renderElse_erase {otherwise : Option (List Expr)}
    (h : ∀ e ∈ otherwise.getD [], KeepsCode e) (depth : Nat) :
    renderElse depth (eraseElse otherwise) = renderElse depth otherwise := by
  cases otherwise with
  | none => rw [eraseElse]
  | some body =>
    have hbody : ∀ e ∈ body, KeepsCode e := h
    rw [eraseElse, renderElse, renderElse, renderLines_erase hbody]

/-- Generated code passes over errors among statements, so that leaving them out does not change it.
Errors elsewhere stay, and so does their empty code. -/
theorem keepsCode (e : Expr) : KeepsCode e := by
  induction e using Expr.induction_on_children with
  | h e ih =>
    intro depth
    cases e with
    | number | string | boolean | nil | identifier | error => rw [erase]
    | array items =>
      have hitems : ∀ e ∈ items, KeepsCode e := ih
      rw [erase, render, render, renderAll_erase hitems]
    | unary op operand =>
      have hoperand : KeepsCode operand := ih operand (by simp [children])
      rw [erase, render, render, asOperand_erase, hoperand depth]
    | binary op left right =>
      have hleft : KeepsCode left := ih left (by simp [children])
      have hright : KeepsCode right := ih right (by simp [children])
      rw [erase, render, render, asOperand_erase, asOperand_erase, hleft depth, hright depth]
    | call callee arguments =>
      obtain ⟨hcallee, harguments⟩ := List.forall_mem_cons.1 ih
      rw [erase, render, render, asTarget_erase, hcallee depth, renderAll_erase harguments]
    | chain receiver calls =>
      obtain ⟨hreceiver, hcalls⟩ := List.forall_mem_cons.1 ih
      rw [erase, render, render, asTarget_erase, hreceiver depth, renderCalls_erase hcalls]
    | member target key =>
      have htarget : KeepsCode target := ih target (by simp [children])
      have hkey : KeepsCode key := ih key (by simp [children])
      rw [erase, render, render, asTarget_erase, access_erase, htarget depth, hkey depth]
    | constant name value | print value =>
      have hvalue : KeepsCode value := ih value (by simp [children])
      rw [erase, render, render, hvalue depth]
    | function name parameters body | block body | closure parameters body =>
      have hbody : ∀ e ∈ body, KeepsCode e := ih
      rw [erase, render, render, renderLines_erase hbody]
    | cond branches otherwise =>
      obtain ⟨hbranches, hotherwise⟩ := List.forall_mem_append.1 ih
      rw [erase, render, render, renderBranches_erase hbranches, renderElse_erase hotherwise]

end JavaScript

namespace Program

/-- The program without the errors among its statements and in all bodies. -/
def eraseErrors (p : Program) : Program := ⟨Expr.eraseStatements p.body⟩

end Program

/-- Without its errors a program holds none among its statements, at any depth, and has the same
code, helper included. -/
theorem generate_eraseErrors (p : Program) :
    (∀ e ∈ p.eraseErrors.body, e.isError = false ∧ e.Everywhere Expr.HasCleanBodies) ∧
      generate p.eraseErrors = generate p := by
  constructor
  · intro e he
    refine ⟨Expr.isError_of_mem_eraseStatements he, ?_⟩
    obtain ⟨c, -, rfl⟩ := Expr.exists_of_mem_eraseStatements he
    exact c.everywhere_hasCleanBodies_erase
  · have hlines := JavaScript.renderLines_erase (fun e (_ : e ∈ p.body) ↦ JavaScript.keepsCode e) 0
    have hstatements : JavaScript.statements p.eraseErrors.body = JavaScript.statements p.body := by
      rw [JavaScript.statements, Program.eraseErrors, hlines, JavaScript.statements]
    rw [generate, hstatements, generate]

end Lispette
