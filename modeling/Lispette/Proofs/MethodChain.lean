import Lispette.Proofs.GeneratorState

/-!
# Chains as nested calls

A method chain says the same as calls that are nested in each other: each call of the chain calls a
member of all that stands before it. The two are written in different ways. The calls of a chain are
written one after the other behind the receiver, and nested calls from the inside out, where each
asks anew whether what it is attached to needs parentheses. Only the receiver can need them, since
everything after it is a call or a member already.
-/

namespace Lispette

/-- One call of a chain, attached to what stands before it. -/
def ChainCall.attach (e : Expr) (c : ChainCall Expr) : Expr :=
  .call (.member e c.target) c.arguments

namespace JavaScript

theorem render_attach (depth : Nat) (e : Expr) (c : ChainCall Expr) :
    render depth (c.attach e) =
      asTarget e (render depth e) ++ access c.target (render depth c.target) ++
        (Code.commaSeparated (renderAll depth c.arguments)).parenthesized := by
  rw [ChainCall.attach, render, render]
  rfl

theorem renderCalls_cons (depth : Nat) (c : ChainCall Expr) (calls : List (ChainCall Expr)) :
    renderCalls depth (c :: calls) =
      access c.target (render depth c.target) ++
        (Code.commaSeparated (renderAll depth c.arguments)).parenthesized ++
          renderCalls depth calls := by
  rw [renderCalls]

/-- Calls nested around a receiver are written behind it as the calls of a chain are. -/
theorem render_foldl_attach (depth : Nat) (receiver : Expr) (c : ChainCall Expr)
    (calls : List (ChainCall Expr)) :
    render depth ((c :: calls).foldl ChainCall.attach receiver) =
      asTarget receiver (render depth receiver) ++ renderCalls depth (c :: calls) := by
  induction calls generalizing receiver c with
  | nil =>
    have hempty (code : Code) : code ++ ("" : Code) = code :=
      Code.ext (by simp) (by simp)
    rw [List.foldl_cons, List.foldl_nil, render_attach, renderCalls_cons, renderCalls, hempty,
      Code.append_assoc]
  | cons next calls ih =>
    have hcall (code : Code) : asTarget (c.attach receiver) code = code := rfl
    calc
      render depth ((c :: next :: calls).foldl ChainCall.attach receiver)
      _ = render depth ((next :: calls).foldl ChainCall.attach (c.attach receiver)) := rfl
      _ = render depth (c.attach receiver) ++ renderCalls depth (next :: calls) := by
        rw [ih, hcall]
      _ = asTarget receiver (render depth receiver) ++ renderCalls depth (c :: next :: calls) := by
        rw [render_attach, renderCalls_cons depth c, Code.append_assoc, Code.append_assoc,
          Code.append_assoc]

namespace Generator

/-- A chain of calls is written as the calls nested around its receiver, and leaves the generator
as they do. -/
theorem expression_chain (g : Generator) (receiver : Expr) (calls : List (ChainCall Expr))
    (h : calls ≠ []) :
    g.expression (.chain receiver calls) =
      g.expression (calls.foldl ChainCall.attach receiver) := by
  obtain ⟨c, calls, rfl⟩ := List.exists_cons_of_ne_nil h
  have hcode : render g.depth (.chain receiver (c :: calls)) =
      render g.depth ((c :: calls).foldl ChainCall.attach receiver) := by
    rw [render, render_foldl_attach]
  rw [g.expression_eq, g.expression_eq, hcode]

/-- A closure is called on a number: the number keeps its parentheses, and the helper is noted. -/
theorem expression_chain_number :
    let receiver : Expr := .number (.finite false 0)
    let curried : Expr := .closure ["a", "b"] []
    let calls : List (ChainCall Expr) := [⟨.identifier "f", [curried]⟩, ⟨.string "k", []⟩]
    calls ≠ [] ∧ Generator.expression {} (.chain receiver calls) =
      Generator.expression {} (calls.foldl ChainCall.attach receiver) ∧
        Generator.expression {} (.chain receiver calls) =
          ("(0).f(__curry((a, b) => \x7b\x7d))[\"k\"]()", { needsCurry := true }) := by
  intro receiver curried calls
  have hne : calls ≠ [] := List.cons_ne_nil _ _
  exact ⟨hne, expression_chain {} receiver calls hne, by decide +kernel⟩

end Generator

end JavaScript

end Lispette
