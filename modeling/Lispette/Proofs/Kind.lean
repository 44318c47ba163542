import Lispette.Proofs.Shape

/-!
# Kinds of expressions

Trees and data name the kind of every expression with one word. No two kinds share a word, so the
word tells which form an expression has, and only expressions of one form need to be compared.
-/

namespace Lispette

inductive Kind where
  | number | string | boolean | nil | array | identifier | unary | binary | call | chain | member
  | constant | function | print | block | closure | cond | error
deriving DecidableEq, Repr

namespace Kind

def all : List Kind :=
  [number, string, boolean, nil, array, identifier, unary, binary, call, chain, member, constant,
    function, print, block, closure, cond, error]

/-- The word for the kind. -/
def name : Kind → String
  | number => "Number"
  | string => "String"
  | boolean => "Boolean"
  | nil => "Nil"
  | array => "Array"
  | identifier => "Identifier"
  | unary => "UnaryOp"
  | binary => "BinaryOp"
  | call => "Call"
  | chain => "MethodCallChain"
  | member => "Member"
  | constant => "VariableDecl"
  | function => "FunctionDecl"
  | print => "Print"
  | block => "Block"
  | closure => "Function"
  | cond => "Cond"
  | error => "ParseError"

theorem mem_all (k : Kind) : k ∈ all := by cases k <;> decide

theorem name_inj {k k' : Kind} (h : k.name = k'.name) : k = k' := by
  have hall : ∀ k ∈ all, ∀ k' ∈ all, k.name = k'.name → k = k' := by decide
  exact hall k k.mem_all k' k'.mem_all h

end Kind

namespace Expr

def kind : Expr → Kind
  | number _ => .number
  | string _ => .string
  | boolean _ => .boolean
  | nil => .nil
  | array _ => .array
  | identifier _ => .identifier
  | unary .. => .unary
  | binary .. => .binary
  | call .. => .call
  | chain .. => .chain
  | member .. => .member
  | constant .. => .constant
  | function .. => .function
  | print _ => .print
  | block _ => .block
  | closure .. => .closure
  | cond .. => .cond
  | error _ => .error

/-- What holds of any two expressions of the same form holds of any two of one kind. -/
@[elab_as_elim]
theorem cases_of_kind_eq {motive : (e e' : Expr) → e.kind = e'.kind → Prop}
    (number : ∀ value value', motive (.number value) (.number value') rfl)
    (string : ∀ text text', motive (.string text) (.string text') rfl)
    (boolean : ∀ value value', motive (.boolean value) (.boolean value') rfl)
    (nil : motive .nil .nil rfl)
    (array : ∀ items items', motive (.array items) (.array items') rfl)
    (identifier : ∀ name name', motive (.identifier name) (.identifier name') rfl)
    (unary : ∀ op operand op' operand', motive (.unary op operand) (.unary op' operand') rfl)
    (binary : ∀ op left right op' left' right',
      motive (.binary op left right) (.binary op' left' right') rfl)
    (call : ∀ callee arguments callee' arguments',
      motive (.call callee arguments) (.call callee' arguments') rfl)
    (chain : ∀ receiver calls receiver' calls',
      motive (.chain receiver calls) (.chain receiver' calls') rfl)
    (member : ∀ target key target' key', motive (.member target key) (.member target' key') rfl)
    (constant : ∀ name value name' value',
      motive (.constant name value) (.constant name' value') rfl)
    (function : ∀ name parameters body name' parameters' body',
      motive (.function name parameters body) (.function name' parameters' body') rfl)
    (print : ∀ value value', motive (.print value) (.print value') rfl)
    (block : ∀ statements statements', motive (.block statements) (.block statements') rfl)
    (closure : ∀ parameters body parameters' body',
      motive (.closure parameters body) (.closure parameters' body') rfl)
    (cond : ∀ branches otherwise branches' otherwise',
      motive (.cond branches otherwise) (.cond branches' otherwise') rfl)
    (error : ∀ error error', motive (.error error) (.error error') rfl)
    (e e' : Expr) (h : e.kind = e'.kind) :
    motive e e' h := by
  cases e with
  | number =>
    cases e' with
    | number => apply number
    | _ => cases h
  | string =>
    cases e' with
    | string => apply string
    | _ => cases h
  | boolean =>
    cases e' with
    | boolean => apply boolean
    | _ => cases h
  | nil =>
    cases e' with
    | nil => apply nil
    | _ => cases h
  | array =>
    cases e' with
    | array => apply array
    | _ => cases h
  | identifier =>
    cases e' with
    | identifier => apply identifier
    | _ => cases h
  | unary =>
    cases e' with
    | unary => apply unary
    | _ => cases h
  | binary =>
    cases e' with
    | binary => apply binary
    | _ => cases h
  | call =>
    cases e' with
    | call => apply call
    | _ => cases h
  | chain =>
    cases e' with
    | chain => apply chain
    | _ => cases h
  | member =>
    cases e' with
    | member => apply member
    | _ => cases h
  | constant =>
    cases e' with
    | constant => apply constant
    | _ => cases h
  | function =>
    cases e' with
    | function => apply function
    | _ => cases h
  | print =>
    cases e' with
    | print => apply print
    | _ => cases h
  | block =>
    cases e' with
    | block => apply block
    | _ => cases h
  | closure =>
    cases e' with
    | closure => apply closure
    | _ => cases h
  | cond =>
    cases e' with
    | cond => apply cond
    | _ => cases h
  | error =>
    cases e' with
    | error => apply error
    | _ => cases h

/-! ## Parts in lists -/

/-- A list is told by its images where each of its members is. -/
theorem eq_of_map_eq {α β : Type} {f : α → β} {items items' : List α}
    (htold : ∀ a ∈ items, ∀ a' ∈ items', f a = f a' → a = a') (h : items.map f = items'.map f) :
    items = items' := by
  induction items generalizing items' with
  | nil => exact (List.map_eq_nil_iff.1 h.symm).symm
  | cons a items ih =>
    obtain ⟨a', items', rfl, hfirst, hmore⟩ := List.map_eq_cons_iff.1 h.symm
    rw [htold a (by simp) a' (by simp) hfirst.symm, ih ?_ hmore.symm]
    exact fun b hb b' hb' ↦ htold b (by simp [hb]) b' (by simp [hb'])

/-- The children of a chain are its receiver and, call by call, the target and the arguments. -/
theorem forall_children_chain {P : Expr → Prop} {receiver : Expr} {calls : List (ChainCall Expr)} :
    (∀ d ∈ (chain receiver calls).children, P d) ↔
      P receiver ∧ ∀ c ∈ calls, P c.target ∧ ∀ d ∈ c.arguments, P d := by
  simp only [children, List.forall_mem_cons, List.forall_mem_flatMap]

theorem forall_children_cond {P : Expr → Prop} {branches : List (Branch Expr)}
    {otherwise : Option (List Expr)} :
    (∀ d ∈ (cond branches otherwise).children, P d) ↔
      (∀ b ∈ branches, P b.condition ∧ ∀ d ∈ b.body, P d) ∧
        ∀ body ∈ otherwise, ∀ d ∈ body, P d := by
  have hotherwise : (∀ d ∈ otherwise.getD [], P d) ↔ ∀ body ∈ otherwise, ∀ d ∈ body, P d := by
    cases otherwise <;> simp
  rw [← hotherwise]
  simp only [children, List.forall_mem_append, List.forall_mem_flatMap, List.forall_mem_cons]

end Expr

end Lispette
