import Mathlib.Logic.Relation
import Lispette.Language.Expr
import Lispette.Language.Keyword
import Lispette.Text.Lexeme

/-!
# The shape of programs

One type covers all expressions, but not every expression may stand everywhere. A well-shaped
program keeps definitions and output to statement position, operators out of the places to which a
key or arguments are attached, and its names, texts and numbers to those that can be written.
-/

namespace Lispette

/-- A letter or underscore, then letters, digits and underscores, and not a reserved word. -/
def isName (word : String) : Bool :=
  match word.toList with
  | [] => false
  | c :: cs => Text.isNameStart c && cs.all Text.isNameChar && !isReserved word

/-- The inside of a string literal: neither quote, backslash nor newline, except that a backslash
may stand before any character other than a newline. -/
inductive IsStringBody : List Char → Prop where
  | nil : IsStringBody []
  | plain {c : Char} {cs : List Char} : c ≠ '"' → c ≠ '\\' → c ≠ '\n' → IsStringBody cs →
    IsStringBody (c :: cs)
  | escape {c : Char} {cs : List Char} : c ≠ '\n' → IsStringBody cs →
    IsStringBody ('\\' :: c :: cs)

/-- The places in which an expression can stand, from the least to the most demanding. -/
inductive Place where
  | statement
  | expression
  | member
  | primary
deriving DecidableEq, Repr

/-- The expression may stand in the given place. -/
inductive Expr.WellShaped : Place → Expr → Prop where
  | number (code : Fin Binary64.finiteCodes) : WellShaped .primary (.number (.finite false code))
  | string {text : String} : IsStringBody text.toList → WellShaped .primary (.string text)
  | boolean (value : Bool) : WellShaped .primary (.boolean value)
  | nil : WellShaped .primary .nil
  | array {items : List Expr} : (∀ e ∈ items, WellShaped .expression e) →
    WellShaped .primary (.array items)
  | identifier {name : String} : isName name = true → name ≠ "true" → name ≠ "false" →
    WellShaped .primary (.identifier name)
  | cond {branches : List (Branch Expr)} {otherwise : Option (List Expr)} : branches ≠ [] →
    (∀ b ∈ branches, WellShaped .expression b.condition) →
    (∀ b ∈ branches, ∀ e ∈ b.body, WellShaped .statement e) →
    (∀ body ∈ otherwise, ∀ e ∈ body, WellShaped .statement e) →
    WellShaped .primary (.cond branches otherwise)
  | closure {parameters : List String} {body : List Expr} :
    (∀ name ∈ parameters, isName name = true) → (∀ e ∈ body, WellShaped .statement e) →
    WellShaped .primary (.closure parameters body)
  | binary {op : BinaryOperator} {left right : Expr} : WellShaped .expression left →
    WellShaped .expression right → WellShaped .primary (.binary op left right)
  | chain {receiver : Expr} {calls : List (ChainCall Expr)} : WellShaped .expression receiver →
    (∀ c ∈ calls, WellShaped .member c.target) →
    (∀ c ∈ calls, ∀ e ∈ c.arguments, WellShaped .expression e) →
    WellShaped .primary (.chain receiver calls)
  | block {statements : List Expr} : (∀ e ∈ statements, WellShaped .statement e) →
    WellShaped .primary (.block statements)
  | call {callee : Expr} {arguments : List Expr} : WellShaped .member callee →
    (∀ e ∈ arguments, WellShaped .expression e) → WellShaped .primary (.call callee arguments)
  | member {target key : Expr} : WellShaped .member target → WellShaped .primary key →
    WellShaped .member (.member target key)
  | ofPrimary {e : Expr} : WellShaped .primary e → WellShaped .member e
  | unary {op : UnaryOperator} {operand : Expr} : WellShaped .expression operand →
    WellShaped .expression (.unary op operand)
  | ofMember {e : Expr} : WellShaped .member e → WellShaped .expression e
  | constant {name : String} {value : Expr} : isName name = true → WellShaped .expression value →
    WellShaped .statement (.constant name value)
  | function {name : String} {parameters : List String} {body : List Expr} : isName name = true →
    (∀ name ∈ parameters, isName name = true) → (∀ e ∈ body, WellShaped .statement e) →
    WellShaped .statement (.function name parameters body)
  | print {value : Expr} : WellShaped .expression value → WellShaped .statement (.print value)
  | ofExpression {e : Expr} : WellShaped .expression e → WellShaped .statement e

/-- A program of at least one statement, all of them well-shaped. -/
def Program.WellShaped (p : Program) : Prop :=
  p.body ≠ [] ∧ ∀ e ∈ p.body, e.WellShaped .statement

namespace Expr

/-! ## What stands inside an expression -/

/-- The expressions of which an expression is directly composed. -/
def children : Expr → List Expr
  | number _ | string _ | boolean _ | nil | identifier _ | error _ => []
  | array items => items
  | unary _ operand => [operand]
  | binary _ left right => [left, right]
  | call callee arguments => callee :: arguments
  | chain receiver calls => receiver :: calls.flatMap fun c ↦ c.target :: c.arguments
  | member target key => [target, key]
  | constant _ value => [value]
  | function _ _ body => body
  | print value => [value]
  | block statements => statements
  | closure _ body => body
  | cond branches otherwise =>
    (branches.flatMap fun b ↦ b.condition :: b.body) ++ otherwise.getD []

/-- What justifies recursion through `children`, for all kinds of expressions at once. -/
theorem sizeOf_lt_of_mem_children {d e : Expr} (h : d ∈ e.children) : sizeOf d < sizeOf e := by
  cases e with
  | number | string | boolean | nil | identifier | error => simp [children] at h
  | array items | block items | closure _ items | function _ _ items =>
    have hd : sizeOf d < sizeOf items := List.sizeOf_lt_of_mem h
    simp only [array.sizeOf_spec, block.sizeOf_spec, closure.sizeOf_spec, function.sizeOf_spec]
    omega
  | unary | constant | print =>
    obtain rfl := List.mem_singleton.1 h
    simp only [unary.sizeOf_spec, constant.sizeOf_spec, print.sizeOf_spec]
    omega
  | binary | member =>
    simp only [children, List.mem_cons, List.not_mem_nil, or_false] at h
    simp only [binary.sizeOf_spec, member.sizeOf_spec]
    rcases h with rfl | rfl <;> omega
  | call callee arguments =>
    simp only [call.sizeOf_spec]
    rcases List.mem_cons.1 h with rfl | hd
    · omega
    · have hd := List.sizeOf_lt_of_mem hd
      omega
  | chain receiver calls =>
    simp only [children, List.mem_cons, List.mem_flatMap] at h
    simp only [chain.sizeOf_spec]
    rcases h with rfl | ⟨⟨target, arguments⟩, hcall, hd⟩
    · omega
    · have hcall := List.sizeOf_lt_of_mem hcall
      simp only [ChainCall.mk.sizeOf_spec] at hcall
      rcases hd with rfl | hd
      · omega
      · have hd : sizeOf d < sizeOf arguments := List.sizeOf_lt_of_mem hd
        omega
  | cond branches otherwise =>
    simp only [children, List.mem_append, List.mem_flatMap, List.mem_cons] at h
    simp only [cond.sizeOf_spec]
    rcases h with ⟨⟨condition, body⟩, hbranch, hd⟩ | hd
    · have hbranch := List.sizeOf_lt_of_mem hbranch
      simp only [Branch.mk.sizeOf_spec] at hbranch
      rcases hd with rfl | hd
      · omega
      · have hd : sizeOf d < sizeOf body := List.sizeOf_lt_of_mem hd
        omega
    · cases otherwise with
      | none => simp at hd
      | some body =>
        have hd : sizeOf d < sizeOf body := List.sizeOf_lt_of_mem hd
        simp only [Option.some.sizeOf_spec]
        omega

/-- What holds of an expression whenever it holds of its children holds of all expressions. -/
@[elab_as_elim]
theorem induction_on_children {P : Expr → Prop} (e : Expr)
    (h : ∀ e, (∀ d ∈ e.children, P d) → P e) : P e := by
  induction hsize : sizeOf e using Nat.strongRecOn generalizing e with
  | ind n ih =>
    subst hsize
    exact h e fun d hd ↦ ih (sizeOf d) (sizeOf_lt_of_mem_children hd) d rfl

/-- The first expression stands somewhere inside the second. -/
def Inside : Expr → Expr → Prop := Relation.TransGen fun d e ↦ d ∈ e.children

/-- From the outermost expression inwards: what stands inside is a child or stands inside of one. -/
theorem inside_iff {c e : Expr} : c.Inside e ↔ ∃ d ∈ e.children, c = d ∨ c.Inside d := by
  refine Relation.TransGen.tail'_iff.trans (exists_congr fun d ↦ ?_)
  rw [Relation.reflTransGen_iff_eq_or_transGen, eq_comm, and_comm]
  rfl

/-- The property holds of the expression and of all that stands inside of it. -/
def Everywhere (P : Expr → Prop) (e : Expr) : Prop := ∀ d : Expr, d = e ∨ d.Inside e → P d

theorem everywhere_iff {P : Expr → Prop} {e : Expr} :
    e.Everywhere P ↔ P e ∧ ∀ d ∈ e.children, d.Everywhere P := by
  constructor
  · intro h
    refine ⟨h e (.inl rfl), fun d hd c hc ↦ h c (.inr ?_)⟩
    exact inside_iff.2 ⟨d, hd, hc⟩
  · rintro ⟨he, hchildren⟩ c (rfl | hc)
    · exact he
    · obtain ⟨d, hd, hcd⟩ := inside_iff.1 hc
      exact hchildren d hd c hcd

theorem WellShaped.child {place : Place} {d e : Expr} (h : e.WellShaped place)
    (hd : d ∈ e.children) : ∃ place, d.WellShaped place := by
  induction h with
  | number _ | string _ | boolean _ | nil | identifier _ _ _ => simp [children] at hd
  | array hitems => exact ⟨_, hitems d hd⟩
  | cond _ hconditions hbodies hotherwise =>
    simp only [children, List.mem_append, List.mem_flatMap, List.mem_cons] at hd
    rcases hd with ⟨b, hb, rfl | hd⟩ | hd
    · exact ⟨_, hconditions b hb⟩
    · exact ⟨_, hbodies b hb d hd⟩
    · rename_i otherwise _ _ _ _
      cases otherwise with
      | none => simp at hd
      | some body => exact ⟨_, hotherwise body rfl d hd⟩
  | closure _ hbody => exact ⟨_, hbody d hd⟩
  | binary hleft hright =>
    simp only [children, List.mem_cons, List.not_mem_nil, or_false] at hd
    rcases hd with rfl | rfl
    · exact ⟨_, hleft⟩
    · exact ⟨_, hright⟩
  | chain hreceiver htargets harguments =>
    simp only [children, List.mem_flatMap, List.mem_cons] at hd
    rcases hd with rfl | ⟨c, hc, rfl | hd⟩
    · exact ⟨_, hreceiver⟩
    · exact ⟨_, htargets c hc⟩
    · exact ⟨_, harguments c hc d hd⟩
  | block hstatements => exact ⟨_, hstatements d hd⟩
  | call hcallee harguments =>
    rcases List.mem_cons.1 hd with rfl | hd
    · exact ⟨_, hcallee⟩
    · exact ⟨_, harguments d hd⟩
  | member htarget hkey =>
    simp only [children, List.mem_cons, List.not_mem_nil, or_false] at hd
    rcases hd with rfl | rfl
    · exact ⟨_, htarget⟩
    · exact ⟨_, hkey⟩
  | unary hoperand =>
    obtain rfl := List.mem_singleton.1 hd
    exact ⟨_, hoperand⟩
  | constant _ hvalue =>
    obtain rfl := List.mem_singleton.1 hd
    exact ⟨_, hvalue⟩
  | function _ _ hbody => exact ⟨_, hbody d hd⟩
  | print hvalue =>
    obtain rfl := List.mem_singleton.1 hd
    exact ⟨_, hvalue⟩
  | ofPrimary _ ih | ofMember _ ih | ofExpression _ ih => exact ih hd

theorem WellShaped.isError_eq_false {place : Place} {e : Expr} (h : e.WellShaped place) :
    e.isError = false := by
  induction h with
  | ofPrimary _ ih | ofMember _ ih | ofExpression _ ih => exact ih
  | _ => rfl

/-- Whatever stands inside of something well-shaped is well-shaped, at a place of its own. -/
theorem WellShaped.inside {place : Place} {d e : Expr} (h : e.WellShaped place)
    (hd : d.Inside e) : ∃ place, d.WellShaped place := by
  induction hd generalizing place with
  | single hchild => exact h.child hchild
  | tail _ hchild ih =>
    obtain ⟨_, hshaped⟩ := h.child hchild
    exact ih hshaped

end Expr

end Lispette
