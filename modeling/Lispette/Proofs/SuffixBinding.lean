import Lispette.JavaScript.Generator
import Lispette.Proofs.Soundness

/-!
# What a suffix binds to

Arguments, keys and the calls of a chain are written directly after what they are attached to. They
bind more tightly than an operator in front, so they belong to the whole of it only if its text does
not begin with an operator. The text begins as the expression at its left edge does, and the grammar
keeps operators away from there in calls and in keys, but not in the receivers of chains.
-/

namespace Lispette

namespace Expr

/-- What the arguments of a call, a key, or the calls of a chain are attached to. -/
def suffixed? : Expr → Option Expr
  | call callee _ => some callee
  | member target _ => some target
  | chain receiver _ => some receiver
  | _ => none

/-- An operator in front of its operand. -/
def isOperation : Expr → Bool
  | unary _ _ => true
  | _ => false

/-- Going down the left edge, through all that something is attached to, comes to a chain whose
receiver is an operation. -/
def chainsOperation : Expr → Bool
  | call callee _ => callee.chainsOperation
  | member target _ => target.chainsOperation
  | chain receiver _ => receiver.isOperation || receiver.chainsOperation
  | _ => false

end Expr

namespace JavaScript

def opensWithOperator (text : String) : Bool :=
  UnaryOperator.all.any fun op ↦ op.javaScript.toList.isPrefixOf text.toList

/-- The code of what something is attached to. -/
def target (depth : Nat) (e : Expr) : Code := asTarget e (render depth e)

/-! ## How texts begin -/

/-- The text is not empty, and begins with an operator exactly if `operator` says so. -/
def Code.Opens (code : Code) (operator : Bool) : Prop :=
  (code.text.toList.head?.map fun c ↦ UnaryOperator.all.any (·.symbol = c)) = some operator

instance (code : Code) (operator : Bool) : Decidable (code.Opens operator) :=
  inferInstanceAs (Decidable (_ = _))

variable {code : Code} {operator : Bool}

theorem isPrefixOf_javaScript (op : UnaryOperator) (c : Char) (cs : List Char) :
    op.javaScript.toList.isPrefixOf (c :: cs) = decide (op.symbol = c) := by
  rw [UnaryOperator.javaScript, String.toList_singleton, List.isPrefixOf_cons_cons,
    List.isPrefixOf_nil_left, Bool.and_true]
  rfl

theorem Code.Opens.opensWithOperator_eq (h : code.Opens operator) :
    opensWithOperator code.text = operator := by
  obtain ⟨c, hhead, hc⟩ := Option.map_eq_some_iff.1 h
  obtain ⟨cs, htext⟩ := List.head?_eq_some_iff.1 hhead
  simp only [opensWithOperator, htext, isPrefixOf_javaScript, hc]

theorem Code.Opens.append (h : code.Opens operator) (more : Code) :
    (code ++ more).Opens operator := by
  obtain ⟨c, hhead, hc⟩ := Option.map_eq_some_iff.1 h
  obtain ⟨cs, htext⟩ := List.head?_eq_some_iff.1 hhead
  simp [Code.Opens, htext, hc]

/-- Parentheses hide the operator inside of them. -/
theorem opens_parenthesized (code : Code) : code.parenthesized.Opens false := by
  have hopening : Code.Opens "(" false := by decide
  exact (hopening.append _).append _

theorem opens_unary (op : UnaryOperator) (operand : Code) : (unary op operand).Opens true := by
  have hsymbol : Code.Opens op.javaScript true := by cases op <;> decide
  cases op with
  | not | bitNot => exact hsymbol.append _
  | negate =>
    rw [unary, negated]
    split <;> exact hsymbol.append _

theorem opens_name {name : String} (h : isName name = true) : Code.Opens name false := by
  have hoperator : ∀ op : UnaryOperator, Text.isNameStart op.symbol = false := by
    intro op
    cases op <;> decide
  cases hname : name.toList with
  | nil => simp [isName, hname] at h
  | cons c cs =>
    simp only [isName, hname, Bool.and_eq_true] at h
    have hc : UnaryOperator.all.any (·.symbol = c) = false := by
      apply List.any_eq_false.2
      intro op _ hop
      have hstart := h.1.1
      rw [← of_decide_eq_true hop, hoperator] at hstart
      cases hstart
    simp only [Code.Opens, hname, List.head?_cons, Option.map_some, hc]

/-- Arguments and keys are never attached to an operation. -/
theorem isOperation_eq_false {e : Expr} (h : e.WellShaped .member) : e.isOperation = false := by
  cases h with
  | member _ _ => rfl
  | ofPrimary h => cases h <;> rfl

/-- What the text begins with is decided at the left edge of the expression. -/
theorem opens_target {place : Place} {e : Expr} (h : e.WellShaped place) (depth : Nat) :
    (target depth e).Opens (e.isOperation || e.chainsOperation) := by
  induction h with
  | number | closure => exact opens_parenthesized _
  | identifier hname => exact opens_name hname
  | unary => exact opens_unary _ _
  | call hcallee _ ih =>
    rw [isOperation_eq_false hcallee, Bool.false_or] at ih
    exact ih.append _
  | member htarget _ ih =>
    rw [isOperation_eq_false htarget, Bool.false_or] at ih
    exact ih.append _
  | chain _ _ _ ih => exact ih.append _
  | boolean value =>
    have hfalse : Code.Opens "false" false := by decide
    have htrue : Code.Opens "true" false := by decide
    cases value with
    | false => exact hfalse
    | true => exact htrue
  | nil =>
    have hnull : Code.Opens "null" false := by decide
    exact hnull
  | string | array | binary | cond | block | constant | function | print =>
    -- A fixed text comes first, and it is the same text whatever follows.
    simp only [target, asTarget, render, Expr.isOperation, Expr.chainsOperation, Bool.or_false]
    repeat apply Code.Opens.append
    decide
  | ofPrimary _ ih | ofMember _ ih | ofExpression _ ih => exact ih

end JavaScript

/-! ## Programs -/

/-- What a suffix is attached to is an expression, and is followed inwards through calls, members
and chains. -/
theorem Expr.WellShaped.suffixed {place : Place} {e t : Expr} (h : e.WellShaped place)
    (ht : e.suffixed? = some t) :
    t.WellShaped .expression ∧ (t.isOperation || t.chainsOperation) = e.chainsOperation := by
  induction h with
  | call hcallee _ =>
    obtain rfl := Option.some.inj ht
    exact ⟨.ofMember hcallee, by rw [JavaScript.isOperation_eq_false hcallee]; rfl⟩
  | member htarget _ =>
    obtain rfl := Option.some.inj ht
    exact ⟨.ofMember htarget, by rw [JavaScript.isOperation_eq_false htarget]; rfl⟩
  | chain hreceiver _ _ =>
    obtain rfl := Option.some.inj ht
    exact ⟨hreceiver, rfl⟩
  | ofPrimary _ ih | ofMember _ ih | ofExpression _ ih => exact ih ht
  | _ => cases ht

namespace JavaScript

/-- The code of the whole begins with that of the target, whatever the suffix is. -/
theorem render_suffixed {e t : Expr} (ht : e.suffixed? = some t) (depth : Nat) :
    ∃ suffix, render depth e = target depth t ++ suffix := by
  cases e with
  | call | member | chain =>
    obtain rfl := Option.some.inj ht
    exact ⟨_, by rw [render]; rfl⟩
  | _ => cases ht

/-- The text that a suffix follows begins with an operator exactly if the left edge leads to a chain
with an operation as its receiver. The suffix then belongs to the operand alone. -/
theorem opensWithOperator_suffixed (source : String) (p : Program) (s e t : Expr) (depth : Nat)
    (hp : (parse source).program = some p) (hs : s ∈ p.body) (he : e = s ∨ e.Inside s)
    (ht : e.suffixed? = some t) :
    (∃ suffix, render depth e = target depth t ++ suffix) ∧
      opensWithOperator (target depth t).text = e.chainsOperation := by
  have htop := (Grammar.yields_program {} _ p _ (Grammar.program_parse {} hp)).2 s hs
  have hshaped : ∃ place, e.WellShaped place := by
    rcases he with rfl | hinside
    · rcases htop with herror | hshaped
      · cases e with
        | error => cases ht
        | _ => cases herror
      · exact ⟨_, hshaped⟩
    · exact htop.inside hinside
  obtain ⟨_, hshaped⟩ := hshaped
  obtain ⟨htarget, hedge⟩ := hshaped.suffixed ht
  have hopens := opens_target htarget depth
  exact ⟨render_suffixed ht depth, by rw [hopens.opensWithOperator_eq, hedge]⟩

/-- Arguments after a key of a chain whose receiver is negated. -/
theorem opensWithOperator_suffixed_key :
    ∃ p s t, (parse "((~> -x ~> f)/y 1)").program = some p ∧ s ∈ p.body ∧
      s.suffixed? = some t ∧ (target 0 t).text = "-x.f().y" ∧
      opensWithOperator (target 0 t).text = s.chainsOperation := by
  have hread : ((parse "((~> -x ~> f)/y 1)").program.bind fun p ↦ p.body[0]?.bind fun s ↦
      s.suffixed?.map fun t ↦ (target 0 t).text) = some "-x.f().y" := by
    decide +kernel
  obtain ⟨p, hp, hread⟩ := Option.bind_eq_some_iff.1 hread
  obtain ⟨s, hs, hread⟩ := Option.bind_eq_some_iff.1 hread
  obtain ⟨t, ht, htext⟩ := Option.map_eq_some_iff.1 hread
  have hmem := List.mem_of_getElem? hs
  have hopens := opensWithOperator_suffixed _ p s s t 0 hp hmem (.inl rfl) ht
  exact ⟨p, s, t, hp, hmem, ht, htext, hopens.2⟩

/-- A method that is chained to a negation is called on the operand, and its result is negated. -/
theorem opensWithOperator_chained_negation :
    ∃ p s t, (parse "(~> !x ~> f)").program = some p ∧ s ∈ p.body ∧ s.suffixed? = some t ∧
      opensWithOperator (target 0 t).text = true ∧ generate p = "!x.f();" := by
  have hread : ((parse "(~> !x ~> f)").program.bind fun p ↦ p.body[0]?.bind fun s ↦
      s.suffixed?.map fun t ↦ (opensWithOperator (target 0 t).text, generate p)) =
        some (true, "!x.f();") := by
    decide +kernel
  obtain ⟨p, hp, hread⟩ := Option.bind_eq_some_iff.1 hread
  obtain ⟨s, hs, hread⟩ := Option.bind_eq_some_iff.1 hread
  obtain ⟨t, ht, hcode⟩ := Option.map_eq_some_iff.1 hread
  obtain ⟨hopens, hcode⟩ := Prod.mk.inj hcode
  exact ⟨p, s, t, hp, List.mem_of_getElem? hs, ht, hopens, hcode⟩

end JavaScript

end Lispette
