import Lispette.Json.Encoding
import Lispette.Proofs.JsonText
import Lispette.Proofs.Kind

/-!
# Data files lose nothing

A program is told by its data: the first member of each object names the kind of an expression, and
the members after it are the parts of that kind, in order. And data is told by its compact text. So
two programs with one text are one program, whatever strings, names and errors they hold, as long as
their numbers are finite.
-/

namespace Lispette

theorem UnaryOperator.name_inj {op op' : UnaryOperator} (h : op.name = op'.name) : op = op' := by
  have hall : ∀ a ∈ all, ∀ b ∈ all, a.name = b.name → a = b := by decide
  exact hall op op.mem_all op' op'.mem_all h

theorem BinaryOperator.name_inj {op op' : BinaryOperator} (h : op.name = op'.name) : op = op' := by
  have hall : ∀ a ∈ all, ∀ b ∈ all, a.name = b.name → a = b := by decide
  exact hall op op.mem_all op' op'.mem_all h

/-- All four fields of an error are written. -/
theorem SyntaxError.members_inj {e e' : SyntaxError} (h : e.members = e'.members) : e = e' := by
  cases e
  cases e'
  simp only [members, List.cons.injEq, Prod.mk.injEq, Json.string.injEq, Json.natural.injEq,
    true_and, and_true] at h
  obtain ⟨rfl, rfl, rfl, rfl⟩ := h
  rfl

theorem Json.names_inj {parameters parameters' : List String}
    (h : names parameters = names parameters') : parameters = parameters' :=
  Expr.eq_of_map_eq (fun _ _ _ _ ↦ Json.string.inj) (Json.array.inj h)

namespace Expr

open Json

/-! ## Data of expressions -/

theorem toJsons_eq_map (items : List Expr) : toJsons items = items.map toJson := by
  induction items with
  | nil => rw [toJsons, List.map_nil]
  | cons e items ih => rw [toJsons, ih, List.map_cons]

theorem callsToJson_eq_map (calls : List (ChainCall Expr)) :
    callsToJson calls = calls.map fun c ↦
      .object [("target", c.target.toJson), ("args", .array (toJsons c.arguments))] := by
  induction calls with
  | nil => rw [callsToJson, List.map_nil]
  | cons c calls ih => rw [callsToJson, ih, List.map_cons]

theorem branchesToJson_eq_map (branches : List (Branch Expr)) :
    branchesToJson branches = branches.map fun b ↦
      .object [("condition", b.condition.toJson), ("body", bodyToJson b.body)] := by
  induction branches with
  | nil => rw [branchesToJson, List.map_nil]
  | cons b branches ih => rw [branchesToJson, ih, List.map_cons]

/-- The data of the expression tells it from all others. -/
def ToldByData (e : Expr) : Prop := ∀ e' : Expr, e.toJson = e'.toJson → e = e'

/-- Lists are told item by item, as long as each item is. -/
theorem toJsons_inj {items items' : List Expr} (htold : ∀ e ∈ items, e.ToldByData)
    (h : toJsons items = toJsons items') : items = items' := by
  rw [toJsons_eq_map, toJsons_eq_map] at h
  exact eq_of_map_eq (fun e he e' _ ↦ htold e he e') h

theorem bodyToJson_inj {body body' : List Expr} (htold : ∀ e ∈ body, e.ToldByData)
    (h : bodyToJson body = bodyToJson body') : body = body' := by
  simp only [bodyToJson, Json.object.injEq, List.cons.injEq, Prod.mk.injEq, Json.array.injEq,
    true_and, and_true] at h
  exact toJsons_inj htold h

theorem callsToJson_inj {calls calls' : List (ChainCall Expr)}
    (htold : ∀ c ∈ calls, c.target.ToldByData ∧ ∀ e ∈ c.arguments, e.ToldByData)
    (h : callsToJson calls = callsToJson calls') : calls = calls' := by
  rw [callsToJson_eq_map, callsToJson_eq_map] at h
  refine eq_of_map_eq (fun c hc c' _ hcall ↦ ?_) h
  simp only [Json.object.injEq, List.cons.injEq, Prod.mk.injEq, Json.array.injEq, true_and,
    and_true] at hcall
  obtain ⟨htarget, harguments⟩ := hcall
  obtain ⟨hctarget, hcarguments⟩ := htold c hc
  calc c = ⟨c'.target, c'.arguments⟩ := by
        rw [← hctarget _ htarget, ← toJsons_inj hcarguments harguments]
    _ = c' := rfl

theorem branchesToJson_inj {branches branches' : List (Branch Expr)}
    (htold : ∀ b ∈ branches, b.condition.ToldByData ∧ ∀ e ∈ b.body, e.ToldByData)
    (h : branchesToJson branches = branchesToJson branches') : branches = branches' := by
  rw [branchesToJson_eq_map, branchesToJson_eq_map] at h
  refine eq_of_map_eq (fun b hb b' _ hbranch ↦ ?_) h
  simp only [Json.object.injEq, List.cons.injEq, Prod.mk.injEq, true_and, and_true] at hbranch
  obtain ⟨hcondition, hbody⟩ := hbranch
  obtain ⟨hbcondition, hbbody⟩ := htold b hb
  calc b = ⟨b'.condition, b'.body⟩ := by
        rw [← hbcondition _ hcondition, ← bodyToJson_inj hbbody hbody]
    _ = b' := rfl

/-- A missing last branch is `null`, which is no object. -/
theorem elseToJson_inj {otherwise otherwise' : Option (List Expr)}
    (htold : ∀ body ∈ otherwise, ∀ e ∈ body, e.ToldByData)
    (h : elseToJson otherwise = elseToJson otherwise') : otherwise = otherwise' := by
  cases otherwise with
  | none =>
    cases otherwise' with
    | none => rfl
    | some body' => rw [elseToJson, elseToJson, bodyToJson] at h; cases h
  | some body =>
    cases otherwise' with
    | none => rw [elseToJson, elseToJson, bodyToJson] at h; cases h
    | some body' =>
      rw [elseToJson, elseToJson] at h
      rw [bodyToJson_inj (htold body rfl) h]

/-- Every object begins with the name of its kind. -/
theorem toJson_eq_ofKind (e : Expr) : ∃ members, e.toJson = ofKind e.kind.name members := by
  cases e <;> rw [toJson] <;> exact ⟨_, rfl⟩

/-- Kinds have different names, so that the first member tells them apart. -/
theorem kind_eq_of_toJson {e e' : Expr} (h : e.toJson = e'.toJson) : e.kind = e'.kind := by
  obtain ⟨members, hmembers⟩ := e.toJson_eq_ofKind
  obtain ⟨members', hmembers'⟩ := e'.toJson_eq_ofKind
  rw [hmembers, hmembers'] at h
  simp only [ofKind, Json.object.injEq, List.cons.injEq, Prod.mk.injEq, Json.string.injEq,
    true_and] at h
  exact Kind.name_inj h.1

/-- Expressions of one kind are told by their members where their parts are. -/
theorem eq_of_toJson {e e' : Expr} (hkind : e.kind = e'.kind)
    (hparts : ∀ d ∈ e.children, d.ToldByData) (h : e.toJson = e'.toJson) : e = e' := by
  induction e, e', hkind using cases_of_kind_eq <;>
    simp only [toJson, ofKind, Json.object.injEq, List.cons.injEq, Prod.mk.injEq, Json.array.injEq,
      Json.string.injEq, Json.number.injEq, Json.boolean.injEq, true_and, and_true] at h
  case number value value' => rw [h]
  case string text text' => rw [h]
  case boolean value value' => rw [h]
  case nil => rfl
  case array items items' => exact congrArg array (toJsons_inj hparts h)
  case identifier name name' => rw [h]
  case unary op operand op' operand' =>
    obtain ⟨hop, hoperand⟩ := h
    rw [UnaryOperator.name_inj hop, hparts operand (by simp [children]) operand' hoperand]
  case binary op left right op' left' right' =>
    obtain ⟨hop, hleft, hright⟩ := h
    rw [BinaryOperator.name_inj hop, hparts left (by simp [children]) left' hleft,
      hparts right (by simp [children]) right' hright]
  case call callee arguments callee' arguments' =>
    obtain ⟨hcallee, harguments⟩ := List.forall_mem_cons.1 hparts
    rw [hcallee callee' h.1, toJsons_inj harguments h.2]
  case chain receiver calls receiver' calls' =>
    obtain ⟨hreceiver, hcalls⟩ := forall_children_chain.1 hparts
    rw [hreceiver receiver' h.1, callsToJson_inj hcalls h.2]
  case member target key target' key' =>
    rw [hparts target (by simp [children]) target' h.1, hparts key (by simp [children]) key' h.2]
  case constant name value name' value' =>
    rw [h.1, hparts value (by simp [children]) value' h.2]
  case function name parameters body name' parameters' body' =>
    obtain ⟨hname, hparameters, hbody⟩ := h
    have hbody : body = body' := bodyToJson_inj hparts hbody
    rw [hname, names_inj hparameters, hbody]
  case print value value' => rw [hparts value (by simp [children]) value' h]
  case block statements statements' => exact congrArg block (toJsons_inj hparts h)
  case closure parameters body parameters' body' =>
    have hbody : body = body' := bodyToJson_inj hparts h.2
    rw [names_inj h.1, hbody]
  case cond branches otherwise branches' otherwise' =>
    obtain ⟨hbranches, hotherwise⟩ := forall_children_cond.1 hparts
    rw [branchesToJson_inj hbranches h.1, elseToJson_inj hotherwise h.2]
  case error error error' => rw [SyntaxError.members_inj h]

/-- No two expressions have the same data. -/
theorem toldByData (e : Expr) : e.ToldByData := by
  induction e using induction_on_children with
  | h e ih => exact fun e' h ↦ eq_of_toJson (kind_eq_of_toJson h) ih h

/-! ## Numbers -/

/-- All numbers in the expression are finite. -/
def HasFiniteNumbers (e : Expr) : Prop :=
  ∀ value : Binary64, number value = e ∨ (number value).Inside e → value.isFinite = true

theorem HasFiniteNumbers.child {d e : Expr} (h : e.HasFiniteNumbers) (hd : d ∈ e.children) :
    d.HasFiniteNumbers := by
  rintro value (rfl | hvalue)
  · exact h value (.inr (.single hd))
  · exact h value (.inr (hvalue.tail hd))

/-- Whether all numbers are finite is decided by the expression itself and by its parts. -/
theorem hasFiniteNumbers_of_children {e : Expr}
    (hnumber : ∀ value : Binary64, number value = e → value.isFinite = true)
    (h : ∀ d ∈ e.children, d.HasFiniteNumbers) : e.HasFiniteNumbers := by
  rintro value (he | hvalue)
  · exact hnumber value he
  · obtain ⟨d, hd, hvalue⟩ := inside_iff.1 hvalue
    exact h d hd value hvalue

theorem finite_toJsons {items : List Expr} (h : ∀ e ∈ items, e.toJson.HasFiniteNumbers) :
    (Json.array (toJsons items)).HasFiniteNumbers := by
  rw [toJsons_eq_map]
  exact .array (List.forall_mem_map.2 h)

theorem finite_bodyToJson {body : List Expr} (h : ∀ e ∈ body, e.toJson.HasFiniteNumbers) :
    (bodyToJson body).HasFiniteNumbers := by
  rw [bodyToJson]
  exact .object (by simpa using finite_toJsons h)

/-- The numbers of a call are those of its target and of its arguments. -/
theorem finite_callsToJson {calls : List (ChainCall Expr)}
    (h : ∀ c ∈ calls, c.target.toJson.HasFiniteNumbers ∧
      ∀ e ∈ c.arguments, e.toJson.HasFiniteNumbers) :
    (Json.array (callsToJson calls)).HasFiniteNumbers := by
  rw [callsToJson_eq_map]
  refine .array (List.forall_mem_map.2 fun c hc ↦ .object ?_)
  simpa using ⟨(h c hc).1, finite_toJsons (h c hc).2⟩

theorem finite_branchesToJson {branches : List (Branch Expr)}
    (h : ∀ b ∈ branches, b.condition.toJson.HasFiniteNumbers ∧
      ∀ e ∈ b.body, e.toJson.HasFiniteNumbers) :
    (Json.array (branchesToJson branches)).HasFiniteNumbers := by
  rw [branchesToJson_eq_map]
  refine .array (List.forall_mem_map.2 fun b hb ↦ .object ?_)
  simpa using ⟨(h b hb).1, finite_bodyToJson (h b hb).2⟩

theorem finite_elseToJson {otherwise : Option (List Expr)}
    (h : ∀ body ∈ otherwise, ∀ e ∈ body, e.toJson.HasFiniteNumbers) :
    (elseToJson otherwise).HasFiniteNumbers := by
  cases otherwise with
  | none => rw [elseToJson]; exact .null
  | some body => rw [elseToJson]; exact finite_bodyToJson (h body rfl)

/-- Names are strings, and hold no numbers. -/
theorem finite_names (parameters : List String) : (Json.names parameters).HasFiniteNumbers :=
  .array (List.forall_mem_map.2 fun name _ ↦ .string name)

theorem HasFiniteNumbers.toJson {e : Expr} (h : e.HasFiniteNumbers) :
    e.toJson.HasFiniteNumbers := by
  induction e using induction_on_children with
  | h e ih =>
    have hparts : ∀ d ∈ e.children, d.toJson.HasFiniteNumbers := fun d hd ↦ ih d hd (h.child hd)
    cases e <;> rw [Expr.toJson] <;> refine .object ?_ <;>
      simp only [List.forall_mem_cons, List.not_mem_nil, false_imp_iff, implies_true, and_true,
        Json.HasFiniteNumbers.string, true_and]
    case number value => exact .number (h value (.inl rfl))
    case boolean value => exact .boolean value
    case array items => exact finite_toJsons hparts
    case unary op operand => exact hparts operand (by simp [children])
    case binary op left right =>
      exact ⟨hparts left (by simp [children]), hparts right (by simp [children])⟩
    case call callee arguments =>
      obtain ⟨hcallee, harguments⟩ := List.forall_mem_cons.1 hparts
      exact ⟨hcallee, finite_toJsons harguments⟩
    case chain receiver calls =>
      obtain ⟨hreceiver, hcalls⟩ := forall_children_chain.1 hparts
      exact ⟨hreceiver, finite_callsToJson hcalls⟩
    case member target key =>
      exact ⟨hparts target (by simp [children]), hparts key (by simp [children])⟩
    case constant name value => exact hparts value (by simp [children])
    case function name parameters body => exact ⟨finite_names parameters, finite_bodyToJson hparts⟩
    case print value => exact hparts value (by simp [children])
    case block statements => exact finite_toJsons hparts
    case closure parameters body => exact ⟨finite_names parameters, finite_bodyToJson hparts⟩
    case cond branches otherwise =>
      obtain ⟨hbranches, hotherwise⟩ := forall_children_cond.1 hparts
      exact ⟨finite_branchesToJson hbranches, finite_elseToJson hotherwise⟩
    case error error =>
      simp [SyntaxError.members, Json.HasFiniteNumbers.string, Json.HasFiniteNumbers.natural]

end Expr

/-! ## Programs -/

namespace Program

/-- All numbers in the program are finite. -/
def HasFiniteNumbers (p : Program) : Prop := ∀ e ∈ p.body, e.HasFiniteNumbers

/-- Programs are told by their data before any text is made of it. -/
theorem toJson_inj {p p' : Program} (h : p.toJson = p'.toJson) : p = p' := by
  simp only [toJson, Json.object.injEq, List.cons.injEq, Prod.mk.injEq, Json.array.injEq, true_and,
    and_true] at h
  have hbody : p.body = p'.body := Expr.toJsons_inj (fun e _ ↦ e.toldByData) h
  calc p = ⟨p.body⟩ := rfl
    _ = p' := by rw [hbody]

theorem HasFiniteNumbers.toJson {p : Program} (h : p.HasFiniteNumbers) :
    p.toJson.HasFiniteNumbers :=
  .object (by simpa using Expr.finite_toJsons fun e he ↦ (h e he).toJson)

/-- Different programs are written to data files as different texts. -/
theorem compact_toJson_ne {p p' : Program} (hp : p.HasFiniteNumbers) (hp' : p'.HasFiniteNumbers)
    (h : p ≠ p') : p.toJson.compact ≠ p'.toJson.compact :=
  fun htext ↦ h (toJson_inj (Json.compact_inj hp.toJson hp'.toJson htext))

/-- The first string spells the text between the two other strings: only its escaped quotes tell
one string from two. -/
theorem compact_toJson_ne_quotes :
    (Program.mk [.string "a\"\x7d,\x7b\"kind\":\"String\",\"value\":\"b",
        .number (.finite true 0)]).toJson.compact ≠
      (Program.mk [.string "a", .string "b", .number (.finite true 0)]).toJson.compact := by
  have hstring (text : String) : (Expr.string text).HasFiniteNumbers :=
    Expr.hasFiniteNumbers_of_children (by simp) (by simp [Expr.children])
  have hnumber : (Expr.number (.finite true 0)).HasFiniteNumbers :=
    Expr.hasFiniteNumbers_of_children (by simp [Binary64.isFinite]) (by simp [Expr.children])
  exact compact_toJson_ne (by simp [HasFiniteNumbers, hstring, hnumber])
    (by simp [HasFiniteNumbers, hstring, hnumber]) (by simp)

end Program

end Lispette
