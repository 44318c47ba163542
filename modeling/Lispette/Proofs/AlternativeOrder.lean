import Mathlib.Data.List.Rotate
import Lispette.Proofs.Commitment
import Lispette.Proofs.Tracing

/-!
# The order of alternatives

An ordered choice reads what the first of its alternatives reads that does not fail to match. So two
orders of the same alternatives read alike wherever they agree about the alternatives that can both
read there. Of the forms of primary expressions, most exclude each other by the character with which
they begin, and the parenthesised ones by what stands first inside the parentheses. Two pairs
remain: `true` and `false` could be names, and the bar of `(| a b)` could begin a closure that is
called. For these pairs, and for no others, the order matters.
-/

namespace Lispette

open Lispette.Parser Grammar
open scoped List

/-! ## Choices in another order -/

section

variable {ι : Type} {a b c : ι} {order : List ι}

theorem sublist_of_pair_sublist_cons (hne : a ≠ c) (h : [a, b] <+ c :: order) :
    [a, b] <+ order := by
  cases h with
  | cons _ h => exact h
  | cons_cons => exact absurd rfl hne

/-- Of two entries, one stands before the other. -/
theorem pair_sublist_or (hne : a ≠ b) (ha : a ∈ order) (hb : b ∈ order) :
    [a, b] <+ order ∨ [b, a] <+ order := by
  induction order with
  | nil => cases ha
  | cons c order ih =>
    rcases List.mem_cons.1 ha with rfl | ha'
    · have hb' := (List.mem_cons.1 hb).resolve_left hne.symm
      exact .inl ((List.singleton_sublist.2 hb').cons_cons a)
    · rcases List.mem_cons.1 hb with rfl | hb'
      · exact .inr ((List.singleton_sublist.2 ha').cons_cons b)
      · exact (ih ha' hb').imp (.cons c) (.cons c)

end

namespace Parser

variable {α ι : Type} {f : ι → Parser α} {s : Cursor} {order : List ι}

/-- An alternative that does not match leaves the choice to the others. -/
theorem reading_choice_of_rejects {p : Parser α} {ps : List (Parser α)} (h : p.Rejects s) :
    (choice (p :: ps)).reading s = (choice ps).reading s := by
  obtain ⟨hreply, hcursor⟩ := run_orElse_of_rejects (q := choice ps) h
  exact Prod.ext hreply hcursor

theorem reading_choice_of_not_rejects {p : Parser α} {ps : List (Parser α)} (h : ¬ p.Rejects s) :
    (choice (p :: ps)).reading s = p.reading s := by
  have hrun := run_orElse_of_not_rejects (q := choice ps) h
  exact congrArg (fun run ↦ (run.reply, run.cursor)) hrun

theorem reading_choice_of_all_reject (h : ∀ a ∈ order, (f a).Rejects s) :
    (choice (order.map f)).reading s = (.noMatch, s) := by
  induction order with
  | nil => rfl
  | cons c order ih =>
    obtain ⟨hc, horder⟩ := List.forall_mem_cons.1 h
    rw [List.map_cons, reading_choice_of_rejects hc, ih horder]

/-- The alternative is the first that can read here. -/
structure IsFirst (f : ι → Parser α) (s : Cursor) (order : List ι) (a : ι) : Prop where
  mem : a ∈ order
  not_rejects : ¬ (f a).Rejects s
  precedes : ∀ b ∈ order, b ≠ a → ¬ (f b).Rejects s → [a, b] <+ order

/-- Unless all of them are turned down, one alternative is the first that is not. -/
theorem exists_isFirst (h : ¬ ∀ a ∈ order, (f a).Rejects s) : ∃ a, IsFirst f s order a := by
  induction order with
  | nil => exact absurd (by simp) h
  | cons c order ih =>
    by_cases hc : (f c).Rejects s
    · obtain ⟨a, ha⟩ := ih fun horder ↦ h (List.forall_mem_cons.2 ⟨hc, horder⟩)
      refine ⟨a, List.mem_cons_of_mem c ha.mem, ha.not_rejects, fun b hb hne hb' ↦ ?_⟩
      rcases List.mem_cons.1 hb with rfl | hb
      · exact absurd hc hb'
      · exact (ha.precedes b hb hne hb').cons c
    · refine ⟨c, List.mem_cons_self, hc, fun b hb hne _ ↦ ?_⟩
      have hb' := (List.mem_cons.1 hb).resolve_left hne
      exact (List.singleton_sublist.2 hb').cons_cons c

/-- A choice reads what the first alternative reads that is not turned down. -/
theorem IsFirst.reading_choice {a : ι} (h : IsFirst f s order a) (hnodup : order.Nodup) :
    (choice (order.map f)).reading s = (f a).reading s := by
  induction order with
  | nil => cases h.mem
  | cons c order ih =>
    obtain ⟨hc, horder⟩ := List.nodup_cons.1 hnodup
    by_cases hac : a = c
    · subst hac
      exact reading_choice_of_not_rejects h.not_rejects
    · -- Another alternative in front would have to come after this one as well.
      have hrejects : (f c).Rejects s := by
        by_contra hnot
        have hpair := h.precedes c List.mem_cons_self (Ne.symm hac) hnot
        exact hc ((sublist_of_pair_sublist_cons hac hpair).subset (by simp))
      rw [List.map_cons, reading_choice_of_rejects hrejects]
      refine ih ⟨(List.mem_cons.1 h.mem).resolve_left hac, h.not_rejects, ?_⟩ horder
      intro b hb hne hnot
      exact sublist_of_pair_sublist_cons hac (h.precedes b (List.mem_cons_of_mem c hb) hne hnot)

/-- Only alternatives that can both read here have to stay in order. -/
theorem reading_choice_of_perm {order' : List ι} (hperm : order'.Perm order) (hnodup : order.Nodup)
    (h : ∀ a b, a ≠ b → ¬ (f a).Rejects s → ¬ (f b).Rejects s →
      [a, b] <+ order → [a, b] <+ order') :
    (choice (order'.map f)).reading s = (choice (order.map f)).reading s := by
  by_cases hall : ∀ a ∈ order, (f a).Rejects s
  · have hall' : ∀ a ∈ order', (f a).Rejects s := fun a ha ↦ hall a (hperm.mem_iff.1 ha)
    rw [reading_choice_of_all_reject hall, reading_choice_of_all_reject hall']
  · obtain ⟨a, ha⟩ := exists_isFirst hall
    have ha' : IsFirst f s order' a := by
      refine ⟨hperm.mem_iff.2 ha.mem, ha.not_rejects, fun b hb hne hnot ↦ ?_⟩
      exact h a b hne.symm ha.not_rejects hnot (ha.precedes b (hperm.mem_iff.1 hb) hne hnot)
    rw [ha.reading_choice hnodup, ha'.reading_choice (hperm.nodup_iff.2 hnodup)]

end Parser

/-! ## The forms of primary expressions -/

/-- The forms that an expression can have besides operators and member access. -/
inductive Primary where
  | number
  | string
  | boolean
  | nil
  | array
  | identifier
  | cond
  | closure
  | binaryCall
  | methodChain
  | block
  | call
deriving DecidableEq, Repr

/-- The kinds of characters with which they begin. -/
inductive Opening where
  | letter
  | digit
  | quote
  | bracket
  | parenthesis
  | bar
  | brace
deriving DecidableEq, Repr

def Opening.ofChar? (c : Char) : Option Opening :=
  if Text.isNameStart c then some .letter
  else if c.isDigit then some .digit
  else match c with
    | '"' => some .quote
    | '[' => some .bracket
    | '(' => some .parenthesis
    | '|' => some .bar
    | '\x7b' => some .brace
    | _ => none

namespace Primary

/-- All forms, in the order in which the grammar tries them. -/
def all : List Primary :=
  [.number, .string, .boolean, .nil, .array, .identifier, .cond, .closure, .binaryCall,
    .methodChain, .block, .call]

theorem mem_all (a : Primary) : a ∈ all := by cases a <;> decide

theorem nodup_all : all.Nodup := by decide

def form (A : Parts) : Primary → Parser Expr
  | .number => A.number
  | .string => A.string
  | .boolean => A.boolean
  | .nil => A.nil
  | .array => Form.array A
  | .identifier => A.identifier
  | .cond => Form.cond A
  | .closure => Form.closure A
  | .binaryCall => Form.binaryCall A
  | .methodChain => Form.methodChain A
  | .block => Form.blockExpression A
  | .call => Form.call A

def opening : Primary → Opening
  | .number => .digit
  | .string => .quote
  | .boolean | .nil | .identifier => .letter
  | .array => .bracket
  | .closure => .bar
  | .block => .brace
  | .cond | .binaryCall | .methodChain | .call => .parenthesis

end Primary

namespace Grammar

/-- The rule for a form of primary expressions. -/
def primaryRule (g : Grammar) : Primary → Parser Expr
  | .number => g.number
  | .string => g.string
  | .boolean => g.boolean
  | .nil => g.nil
  | .array => g.array
  | .identifier => g.identifier
  | .cond => g.cond
  | .closure => g.closure
  | .binaryCall => g.binaryCall
  | .methodChain => g.methodChain
  | .block => g.blockExpression
  | .call => g.call

theorem primaryRule_eq (g : Grammar) : g.primaryRule = Primary.form g.parts := by
  funext a
  cases a with
  | array => exact g.nested_eq fun _ _ ↦ .relax Alike.array.alike
  | cond => exact g.nested_eq fun _ _ ↦ .relax Alike.cond.alike
  | closure => exact g.nested_eq fun _ _ ↦ .relax Alike.closure.alike
  | binaryCall => exact g.nested_eq fun _ _ ↦ .relax Alike.binaryCall.alike
  | methodChain => exact g.nested_eq fun _ _ ↦ .relax Alike.methodChain.alike
  | block => exact g.nested_eq fun _ _ ↦ .relax Alike.blockExpression.alike
  | call => exact g.nested_eq fun _ _ ↦ .relax Alike.call.alike
  | _ => rfl

/-- The order of the grammar is one among others. -/
theorem primary_eq_choice (g : Grammar) : g.primary = choice (Primary.all.map g.primaryRule) := by
  rw [primaryRule_eq]
  exact g.nested_eq fun _ _ ↦ .relax .primary

end Grammar

/-! ## Forms that exclude each other -/

namespace Primary

variable {A : Parts} {s : Cursor}

/-- A form is turned down at once where the text begins with another kind of character. -/
theorem rejects_of_opening {a : Primary} (h : s.peek?.bind Opening.ofChar? ≠ some a.opening) :
    (a.form A).Rejects s := by
  have hpeek {c : Char} (hc : Opening.ofChar? c = some a.opening) : s.peek? ≠ some c := by
    intro heq
    rw [heq] at h
    exact h hc
  have hword {word : String} (hc : word.toList.head?.bind Opening.ofChar? = some a.opening) :
      Refuses (keyword word) s.rest := by
    refine .keyword_of_head fun heq ↦ h ?_
    rw [Cursor.peek?, heq]
    exact hc
  cases a with
  | number =>
    refine refuses_number _ (fun c hc ↦ ?_) s rfl
    by_contra hdigit
    have hstart : Text.isNameStart c = false := by
      by_contra hstart
      exact hdigit (isDigit_of_isNameStart (by simpa using hstart))
    exact hpeek (by simp [Opening.ofChar?, hstart, hdigit, opening]) hc
  | identifier =>
    refine rejects_rule.2 (rejects_map.2 (refuses_name (fun c hc ↦ ?_) s rfl))
    by_contra hstart
    exact hpeek (by simp [Opening.ofChar?, hstart, opening]) hc
  | boolean => exact refuses_boolean _ (hword (by decide)) (hword (by decide)) s rfl
  | nil => exact rejects_rule.2 (rejects_bind.2 (.inl (hword (by decide) s rfl)))
  | string => exact refuses_of_opens Alike.string (hpeek (by decide)) s rfl
  | array => exact refuses_of_opens Alike.array (hpeek (by decide)) s rfl
  | closure => exact refuses_of_opens Alike.closure (hpeek (by decide)) s rfl
  | block => exact refuses_of_opens Alike.blockExpression (hpeek (by decide)) s rfl
  | cond => exact refuses_of_opens Alike.cond (hpeek (by decide)) s rfl
  | binaryCall => exact refuses_of_opens Alike.binaryCall (hpeek (by decide)) s rfl
  | methodChain => exact refuses_of_opens Alike.methodChain (hpeek (by decide)) s rfl
  | call => exact refuses_of_opens Alike.call (hpeek (by decide)) s rfl

theorem opening_of_not_rejects {a : Primary} (h : ¬ (a.form A).Rejects s) :
    s.peek?.bind Opening.ofChar? = some a.opening :=
  not_ne_iff.1 fun hne ↦ h (rejects_of_opening hne)

/-- The word `nil` is reserved. -/
theorem rejects_of_nil (h : ¬ A.nil.Rejects s) : A.boolean.Rejects s ∧ A.identifier.Rejects s := by
  have hnil : ¬ (keyword Keyword.nil.word).Rejects s :=
    fun hrejects ↦ h (rejects_rule.2 (rejects_bind.2 (.inl hrejects)))
  obtain ⟨t, hmatch⟩ := Form.exists_matches_keyword hnil
  obtain ⟨rest, hrest, hend⟩ := Form.endsWord_of_matches_keyword hmatch
  have hother {word : String} (hword : isName word = true)
      (hne : Keyword.nil.word.toList ≠ word.toList) : Refuses (keyword word) s.rest := by
    rw [hrest]
    exact refuses_keyword (isNameChar_of_isName hword) (isNameChar_keyword .nil) hend hne
  constructor
  · exact refuses_boolean _ (hother (by decide) (by decide)) (hother (by decide) (by decide)) s rfl
  · exact rejects_rule.2 (rejects_map.2 (refuses_name_keyword .nil hend s hrest))

/-- What is not refused inside parentheses stands at one place, where others may be refused. -/
theorem exists_inside {α : Type} {p : Parser α} (h : ¬ RejectsInside p s) :
    ∃ u, ¬ p.Rejects u ∧ ∀ {β : Type} (q : Parser β), q.Rejects u → RejectsInside q s := by
  simp only [RejectsInside, not_forall] at h
  obtain ⟨t, u, hopen, hlayout, hp⟩ := h
  exact ⟨u, hp, fun _ hq ↦ (rejectsInside_iff hopen hlayout).2 hq⟩

theorem rejects_binaryOperator_of_head {c : Char} (hpeek : s.peek? = some c)
    (hc : ∀ op : BinaryOperator, op.symbol.toList.head? ≠ some c) : binaryOperator.Rejects s := by
  refine rejects_binaryOperator.2 fun op ↦ refuses_spelling_of_head (fun heq ↦ hc op ?_) s rfl
  rw [← heq]
  exact hpeek

theorem rejects_parts_member (g : Grammar) (h : Form.BeginsNoMember s) :
    g.parts.member.Rejects s := by
  change g.member.Rejects s
  rw [g.member_eq]
  exact Form.rejects_member.2 h.rejects_primary

/-- The keyword that stands first in the parentheses is no operator, no arrow and no member. -/
theorem rejects_of_cond (g : Grammar) (h : ¬ (cond.form g.parts).Rejects s) :
    (binaryCall.form g.parts).Rejects s ∧ (methodChain.form g.parts).Rejects s ∧
      (call.form g.parts).Rejects s := by
  obtain ⟨u, hword, hinside⟩ := exists_inside fun hrejects ↦ h (Form.rejects_cond.2 hrejects)
  obtain ⟨t, hmatch⟩ := Form.exists_matches_keyword hword
  obtain ⟨rest, hrest, -⟩ := Form.endsWord_of_matches_keyword hmatch
  have hpeek : u.peek? = some 'c' := by
    rw [Cursor.peek?, hrest]
    rfl
  have hoperator : binaryOperator.Rejects u :=
    rejects_binaryOperator_of_head hpeek fun op ↦ by cases op <;> decide
  have harrow : (literal "~>").Rejects u := by
    refine Refuses.literal (fun heq ↦ ?_) u rfl
    cases hpeek.symm.trans heq
  have hmember : g.parts.member.Rejects u :=
    rejects_parts_member g (.inl ⟨.cond, t, by decide, hmatch⟩)
  exact ⟨Form.rejects_binaryCall.2 (hinside _ hoperator),
    Form.rejects_methodChain.2 (hinside _ harrow), Form.rejects_call.2 (hinside _ hmember)⟩

/-- The arrow that stands first in the parentheses is no operator and no member. -/
theorem rejects_of_methodChain (g : Grammar) (h : ¬ (methodChain.form g.parts).Rejects s) :
    (binaryCall.form g.parts).Rejects s ∧ (call.form g.parts).Rejects s := by
  obtain ⟨u, harrow, hinside⟩ :=
    exists_inside fun hrejects ↦ h (Form.rejects_methodChain.2 hrejects)
  have hpeek : u.peek? = some '~' := by
    by_contra hne
    have hrefuses : Refuses (literal "~>") u.rest := .literal hne
    exact harrow (hrefuses u rfl)
  have hoperator : binaryOperator.Rejects u :=
    rejects_binaryOperator_of_head hpeek fun op ↦ by cases op <;> decide
  have hmember : g.parts.member.Rejects u :=
    rejects_parts_member g (.inr ⟨'~', by decide, hpeek⟩)
  exact ⟨Form.rejects_binaryCall.2 (hinside _ hoperator), Form.rejects_call.2 (hinside _ hmember)⟩

/-- Where `nil`, a conditional or a chain is read, no other form is. -/
theorem rejects_of_exclusive (g : Grammar) {a b : Primary} (ha : a ∈ [nil, cond, methodChain])
    (hne : a ≠ b) (h : ¬ (a.form g.parts).Rejects s) : (b.form g.parts).Rejects s := by
  have hopening (b : Primary) (hb : a.opening ≠ b.opening) : (b.form g.parts).Rejects s := by
    apply rejects_of_opening
    rw [opening_of_not_rejects h]
    exact fun heq ↦ hb (Option.some.inj heq)
  simp only [List.mem_cons, List.not_mem_nil, or_false] at ha
  rcases ha with rfl | rfl | rfl
  · obtain ⟨hboolean, hidentifier⟩ := rejects_of_nil h
    cases b with
    | nil => exact absurd rfl hne
    | boolean => exact hboolean
    | identifier => exact hidentifier
    | _ => exact hopening _ (by decide)
  · obtain ⟨hbinary, hchain, hcall⟩ := rejects_of_cond g h
    cases b with
    | cond => exact absurd rfl hne
    | binaryCall => exact hbinary
    | methodChain => exact hchain
    | call => exact hcall
    | _ => exact hopening _ (by decide)
  · -- A conditional would in turn exclude the chain.
    obtain ⟨hbinary, hcall⟩ := rejects_of_methodChain g h
    cases b with
    | methodChain => exact absurd rfl hne
    | cond => exact not_not.1 fun hcond ↦ h (rejects_of_cond g hcond).2.1
    | binaryCall => exact hbinary
    | call => exact hcall
    | _ => exact hopening _ (by decide)

/-- The pairs of forms that can be read at the same place. -/
def overlaps : List (Primary × Primary) := [(boolean, identifier), (binaryCall, call)]

theorem overlaps_of_opening {a b : Primary} (hne : a ≠ b) (h : a.opening = b.opening)
    (ha : a ∉ [nil, cond, methodChain]) (hb : b ∉ [nil, cond, methodChain]) :
    (a, b) ∈ overlaps ∨ (b, a) ∈ overlaps := by
  revert h ha hb
  cases a <;> cases b <;> first | exact absurd rfl hne | decide

/-- Two forms that both accept the beginning of one text are among the overlaps. -/
theorem overlaps_of_not_rejects (g : Grammar) {a b : Primary} (hne : a ≠ b)
    (ha : ¬ (a.form g.parts).Rejects s) (hb : ¬ (b.form g.parts).Rejects s) :
    (a, b) ∈ overlaps ∨ (b, a) ∈ overlaps := by
  have hopening : a.opening = b.opening :=
    Option.some.inj ((opening_of_not_rejects ha).symm.trans (opening_of_not_rejects hb))
  exact overlaps_of_opening hne hopening
    (fun hexclusive ↦ hb (rejects_of_exclusive g hexclusive hne ha))
    (fun hexclusive ↦ ha (rejects_of_exclusive g hexclusive hne.symm hb))

/-- A form overlaps with no more than one other. -/
theorem eq_of_overlaps {a b c : Primary} (hb : (a, b) ∈ overlaps ∨ (b, a) ∈ overlaps)
    (hc : (a, c) ∈ overlaps ∨ (c, a) ∈ overlaps) : b = c := by
  simp only [overlaps, List.mem_cons, List.not_mem_nil, or_false, Prod.mk.injEq] at hb hc
  grind

end Primary

/-! ## The orders that read alike -/

namespace Grammar

variable (g : Grammar)

/-- Each of the pairs is read at some place in two ways. -/
theorem exists_reading_ne {a b : Primary} (h : (a, b) ∈ Primary.overlaps) :
    ∃ s, ¬ (g.primaryRule a).Rejects s ∧ ¬ (g.primaryRule b).Rejects s ∧
      (g.primaryRule a).reading s ≠ (g.primaryRule b).reading s := by
  simp only [Primary.overlaps, List.mem_cons, List.not_mem_nil, or_false, Prod.mk.injEq] at h
  rcases h with ⟨rfl, rfl⟩ | ⟨rfl, rfl⟩
  · have hend : EndsWord [] := by simp [EndsWord]
    have hname : isName "true" = true := by decide
    obtain ⟨t, hboolean, -⟩ := reads_boolean g true hend (.ofSource "true") rfl
    obtain ⟨u, hidentifier, -⟩ := reads_identifier g hname hend (.ofSource "true") rfl
    refine ⟨.ofSource "true", fun h ↦ h.not_matches hboolean, fun h ↦ h.not_matches hidentifier,
      fun heq ↦ ?_⟩
    have hreply : (g.boolean.run (.ofSource "true")).reply =
        (g.identifier.run (.ofSource "true")).reply := congrArg Prod.fst heq
    rw [hboolean.1, hidentifier.1] at hreply
    cases hreply
  · -- Read as a call, this calls a closure whose parameters have no closing bar.
    have hbinary : (g.binaryCall.run (.ofSource "(| a b)")).reply.verdict = .matched := by
      rcases g with ⟨_ | _⟩ <;> decide +kernel
    have hcall : (g.call.run (.ofSource "(| a b)")).reply.verdict = .recovered := by
      rcases g with ⟨_ | _⟩ <;> decide +kernel
    refine ⟨.ofSource "(| a b)", fun h ↦ ?_, fun h ↦ ?_, fun heq ↦ ?_⟩
    · cases hbinary.symm.trans (congrArg Reply.verdict h)
    · cases hcall.symm.trans (congrArg Reply.verdict h)
    · cases hbinary.symm.trans ((congrArg (·.1.verdict) heq).trans hcall)

/-- Of two forms that can be read at the same place, the one that is tried first is read. -/
theorem reading_choice_of_pair {order : List Primary} (horder : order.Perm Primary.all)
    {a b : Primary} (hpair : (a, b) ∈ Primary.overlaps ∨ (b, a) ∈ Primary.overlaps)
    (hsub : [a, b] <+ order) {s : Cursor} (ha : ¬ (g.primaryRule a).Rejects s) :
    (choice (order.map g.primaryRule)).reading s = (g.primaryRule a).reading s := by
  have hfirst : IsFirst g.primaryRule s order a := by
    refine ⟨hsub.subset (by simp), ha, fun c _ hne hc ↦ ?_⟩
    rw [primaryRule_eq] at ha hc
    obtain rfl := Primary.eq_of_overlaps hpair (Primary.overlaps_of_not_rejects g hne.symm ha hc)
    exact hsub
  exact hfirst.reading_choice (horder.nodup_iff.2 Primary.nodup_all)

/-- The forms of primary expressions can be tried in any order that keeps booleans before names and
binary calls before calls; in any other order, some source is read differently. -/
theorem primary_reordered_iff (order : List Primary) (horder : order.Perm Primary.all) :
    (∀ s, (choice (order.map g.primaryRule)).reading s = g.primary.reading s) ↔
      [.boolean, .identifier] <+ order ∧ [.binaryCall, .call] <+ order := by
  have hpairs : ([.boolean, .identifier] <+ order ∧ [.binaryCall, .call] <+ order) ↔
      ∀ pair ∈ Primary.overlaps, [pair.1, pair.2] <+ order := by
    simp [Primary.overlaps]
  have hall {a b : Primary} (h : (a, b) ∈ Primary.overlaps) :
      [a, b] <+ Primary.all ∧ ¬ [b, a] <+ Primary.all := by
    simp only [Primary.overlaps, List.mem_cons, List.not_mem_nil, or_false, Prod.mk.injEq] at h
    rcases h with ⟨rfl, rfl⟩ | ⟨rfl, rfl⟩ <;> decide
  rw [hpairs, primary_eq_choice]
  constructor
  · rintro h ⟨a, b⟩ hpair
    obtain ⟨s, ha, hb, hdiffer⟩ := g.exists_reading_ne hpair
    have hne : a ≠ b := fun heq ↦ hdiffer (by rw [heq])
    have hmem (c : Primary) : c ∈ order := horder.mem_iff.2 c.mem_all
    refine (pair_sublist_or hne (hmem a) (hmem b)).resolve_right fun hswapped ↦ hdiffer ?_
    calc
      (g.primaryRule a).reading s = (choice (Primary.all.map g.primaryRule)).reading s :=
        (g.reading_choice_of_pair (.refl _) (.inl hpair) (hall hpair).1 ha).symm
      _ = (choice (order.map g.primaryRule)).reading s := (h s).symm
      _ = (g.primaryRule b).reading s := g.reading_choice_of_pair horder (.inr hpair) hswapped hb
  · intro h s
    refine reading_choice_of_perm horder Primary.nodup_all fun a b hne ha hb hsub ↦ ?_
    rw [primaryRule_eq] at ha hb
    rcases Primary.overlaps_of_not_rejects g hne ha hb with hpair | hpair
    · exact h _ hpair
    · exact absurd hsub (hall hpair).2

/-- The parenthesised forms can be tried before all others. -/
theorem primary_reordered_rotated :
    (Primary.all.rotate 6).Perm Primary.all ∧
      ∀ s, (choice ((Primary.all.rotate 6).map ({} : Grammar).primaryRule)).reading s =
        ({} : Grammar).primary.reading s :=
  ⟨List.rotate_perm _ _,
    (primary_reordered_iff {} _ (List.rotate_perm _ _)).2 ⟨by decide, by decide⟩⟩

end Grammar

end Lispette
