import Lispette.Proofs.Headline

/-!
# Outlines lose nothing

The outline of an expression lists a tree whose nodes are the lines of expressions and the labels of
their parts. The line of an expression tells its kind, and the kind tells how the labels below it
are to be read: branches end at another label than that of a branch, calls where no more of them
follow. So the tree of a program that was read tells the program, errors included.
-/

namespace Lispette

open OutlineNode

namespace Expr

/-! ## Expressions as trees -/

/-- The expression as a tree of texts. -/
def node (e : Expr) : OutlineNode :=
  .node e.headline <|
    match e with
    | array items => [list "items" (items.map node)]
    | unary _ operand => [operand.node]
    | binary _ left right => [field "left" left.node, field "right" right.node]
    | call callee arguments => [field "callee" callee.node, list "args" (arguments.map node)]
    | chain receiver calls =>
      field "receiver" receiver.node :: calls.map fun c ↦
        .node "~>" [field "target" c.target.node, list "args" (c.arguments.map node)]
    | member target key => [field "target" target.node, field "key" key.node]
    | constant _ value => [value.node]
    | function _ _ body => [list "body" (body.map node)]
    | print value => [value.node]
    | block statements => [list "statements" (statements.map node)]
    | closure _ body => [list "body" (body.map node)]
    | cond branches otherwise =>
      (branches.flatMap fun b ↦
        [field "when" b.condition.node, list "then" (b.body.map node)]) ++
        match otherwise with
        | none => []
        | some body => [list "else" (body.map node)]
    | number _ | string _ | boolean _ | nil | identifier _ | error _ => []
termination_by sizeOf e
decreasing_by
  all_goals
    apply sizeOf_lt_of_mem_children
    simp only [children]
    grind

theorem node_eq (e : Expr) : ∃ parts, e.node = .node e.headline parts := by
  rw [node.eq_def]
  exact ⟨_, rfl⟩

def callNode (c : ChainCall Expr) : OutlineNode :=
  .node "~>" [field "target" c.target.node, list "args" (c.arguments.map node)]

def branchNodes (b : Branch Expr) : List OutlineNode :=
  [field "when" b.condition.node, list "then" (b.body.map node)]

def elseNode (body : List Expr) : OutlineNode := list "else" (body.map node)

theorem node_chain (receiver : Expr) (calls : List (ChainCall Expr)) :
    (chain receiver calls).node =
      .node "MethodCallChain" (field "receiver" receiver.node :: calls.map callNode) := by
  rw [node]
  rfl

/-- A conditional lists its branches flat, with two nodes for each, and the last body behind them.
-/
theorem node_cond (branches : List (Branch Expr)) (otherwise : Option (List Expr)) :
    (cond branches otherwise).node =
      .node "Cond" (branches.flatMap branchNodes ++ (otherwise.map elseNode).toList) := by
  cases otherwise <;> rw [node] <;> rfl

/-! ## Lines of expressions -/

variable {depth : Nat}

/-- The lines of the expression are those of its tree. -/
def ListsNode (e : Expr) : Prop := ∀ depth, e.outline depth = lines depth [e.node]

/-- The lines of a list of expressions are those of their nodes. -/
theorem outlines_eq (items : List Expr) (h : ∀ e ∈ items, e.ListsNode) :
    outlines depth items = lines depth (items.map node) := by
  induction items with
  | nil => rw [outlines, List.map_nil, lines]
  | cons e items ih =>
    obtain ⟨he, h⟩ := List.forall_mem_cons.1 h
    rw [outlines, he, ih h, List.map_cons, ← lines_append, List.singleton_append]

theorem callOutlines_eq (calls : List (ChainCall Expr))
    (h : ∀ c ∈ calls, c.target.ListsNode ∧ ∀ e ∈ c.arguments, e.ListsNode) :
    callOutlines depth calls = lines depth (calls.map callNode) := by
  induction calls with
  | nil => rw [callOutlines, List.map_nil, lines]
  | cons c calls ih =>
    obtain ⟨⟨htarget, harguments⟩, h⟩ := List.forall_mem_cons.1 h
    rw [callOutlines, htarget, outlines_eq _ harguments, ← lines_field, ← lines_list, ih h,
      List.map_cons, callNode, lines, ← lines_append, List.singleton_append]

theorem branchOutlines_eq (branches : List (Branch Expr))
    (h : ∀ b ∈ branches, b.condition.ListsNode ∧ ∀ e ∈ b.body, e.ListsNode) :
    branchOutlines depth branches = lines depth (branches.flatMap branchNodes) := by
  induction branches with
  | nil => rw [branchOutlines, List.flatMap_nil, lines]
  | cons b branches ih =>
    obtain ⟨⟨hcondition, hbody⟩, h⟩ := List.forall_mem_cons.1 h
    rw [branchOutlines, hcondition, outlines_eq _ hbody, ← lines_field, ← lines_list, ih h,
      List.flatMap_cons, branchNodes, lines_append, ← lines_append, List.singleton_append]

theorem elseOutline_eq (otherwise : Option (List Expr))
    (h : ∀ body ∈ otherwise, ∀ e ∈ body, e.ListsNode) :
    elseOutline depth otherwise = lines depth (otherwise.map elseNode).toList := by
  cases otherwise with
  | none => rw [elseOutline, Option.map_none, Option.toList_none, lines]
  | some body =>
    rw [elseOutline, outlines_eq _ (h body rfl), ← lines_list, Option.map_some, Option.toList_some,
      elseNode]

/-- An outline is the listing of a tree. -/
theorem outline_eq (e : Expr) : e.ListsNode := by
  induction e using induction_on_children with
  | h e ih =>
    intro depth
    cases e with
    | number | string | boolean | nil | identifier | error =>
      rw [outline, node, lines_node, lines]
      rfl
    | array items =>
      rw [outline, outlines_eq items ih, ← lines_list, node, lines_node]
      rfl
    | unary op operand =>
      rw [outline, ih operand (by simp [children]), node, lines_node]
      rfl
    | binary op left right =>
      rw [outline, ih left (by simp [children]), ih right (by simp [children]), ← lines_field,
        ← lines_field, ← lines_append, node, lines_node]
      rfl
    | call callee arguments =>
      obtain ⟨hcallee, harguments⟩ := List.forall_mem_cons.1 ih
      rw [outline, hcallee, outlines_eq arguments harguments, ← lines_field, ← lines_list,
        ← lines_append, node, lines_node]
      rfl
    | chain receiver calls =>
      obtain ⟨hreceiver, hcalls⟩ := forall_children_chain.1 ih
      rw [outline, hreceiver, callOutlines_eq calls hcalls, ← lines_field, ← lines_append,
        node_chain, lines_node, List.singleton_append]
    | member target key =>
      rw [outline, ih target (by simp [children]), ih key (by simp [children]), ← lines_field,
        ← lines_field, ← lines_append, node, lines_node]
      rfl
    | constant name value =>
      rw [outline, ih value (by simp [children]), node, lines_node]
      rfl
    | function name parameters body =>
      rw [outline, outlines_eq body ih, ← lines_list, node, lines_node]
      rfl
    | print value =>
      rw [outline, ih value (by simp [children]), node, lines_node]
      rfl
    | block statements =>
      rw [outline, outlines_eq statements ih, ← lines_list, node, lines_node]
      rfl
    | closure parameters body =>
      rw [outline, outlines_eq body ih, ← lines_list, node, lines_node]
      rfl
    | cond branches otherwise =>
      obtain ⟨hbranches, hotherwise⟩ := forall_children_cond.1 ih
      rw [outline, branchOutlines_eq branches hbranches, elseOutline_eq otherwise hotherwise,
        ← lines_append, node_cond, lines_node]

/-! ## Expressions that were read -/

/-- What can stand in a program that was read, at the top or deeper inside: an expression in its
place, or an error that names a fault. -/
def IsRead (e : Expr) : Prop :=
  (∃ place, e.WellShaped place) ∨ ∃ d : SyntaxError, e = error d ∧ d.NamesFault

variable {e e' : Expr}

theorem IsRead.hasSourceTexts (h : e.IsRead) : e.HasSourceTexts := by
  rcases h with ⟨place, hshaped⟩ | ⟨d, rfl, hd⟩
  · exact hshaped.hasSourceTexts
  · exact hd

/-- An error has no parts, and the parts of something well-shaped are well-shaped. -/
theorem IsRead.child {d : Expr} (h : e.IsRead) (hd : d ∈ e.children) : d.IsRead := by
  rcases h with ⟨place, hshaped⟩ | ⟨_, rfl, -⟩
  · exact .inl (hshaped.child hd)
  · simp [children] at hd

/-! ## Legible lines -/

theorem isLegible_callNode {c : ChainCall Expr} (htarget : c.target.node.IsLegible)
    (harguments : ∀ e ∈ c.arguments, e.node.IsLegible) : (callNode c).IsLegible :=
  .node (by decide) (List.forall_mem_cons.2 ⟨isLegible_field (by decide) htarget,
    List.forall_mem_singleton.2
      (isLegible_list (by decide) (by decide) (List.forall_mem_map.2 harguments))⟩)

theorem isLegible_branchNodes {b : Branch Expr} (hcondition : b.condition.node.IsLegible)
    (hbody : ∀ e ∈ b.body, e.node.IsLegible) : ∀ n ∈ branchNodes b, n.IsLegible :=
  List.forall_mem_cons.2 ⟨isLegible_field (by decide) hcondition,
    List.forall_mem_singleton.2
      (isLegible_list (by decide) (by decide) (List.forall_mem_map.2 hbody))⟩

/-- Headlines fit on a line, and so do all labels. -/
theorem isLegible_node (h : e.IsRead) : e.node.IsLegible := by
  induction e using induction_on_children with
  | h e ih =>
    have hheadline := isLineText_headline h.hasSourceTexts
    have hparts : ∀ d ∈ e.children, d.node.IsLegible := fun d hd ↦ ih d hd (h.child hd)
    cases e <;> simp only [node, node_chain, node_cond] <;> refine .node hheadline ?_ <;>
      simp only [List.forall_mem_cons, List.forall_mem_append, List.forall_mem_map,
        List.forall_mem_flatMap, List.not_mem_nil, false_imp_iff, implies_true, and_true]
    case array items => exact isLegible_list (by decide) (by decide) (List.forall_mem_map.2 hparts)
    case unary op operand => exact hparts operand (by simp [children])
    case binary op left right =>
      exact ⟨isLegible_field (by decide) (hparts left (by simp [children])),
        isLegible_field (by decide) (hparts right (by simp [children]))⟩
    case call callee arguments =>
      obtain ⟨hcallee, harguments⟩ := List.forall_mem_cons.1 hparts
      exact ⟨isLegible_field (by decide) hcallee,
        isLegible_list (by decide) (by decide) (List.forall_mem_map.2 harguments)⟩
    case chain receiver calls =>
      obtain ⟨hreceiver, hcalls⟩ := forall_children_chain.1 hparts
      exact ⟨isLegible_field (by decide) hreceiver,
        fun c hc ↦ isLegible_callNode (hcalls c hc).1 (hcalls c hc).2⟩
    case member target key =>
      exact ⟨isLegible_field (by decide) (hparts target (by simp [children])),
        isLegible_field (by decide) (hparts key (by simp [children]))⟩
    case constant name value => exact hparts value (by simp [children])
    case function name parameters body =>
      exact isLegible_list (by decide) (by decide) (List.forall_mem_map.2 hparts)
    case print value => exact hparts value (by simp [children])
    case block statements =>
      exact isLegible_list (by decide) (by decide) (List.forall_mem_map.2 hparts)
    case closure parameters body =>
      exact isLegible_list (by decide) (by decide) (List.forall_mem_map.2 hparts)
    case cond branches otherwise =>
      obtain ⟨hbranches, hotherwise⟩ := forall_children_cond.1 hparts
      refine ⟨fun b hb ↦ isLegible_branchNodes (hbranches b hb).1 (hbranches b hb).2, ?_⟩
      cases otherwise with
      | none => simp
      | some body =>
        exact List.forall_mem_singleton.2
          (isLegible_list (by decide) (by decide) (List.forall_mem_map.2 (hotherwise body rfl)))

/-! ## Trees of expressions -/

/-- The tree of the expression tells it from all others that may be read. -/
def ToldByNode (e : Expr) : Prop := ∀ e' : Expr, e'.IsRead → e.node = e'.node → e = e'

/-- Lists are told node by node. -/
theorem nodes_inj {items items' : List Expr} (htold : ∀ e ∈ items, e.ToldByNode)
    (hread : ∀ e ∈ items', e.IsRead) (h : items.map node = items'.map node) : items = items' :=
  eq_of_map_eq (fun e he e' he' ↦ htold e he e' (hread e' he')) h

theorem callNodes_inj {calls calls' : List (ChainCall Expr)}
    (htold : ∀ c ∈ calls, c.target.ToldByNode ∧ ∀ e ∈ c.arguments, e.ToldByNode)
    (hread : ∀ c ∈ calls', c.target.IsRead ∧ ∀ e ∈ c.arguments, e.IsRead)
    (h : calls.map callNode = calls'.map callNode) : calls = calls' := by
  refine eq_of_map_eq (fun c hc c' hc' hcall ↦ ?_) h
  simp only [callNode, field, OutlineNode.node.injEq, List.cons.injEq, true_and, and_true] at hcall
  obtain ⟨htarget, harguments⟩ := hcall
  obtain ⟨hctarget, hcarguments⟩ := htold c hc
  obtain ⟨htarget', harguments'⟩ := hread c' hc'
  calc
    c = ⟨c.target, c.arguments⟩ := rfl
    _ = c' := by
      rw [hctarget _ htarget' htarget, nodes_inj hcarguments harguments' (list_inj harguments)]

/-- The label after the branches tells whether there are more of them. -/
theorem field_ne_elseNode (part : OutlineNode) (body : List Expr) :
    field "when" part ≠ elseNode body := by
  rw [elseNode, list]
  split <;> simp [field]

/-- Branches come in pairs of labels, and the body without a condition after all of them. -/
theorem branchNodes_inj {branches branches' : List (Branch Expr)}
    {otherwise otherwise' : Option (List Expr)}
    (htold : ∀ b ∈ branches, b.condition.ToldByNode ∧ ∀ e ∈ b.body, e.ToldByNode)
    (hread : ∀ b ∈ branches', b.condition.IsRead ∧ ∀ e ∈ b.body, e.IsRead)
    (h : branches.flatMap branchNodes ++ (otherwise.map elseNode).toList =
      branches'.flatMap branchNodes ++ (otherwise'.map elseNode).toList) :
    branches = branches' ∧ otherwise.map elseNode = otherwise'.map elseNode := by
  induction branches generalizing branches' with
  | nil =>
    cases branches' with
    | nil =>
      refine ⟨rfl, ?_⟩
      cases otherwise <;> cases otherwise' <;> simp_all
    | cons b' branches' =>
      cases otherwise with
      | none => simp [branchNodes] at h
      | some body =>
        rw [List.flatMap_cons, branchNodes] at h
        exact absurd (List.cons.inj h).1.symm (field_ne_elseNode _ body)
  | cons b branches ih =>
    cases branches' with
    | nil =>
      cases otherwise' with
      | none => simp [branchNodes] at h
      | some body' =>
        rw [List.flatMap_cons, branchNodes] at h
        exact absurd (List.cons.inj h).1 (field_ne_elseNode _ body')
    | cons b' branches' =>
      obtain ⟨⟨hbcondition, hbbody⟩, htold⟩ := List.forall_mem_cons.1 htold
      obtain ⟨⟨hcondition', hbody'⟩, hread⟩ := List.forall_mem_cons.1 hread
      simp only [List.flatMap_cons, branchNodes, field, List.cons_append, List.nil_append,
        List.cons.injEq, OutlineNode.node.injEq, true_and, and_true] at h
      obtain ⟨hcondition, hbody, hmore⟩ := h
      obtain ⟨hbranches, hotherwise⟩ := ih htold hread hmore
      refine ⟨?_, hotherwise⟩
      calc
        b :: branches = ⟨b.condition, b.body⟩ :: branches := rfl
        _ = b' :: branches' := by
          rw [hbcondition _ hcondition' hcondition, nodes_inj hbbody hbody' (list_inj hbody),
            hbranches]

theorem elseNode_inj {otherwise otherwise' : Option (List Expr)}
    (htold : ∀ body ∈ otherwise, ∀ e ∈ body, e.ToldByNode)
    (hread : ∀ body ∈ otherwise', ∀ e ∈ body, e.IsRead)
    (h : otherwise.map elseNode = otherwise'.map elseNode) : otherwise = otherwise' := by
  cases otherwise with
  | none => exact (Option.map_eq_none_iff.1 h.symm).symm
  | some body =>
    obtain ⟨body', rfl, hbody⟩ := Option.map_eq_some_iff.1 h.symm
    rw [nodes_inj (htold body rfl) (hread body' rfl) (list_inj hbody.symm)]

theorem headline_eq_of_node (h : e.node = e'.node) : e.headline = e'.headline := by
  obtain ⟨parts, hnode⟩ := e.node_eq
  obtain ⟨parts', hnode'⟩ := e'.node_eq
  rw [hnode, hnode'] at h
  exact (OutlineNode.node.inj h).1

/-- The line tells the kind and the texts, and the nodes below tell the parts. -/
theorem eq_of_node (he : e.IsRead) (he' : e'.IsRead) (hparts : ∀ d ∈ e.children, d.ToldByNode)
    (h : e.node = e'.node) : e = e' := by
  have hline := headline_eq_of_node h
  have htexts := he.hasSourceTexts
  have htexts' := he'.hasSourceTexts
  have hread : ∀ d ∈ e'.children, d.IsRead := fun d ↦ he'.child
  clear he he'
  have hkind := kind_eq_of_headline hline
  induction e, e', hkind using cases_of_kind_eq <;>
    simp only [node, node_chain, node_cond, OutlineNode.node.injEq, List.cons.injEq, field,
      and_true, true_and] at h
  case number value value' =>
    obtain ⟨code, rfl⟩ := htexts
    obtain ⟨code', rfl⟩ := htexts'
    rw [Binary64.display_inj ((String.append_right_inj _).1 hline)]
  case string text text' =>
    rw [headline, headline, String.append_left_inj, String.append_right_inj] at hline
    rw [hline]
  case boolean value value' =>
    cases value <;> cases value' <;> simp_all [headline]
  case nil => rfl
  case array items items' => exact congrArg array (nodes_inj hparts hread (list_inj h.2))
  case identifier name name' => rw [(String.append_right_inj _).1 hline]
  case unary op operand op' operand' =>
    have hop := (String.append_right_inj _).1 hline
    rw [UnaryOperator.symbol_inj hop,
      hparts operand (by simp [children]) operand' (hread _ (by simp [children])) h.2]
  case binary op left right op' left' right' =>
    have hop := (String.append_right_inj _).1 hline
    obtain ⟨-, hleft, hright⟩ := h
    rw [BinaryOperator.symbol_injective hop,
      hparts left (by simp [children]) left' (hread _ (by simp [children])) hleft,
      hparts right (by simp [children]) right' (hread _ (by simp [children])) hright]
  case call callee arguments callee' arguments' =>
    obtain ⟨hcallee, harguments⟩ := List.forall_mem_cons.1 hparts
    obtain ⟨hcallee', harguments'⟩ := List.forall_mem_cons.1 hread
    rw [hcallee callee' hcallee' h.2.1, nodes_inj harguments harguments' (list_inj h.2.2)]
  case chain receiver calls receiver' calls' =>
    obtain ⟨hreceiver, hcalls⟩ := forall_children_chain.1 hparts
    obtain ⟨hreceiver', hcalls'⟩ := forall_children_chain.1 hread
    rw [hreceiver receiver' hreceiver' h.1, callNodes_inj hcalls hcalls' h.2]
  case member target key target' key' =>
    obtain ⟨-, htarget, hkey⟩ := h
    rw [hparts target (by simp [children]) target' (hread _ (by simp [children])) htarget,
      hparts key (by simp [children]) key' (hread _ (by simp [children])) hkey]
  case constant name value name' value' =>
    rw [(String.append_right_inj _).1 hline,
      hparts value (by simp [children]) value' (hread _ (by simp [children])) h.2]
  case function name parameters body name' parameters' body' =>
    obtain ⟨hname, hparameters⟩ := functionLine_inj htexts.1 htexts'.1 htexts.2 htexts'.2 hline
    have hbody : body = body' := nodes_inj hparts hread (list_inj h.2)
    rw [hname, hparameters, hbody]
  case print value value' =>
    rw [hparts value (by simp [children]) value' (hread _ (by simp [children])) h.2]
  case block statements statements' => exact congrArg block (nodes_inj hparts hread (list_inj h.2))
  case closure parameters body parameters' body' =>
    have hbody : body = body' := nodes_inj hparts hread (list_inj h.2)
    rw [closureLine_inj htexts htexts' hline, hbody]
  case cond branches otherwise branches' otherwise' =>
    obtain ⟨hbranches, hotherwise⟩ := forall_children_cond.1 hparts
    obtain ⟨hbranches', hotherwise'⟩ := forall_children_cond.1 hread
    obtain ⟨hbranches, helse⟩ := branchNodes_inj hbranches hbranches' h
    rw [hbranches, elseNode_inj hotherwise hotherwise' helse]
  case error error error' => rw [SyntaxError.text_inj ((String.append_right_inj _).1 hline)]

/-- By induction on the expression. -/
theorem toldByNode (h : e.IsRead) : e.ToldByNode := by
  induction e using induction_on_children with
  | h e ih => exact fun e' he' hnode ↦ eq_of_node h he' (fun d hd ↦ ih d hd (h.child hd)) hnode

end Expr

/-! ## Programs -/

theorem Program.tree_eq (p : Program) :
    p.tree = OutlineLine.renderAll (lines 0 [.node "Program" (p.body.map Expr.node)]) := by
  rw [tree, Expr.outlines_eq p.body fun e _ ↦ e.outline_eq, lines_node]

/-- What is read from a source is well-shaped, or an error with the message of a fault. -/
theorem isRead_of_parse {source : String} {p : Program} (hp : (parse source).program = some p) :
    ∀ e ∈ p.body, e.IsRead := by
  have hmatch := Grammar.program_parse {} hp
  intro e he
  rcases (Grammar.yields_program {} _ p _ hmatch).2 e he with herror | hshaped
  · cases e with
    | error d =>
      have hd : d ∈ p.errors := List.mem_filterMap.2 ⟨_, he, rfl⟩
      exact .inr ⟨d, rfl, Grammar.yields_program_errors {} _ p _ hmatch d hd⟩
    | _ => cases herror
  · exact .inl ⟨_, hshaped⟩

/-- From the text to its lines, from these to nodes, and from nodes to statements. -/
theorem tree_inj_of_isRead {p p' : Program} (hp : ∀ e ∈ p.body, e.IsRead)
    (hp' : ∀ e ∈ p'.body, e.IsRead) (h : p.tree = p'.tree) : p = p' := by
  have hlegible {p : Program} (hp : ∀ e ∈ p.body, e.IsRead) :
      ∀ n ∈ [OutlineNode.node "Program" (p.body.map Expr.node)], n.IsLegible :=
    List.forall_mem_singleton.2 (.node (by decide) (List.forall_mem_map.2 fun e he ↦
      Expr.isLegible_node (hp e he)))
  rw [Program.tree_eq, Program.tree_eq] at h
  have hlines := OutlineLine.renderAll_inj (OutlineNode.isLineText_lines (hlegible hp) 0)
    (OutlineNode.isLineText_lines (hlegible hp') 0) h
  have hnodes : p.body.map Expr.node = p'.body.map Expr.node := by
    simpa using OutlineNode.lines_inj hlines
  calc
    p = ⟨p.body⟩ := rfl
    _ = p' := by rw [Expr.nodes_inj (fun e he ↦ Expr.toldByNode (hp e he)) hp' hnodes]

/-- Different programs that were read are shown as different trees, also where they hold errors. -/
theorem parse_tree_ne {source source' : String} {p p' : Program}
    (hp : (parse source).program = some p) (hp' : (parse source').program = some p')
    (h : p ≠ p') : p.tree ≠ p'.tree :=
  fun htree ↦ h (tree_inj_of_isRead (isRead_of_parse hp) (isRead_of_parse hp') htree)

/-- Two sources that differ in nothing but the line on which an unclosed call begins. -/
theorem parse_tree_ne_line :
    ∃ p p', (parse "(cond a [] else \x7b\x7d) (f").program = some p ∧
      (parse "(cond a [] else \x7b\x7d)\n(f").program = some p' ∧ p.tree ≠ p'.tree := by
  have hlines : (parse "(cond a [] else \x7b\x7d) (f").program.map (·.errors.map (·.line)) =
      some [1] := by
    decide +kernel
  have hlines' : (parse "(cond a [] else \x7b\x7d)\n(f").program.map (·.errors.map (·.line)) =
      some [2] := by
    decide +kernel
  obtain ⟨p, hp, hline⟩ := Option.map_eq_some_iff.1 hlines
  obtain ⟨p', hp', hline'⟩ := Option.map_eq_some_iff.1 hlines'
  refine ⟨p, p', hp, hp', parse_tree_ne hp hp' ?_⟩
  rintro rfl
  rw [hline] at hline'
  cases hline'

end Lispette
