import Lispette.Outline
import Lispette.Proofs.Delimited

/-!
# Trees and their lines

An outline lists a tree of texts line by line, each node before its parts and the parts one level
deeper. Nothing closes a node: its parts end where a line stands no deeper than the node itself.
That is enough to tell the tree from its lines. The lines in turn can be told from their text, as
long as none of them holds a line break or begins with a blank.
-/

namespace Lispette

/-! ## From text to lines -/

/-- The text can stand on a line of its own behind any indentation. -/
def IsLineText (text : String) : Prop := '\n' ∉ text.toList ∧ text.toList.head? ≠ some ' '

instance (text : String) : Decidable (IsLineText text) :=
  inferInstanceAs (Decidable (_ ∧ _))

namespace OutlineLine

def indented (line : OutlineLine) : List Char :=
  List.replicate (2 * line.depth) ' ' ++ line.text.toList

theorem toList_renderAll_cons (line : OutlineLine) (lines : List OutlineLine) :
    (renderAll (line :: lines)).toList = line.indented ++ '\n' :: (renderAll lines).toList := by
  simp [renderAll, render, indented]

/-- The indentation ends where the text begins. -/
theorem indented_inj {line line' : OutlineLine} (hline : IsLineText line.text)
    (hline' : IsLineText line'.text) (h : line.indented = line'.indented) : line = line' := by
  have hblank (n : Nat) : ∀ c ∈ List.replicate n ' ', decide (c = ' ') = true :=
    fun c hc ↦ decide_eq_true (List.eq_of_mem_replicate hc)
  have hhead {text : String} (htext : IsLineText text) :
      ∀ c ∈ text.toList.head?, decide (c = ' ') = false :=
    fun c hc ↦ decide_eq_false fun hblank ↦ htext.2 (hblank ▸ hc)
  obtain ⟨hindent, htext⟩ := Text.append_inj_of_span (hblank _) (hblank _) (hhead hline)
    (hhead hline') h
  have hdepth : line.depth = line'.depth := by
    have hlength := congrArg List.length hindent
    rw [List.length_replicate, List.length_replicate] at hlength
    omega
  calc
    line = ⟨line.depth, line.text⟩ := rfl
    _ = line' := by rw [hdepth, String.toList_inj.1 htext]

/-- A newline therefore ends the line, and the lines can be told from the text. -/
theorem newline_not_mem_indented {line : OutlineLine} (hline : IsLineText line.text) :
    '\n' ∉ line.indented := by
  intro h
  rcases List.mem_append.1 h with h | h
  · exact absurd (List.eq_of_mem_replicate h) (by decide)
  · exact hline.1 h

/-- Lines are told by their text. -/
theorem renderAll_inj {lines lines' : List OutlineLine} (hlines : ∀ l ∈ lines, IsLineText l.text)
    (hlines' : ∀ l ∈ lines', IsLineText l.text) (h : renderAll lines = renderAll lines') :
    lines = lines' := by
  induction lines generalizing lines' with
  | nil =>
    cases lines' with
    | nil => rfl
    | cons line' lines' =>
      have h := congrArg String.toList h
      rw [toList_renderAll_cons] at h
      simp [renderAll] at h
  | cons line lines ih =>
    cases lines' with
    | nil =>
      have h := congrArg String.toList h
      rw [toList_renderAll_cons] at h
      simp [renderAll] at h
    | cons line' lines' =>
      obtain ⟨hline, hlines⟩ := List.forall_mem_cons.1 hlines
      obtain ⟨hline', hlines'⟩ := List.forall_mem_cons.1 hlines'
      have h := congrArg String.toList h
      rw [toList_renderAll_cons, toList_renderAll_cons] at h
      obtain ⟨hfirst, hmore⟩ := Text.append_cons_inj (newline_not_mem_indented hline)
        (newline_not_mem_indented hline') h
      rw [indented_inj hline hline' hfirst, ih hlines hlines' (String.toList_inj.1 hmore)]

end OutlineLine

/-! ## From lines to trees -/

/-- A tree of texts. -/
inductive OutlineNode where
  | node (text : String) (parts : List OutlineNode)

namespace OutlineNode

/-- The lines of a list of nodes. -/
def lines (depth : Nat) : List OutlineNode → List OutlineLine
  | [] => []
  | node text parts :: more => ⟨depth, text⟩ :: (lines (depth + 1) parts ++ lines depth more)

/-- No line in front is as deep as this, so what came before has ended. -/
def Ended (depth : Nat) (lines : List OutlineLine) : Prop := ∀ l ∈ lines.head?, l.depth < depth

theorem ended_nil (depth : Nat) : Ended depth [] := by simp [Ended]

/-- The parts of a node end where a line stands less deep. -/
theorem ended_append {depth : Nat} (nodes : List OutlineNode) {rest : List OutlineLine}
    (hrest : Ended depth rest) : Ended (depth + 1) (lines depth nodes ++ rest) := by
  cases nodes with
  | nil =>
    rw [lines, List.nil_append]
    exact fun l hl ↦ Nat.lt_succ_of_lt (hrest l hl)
  | cons n more =>
    cases n
    simp [Ended, lines]

/-- Nodes are told by their lines. -/
theorem lines_append_inj (nodes nodes' : List OutlineNode) {depth : Nat}
    {rest rest' : List OutlineLine} (hrest : Ended depth rest) (hrest' : Ended depth rest')
    (h : lines depth nodes ++ rest = lines depth nodes' ++ rest') :
    nodes = nodes' ∧ rest = rest' := by
  match nodes, nodes' with
  | [], [] => simpa [lines] using h
  | [], node text' parts' :: more' =>
    rw [lines, lines, List.nil_append, List.cons_append] at h
    have hdepth := hrest _ (by rw [h]; rfl)
    exact absurd hdepth (Nat.lt_irrefl depth)
  | node text parts :: more, [] =>
    rw [lines, lines, List.nil_append, List.cons_append] at h
    have hdepth := hrest' _ (by rw [← h]; rfl)
    exact absurd hdepth (Nat.lt_irrefl depth)
  | node text parts :: more, node text' parts' :: more' =>
    simp only [lines, List.cons_append, List.append_assoc, List.cons.injEq, OutlineLine.mk.injEq,
      true_and] at h
    obtain ⟨htext, hlines⟩ := h
    obtain ⟨hparts, hlines⟩ := lines_append_inj parts parts' (ended_append more hrest)
      (ended_append more' hrest') hlines
    obtain ⟨hmore, hrests⟩ := lines_append_inj more more' hrest hrest' hlines
    exact ⟨by rw [htext, hparts, hmore], hrests⟩

theorem lines_node (depth : Nat) (text : String) (parts : List OutlineNode) :
    lines depth [node text parts] = ⟨depth, text⟩ :: lines (depth + 1) parts := by
  rw [lines, lines, List.append_nil]

/-- The depth of the lines tells the tree. -/
theorem lines_inj {nodes nodes' : List OutlineNode} {depth : Nat}
    (h : lines depth nodes = lines depth nodes') : nodes = nodes' :=
  (lines_append_inj nodes nodes' (ended_nil depth) (ended_nil depth) (by rw [h])).1

theorem lines_append (depth : Nat) (nodes more : List OutlineNode) :
    lines depth (nodes ++ more) = lines depth nodes ++ lines depth more := by
  induction nodes with
  | nil => rw [lines, List.nil_append, List.nil_append]
  | cons n nodes ih =>
    cases n
    rw [List.cons_append, lines, lines, ih, List.cons_append, List.append_assoc]

/-- All texts in the tree can stand on lines of their own. -/
inductive IsLegible : OutlineNode → Prop where
  | node {text : String} {parts : List OutlineNode} : IsLineText text →
    (∀ n ∈ parts, IsLegible n) → IsLegible (node text parts)

/-- By induction on the nodes and their parts. -/
theorem isLineText_lines {nodes : List OutlineNode} (hnodes : ∀ n ∈ nodes, n.IsLegible)
    (depth : Nat) : ∀ l ∈ lines depth nodes, IsLineText l.text := by
  match nodes with
  | [] => simp [lines]
  | node text parts :: more =>
    obtain ⟨hnode, hmore⟩ := List.forall_mem_cons.1 hnodes
    cases hnode with
    | node htext hparts =>
      rw [lines]
      exact List.forall_mem_cons.2 ⟨htext, List.forall_mem_append.2
        ⟨isLineText_lines hparts (depth + 1), isLineText_lines hmore depth⟩⟩

/-! ## Labels -/

/-- A label over one part. -/
def field (label : String) (part : OutlineNode) : OutlineNode := node (label ++ ":") [part]

/-- A label over a list of parts; an empty list stands beside its label. -/
def list (label : String) (parts : List OutlineNode) : OutlineNode :=
  if parts.isEmpty then node (label ++ ": []") [] else node (label ++ ":") parts

theorem lines_field (depth : Nat) (label : String) (part : OutlineNode) :
    lines depth [field label part] = Outline.field depth label (lines (depth + 1) [part]) := by
  rw [field, lines_node, Outline.field]

theorem lines_list (depth : Nat) (label : String) (parts : List OutlineNode) :
    lines depth [list label parts] = Outline.list depth label (lines (depth + 1) parts) := by
  cases parts with
  | nil => simp [Outline.list, list, lines]
  | cons n parts =>
    cases n
    simp [Outline.list, list, lines]

/-- An empty list has a label of its own, so it is not taken for a list with parts. -/
theorem list_inj {label : String} {parts parts' : List OutlineNode}
    (h : list label parts = list label parts') : parts = parts' := by
  cases parts with
  | nil =>
    cases parts' with
    | nil => rfl
    | cons n' parts' => simp [list] at h
  | cons n parts =>
    cases parts' with
    | nil => simp [list] at h
    | cons n' parts' => simpa [list] using h

theorem isLegible_field {label : String} {part : OutlineNode} (hlabel : IsLineText (label ++ ":"))
    (hpart : part.IsLegible) : (field label part).IsLegible :=
  .node hlabel (List.forall_mem_singleton.2 hpart)

theorem isLegible_list {label : String} {parts : List OutlineNode}
    (hlabel : IsLineText (label ++ ":")) (hempty : IsLineText (label ++ ": []"))
    (hparts : ∀ n ∈ parts, n.IsLegible) : (list label parts).IsLegible := by
  rw [list]
  split
  · exact .node hempty (by simp)
  · exact .node hlabel hparts

end OutlineNode

end Lispette
