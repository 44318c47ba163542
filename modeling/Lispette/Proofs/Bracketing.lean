import Lispette.Grammar.Basic
import Mathlib.Data.Fintype.Card

/-!
# Nested traces

A trace is read like a text of brackets: an event of entering opens a rule, and an event of leaving
closes the one that was opened last. `opened?` keeps the open rules on a stack and refuses an event
that does not fit.

That a rule never calls itself without moving on is shown by ranks. A rule has a rank at every
place: what lies further on ranks higher, and so does, at the same place, a rule that is called by
another one. If ranks grow inwards, then no rule is open twice at one place, and at most as many
rules are open as there are ranks.
-/

namespace Lispette

instance : Fintype Rule where
  elems := {.program, .statement, .definition, .print, .block, .unary, .member, .array, .cond,
    .closure, .binaryCall, .methodChain, .call, .number, .string, .boolean, .nil, .identifier}
  complete r := by cases r <;> decide

/-! ## Brackets -/

/-- Where a rule that was entered at `place` may be left. -/
def Verdict.Closes (place stop : Position) : Verdict → Prop
  | .noMatch => stop = place
  | .matched => place.offset < stop.offset
  | .recovered => place.offset < stop.offset

instance (place stop : Position) : (verdict : Verdict) → Decidable (verdict.Closes place stop)
  | .noMatch => inferInstanceAs (Decidable (stop = place))
  | .matched => inferInstanceAs (Decidable (place.offset < stop.offset))
  | .recovered => inferInstanceAs (Decidable (place.offset < stop.offset))

/-- A rule that was entered. -/
structure OpenRule where
  rule : String
  place : Position
deriving DecidableEq, Repr

/-- The rules that are open after an event, the innermost first. -/
def Event.next? (entered : List OpenRule) : Event → Option (List OpenRule)
  | .enter rule place => some (⟨rule, place⟩ :: entered)
  | .exit rule verdict stop =>
    match entered with
    | [] => none
    | inner :: outer =>
      if inner.rule = rule ∧ verdict.Closes inner.place stop then some outer else none

/-- The rules that are open after the log; `none` if it is not a beginning of a nested one. -/
def opened? (log : List Event) : Option (List OpenRule) := log.foldlM Event.next? []

theorem next?_exit {rule : String} {place stop : Position} {verdict : Verdict}
    {outer : List OpenRule} (h : verdict.Closes place stop) :
    Event.next? (⟨rule, place⟩ :: outer) (.exit rule verdict stop) = some outer :=
  if_pos ⟨rfl, h⟩

/-! ## Ranks -/

namespace Rule

theorem name_injective : Function.Injective name := by
  intro r r'
  revert r r'
  decide

/-- At one place, a rule calls only rules of higher levels. -/
def level : Rule → Nat
  | program => 1
  | statement => 2
  | unary => 3
  | member => 4
  | _ => 5

theorem level_le (r : Rule) : r.level ≤ 5 := by
  cases r <;> decide

def rank (r : Rule) (place : Position) : Nat := 6 * place.offset + r.level

/-- For one and the same rule, the rank grows only with the place. -/
theorem offset_lt_of_rank_lt {r : Rule} {place place' : Position}
    (h : r.rank place < r.rank place') : place.offset < place'.offset := by
  unfold rank at h
  omega

end Rule

/-- A log of nested rules whose ranks are above `bound` and grow inwards, on a source of `size`
bytes. -/
inductive Nested (size : Nat) : (bound : Nat) → List Event → Prop where
  | nil {bound : Nat} : Nested size bound []
  | rule {bound : Nat} {r : Rule} {place stop : Position} {verdict : Verdict}
    {inside rest : List Event} :
    place.offset ≤ size → bound < r.rank place → verdict.Closes place stop →
    Nested size (r.rank place) inside → Nested size bound rest →
    Nested size bound (.enter r.name place :: (inside ++ .exit r.name verdict stop :: rest))

/-- An open rule with its rank at hand. -/
structure Frame where
  rule : Rule
  place : Position

namespace Frame

def toOpenRule (frame : Frame) : OpenRule := ⟨frame.rule.name, frame.place⟩

def rank (frame : Frame) : Nat := frame.rule.rank frame.place

/-- Distinct ranks below a limit are no more than the limit. -/
theorem length_le_of_rank_lt {frames : List Frame} {limit : Nat}
    (hgrow : frames.Pairwise fun inner outer ↦ outer.rank < inner.rank)
    (hlimit : ∀ frame ∈ frames, frame.rank < limit) : frames.length ≤ limit := by
  induction frames generalizing limit with
  | nil => exact Nat.zero_le _
  | cons frame frames ih =>
    obtain ⟨houter, hgrow⟩ := List.pairwise_cons.1 hgrow
    have hlength : frames.length ≤ frame.rank := ih hgrow houter
    have hrank : frame.rank < limit := hlimit frame List.mem_cons_self
    rw [List.length_cons]
    omega

end Frame

namespace Nested

variable {size bound : Nat} {log more : List Event}

theorem append (h : Nested size bound log) (hmore : Nested size bound more) :
    Nested size bound (log ++ more) := by
  induction h with
  | nil => exact hmore
  | rule hplace hrank hcloses hinside _ _ ihrest =>
    rw [List.cons_append, List.append_assoc, List.cons_append]
    exact .rule hplace hrank hcloses hinside (ihrest hmore)

theorem mono {bound' : Nat} (h : Nested size bound log) (hbound : bound' ≤ bound) :
    Nested size bound' log := by
  induction h with
  | nil => exact .nil
  | rule hplace hrank hcloses hinside _ _ ihrest =>
    exact .rule hplace (Nat.lt_of_le_of_lt hbound hrank) hcloses hinside (ihrest hbound)

/-- Every rule that the log opens is closed. -/
theorem closed (h : Nested size bound log) (outer : List OpenRule) :
    log.foldlM Event.next? outer = some outer := by
  induction h generalizing outer with
  | nil => rfl
  | rule _ _ hcloses _ _ ihinside ihrest =>
    rw [List.foldlM_cons, Event.next?, Option.bind_eq_bind, Option.bind_some, List.foldlM_append,
      ihinside, Option.bind_eq_bind, Option.bind_some, List.foldlM_cons, next?_exit hcloses]
    exact ihrest outer

/-- At every moment the open rules have growing ranks. The moment lies inside the first rule of the
log, or after it. -/
theorem frames {before after : List Event} (h : Nested size bound log)
    (hlog : log = before ++ after) (outer : List OpenRule) :
    ∃ frames : List Frame,
      before.foldlM Event.next? outer = some (frames.map Frame.toOpenRule ++ outer) ∧
      frames.Pairwise (fun inner outer ↦ outer.rank < inner.rank) ∧
      ∀ frame ∈ frames, bound < frame.rank ∧ frame.place.offset ≤ size := by
  induction h generalizing before after outer with
  | nil =>
    obtain ⟨rfl, -⟩ := List.append_eq_nil_iff.1 hlog.symm
    exact ⟨[], rfl, .nil, by simp⟩
  | @rule bound r place _ _ _ _ hplace hrank hcloses hinside _ ihinside ihrest =>
    cases before with
    | nil => exact ⟨[], rfl, .nil, by simp⟩
    | cons event before =>
      obtain ⟨rfl, htail⟩ := List.cons.inj hlog
      have henter (events : List Event) :
          (Event.enter r.name place :: events).foldlM Event.next? outer =
            events.foldlM Event.next? (⟨r.name, place⟩ :: outer) := rfl
      rcases List.append_eq_append_iff.1 htail with ⟨later, rfl, hlater⟩ | ⟨left, rfl, -⟩
      · cases later with
        | nil =>
          refine ⟨[⟨r, place⟩], ?_, List.pairwise_singleton _ _, ?_⟩
          · rw [henter, List.append_nil, hinside.closed]
            rfl
          · simpa [Frame.rank] using ⟨hrank, hplace⟩
        | cons event later =>
          obtain ⟨rfl, hsplit⟩ := List.cons.inj hlater
          obtain ⟨frames, hopened, hgrow, hframes⟩ := ihrest hsplit outer
          refine ⟨frames, ?_, hgrow, hframes⟩
          rw [henter, List.foldlM_append, hinside.closed, Option.bind_eq_bind, Option.bind_some,
            List.foldlM_cons, next?_exit hcloses]
          exact hopened
      · obtain ⟨frames, hopened, hgrow, hframes⟩ := ihinside rfl (⟨r.name, place⟩ :: outer)
        refine ⟨frames ++ [⟨r, place⟩], ?_, ?_, ?_⟩
        · rw [henter, hopened, List.map_append, List.append_assoc]
          rfl
        · refine List.pairwise_append.2 ⟨hgrow, List.pairwise_singleton _ _, ?_⟩
          intro inner hinner last hlast
          obtain rfl := List.mem_singleton.1 hlast
          exact (hframes inner hinner).1
        · intro frame hframe
          rcases List.mem_append.1 hframe with hframe | hframe
          · exact ⟨Nat.lt_trans hrank (hframes frame hframe).1, (hframes frame hframe).2⟩
          · obtain rfl := List.mem_singleton.1 hframe
            exact ⟨hrank, hplace⟩

theorem opened (h : Nested size bound log) : opened? log = some [] := h.closed []

/-- A rule is entered further on than wherever it is still open. -/
theorem enters_further {rule : String} {place : Position} {before after : List Event}
    (h : Nested size bound log) (hlog : log = before ++ .enter rule place :: after) :
    ∃ entered, opened? before = some entered ∧
      ∀ outer ∈ entered, outer.rule = rule → outer.place.offset < place.offset := by
  have hnext : log = (before ++ [.enter rule place]) ++ after := by simp [hlog]
  obtain ⟨outer, houter, -, -⟩ := h.frames hlog []
  obtain ⟨frames, hframes, hgrow, -⟩ := h.frames hnext []
  rw [List.append_nil] at houter hframes
  rw [List.foldlM_append, houter] at hframes
  have hstack : ⟨rule, place⟩ :: outer.map Frame.toOpenRule = frames.map Frame.toOpenRule :=
    Option.some.inj hframes
  refine ⟨outer.map Frame.toOpenRule, houter, fun entry hentry hrule ↦ ?_⟩
  cases frames with
  | nil => cases hstack
  | cons inner frames =>
    obtain ⟨hinner, htail⟩ := List.cons.inj hstack
    rw [htail] at hentry
    obtain ⟨frame, hframe, rfl⟩ := List.mem_map.1 hentry
    have hname : frame.rule.name = inner.rule.name := hrule.trans (congrArg OpenRule.rule hinner)
    have hrank : frame.rank < inner.rank := (List.pairwise_cons.1 hgrow).1 frame hframe
    unfold Frame.rank at hrank
    rw [Rule.name_injective hname] at hrank
    have hoffset := Rule.offset_lt_of_rank_lt hrank
    rwa [show inner.place = place from (congrArg OpenRule.place hinner).symm] at hoffset

/-- There are six ranks at each place of the source, its end included. -/
theorem length_opened_le {before after : List Event} (h : Nested size bound log)
    (hlog : log = before ++ after) :
    ∃ entered, opened? before = some entered ∧ entered.length ≤ 6 * (size + 1) := by
  obtain ⟨frames, hopened, hgrow, hframes⟩ := h.frames hlog []
  refine ⟨_, hopened, ?_⟩
  rw [List.append_nil, List.length_map]
  refine Frame.length_le_of_rank_lt hgrow fun frame hframe ↦ ?_
  have hplace := (hframes frame hframe).2
  have hlevel := frame.rule.level_le
  unfold Frame.rank Rule.rank
  omega

end Nested

end Lispette
