import Lispette.Parser.Basic

/-!
# Repetition

Repetition stops at the end of the source, where the item does not match, and after an item that
consumed nothing; the last is kept. So it ends after at most as many items as there are bytes left,
plus one.
-/

namespace Lispette.Parser

variable {α : Type}

def runMany (p : Parser α) (s : Cursor) : Run (List α) :=
  if s.atEnd then ⟨.matched [], s, []⟩
  else
    match p.run s with
    | ⟨.matched a, t, log⟩ =>
      if t.remaining < s.remaining then
        let r := runMany p t
        ⟨r.reply.map (a :: ·), r.cursor, log ++ r.events⟩
      else ⟨.matched [a], t, log⟩
    | ⟨.noMatch, _, log⟩ => ⟨.matched [], s, log⟩
    | ⟨.recovered e, t, log⟩ => ⟨.recovered e, t, log⟩
termination_by s.remaining

def many (p : Parser α) : Parser (List α) where
  run := runMany p

def oneOrMore (p : Parser α) : Parser (List α) :=
  filterMap (fun items ↦ if items.isEmpty then none else some items) (many p)

end Lispette.Parser
