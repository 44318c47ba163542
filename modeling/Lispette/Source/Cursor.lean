import Lispette.SyntaxError

/-!
# Cursors

A cursor is a place in a source text together with the syntax errors recorded on the way there.
Cursors are values: to backtrack is to go on from an earlier one. Offsets count bytes of the UTF-8
encoding, columns count characters, and only a newline ends a line.
-/

namespace Lispette

/-- The length of the UTF-8 encoding. -/
def byteLength : List Char → Nat
  | [] => 0
  | c :: cs => c.utf8Size + byteLength cs

/-- A character takes at least one byte. -/
theorem length_le_byteLength (text : List Char) : text.length ≤ byteLength text := by
  induction text with
  | nil => exact Nat.le_refl 0
  | cons c cs ih =>
    have hc : 0 < c.utf8Size := c.utf8Size_pos
    simp only [byteLength, List.length_cons]
    omega

/-- Where a cursor stands: byte offset, line from one, column from zero. -/
structure Position where
  offset : Nat
  line : Nat
  column : Nat
deriving DecidableEq, Repr

/-- `size` is the length of the whole source in bytes and `rest` the part not yet consumed. -/
structure Cursor extends Position where
  size : Nat
  rest : List Char
  errors : List SyntaxError
  fits : offset + byteLength rest = size
deriving DecidableEq

namespace Cursor

def ofSource (source : String) : Cursor where
  offset := 0
  line := 1
  column := 0
  size := byteLength source.toList
  rest := source.toList
  errors := []
  fits := Nat.zero_add _

/-- Bytes not yet consumed. -/
def remaining (s : Cursor) : Nat := s.size - s.offset

def atEnd (s : Cursor) : Bool := s.rest.isEmpty

def peek? (s : Cursor) : Option Char := s.rest.head?

/-- One character further on; the end of the source is not passed. -/
def advance (s : Cursor) : Cursor :=
  match h : s.rest with
  | [] => s
  | c :: cs =>
    { s with
      offset := s.offset + c.utf8Size
      line := if c = '\n' then s.line + 1 else s.line
      column := if c = '\n' then 0 else s.column + 1
      rest := cs
      fits := by rw [← s.fits, h, byteLength, Nat.add_assoc] }

/-- The given number of characters further on. -/
def forward : Nat → Cursor → Cursor
  | 0, s => s
  | n + 1, s => forward n s.advance

/-- How many leading characters of a text it takes to cover the given number of bytes. -/
def charsCovering : Nat → List Char → Nat
  | _, [] => 0
  | bytes, c :: cs => if bytes = 0 then 0 else 1 + charsCovering (bytes - c.utf8Size) cs

/-- The given number of bytes further on, rounded up to whole characters. The number is
unbounded here; in machine words it makes sense only while the offset plus `bytes` does not
overflow. -/
def advanceBytes (bytes : Nat) (s : Cursor) : Cursor :=
  s.forward (charsCovering bytes s.rest)

def withError (e : SyntaxError) (s : Cursor) : Cursor :=
  { s with errors := s.errors ++ [e] }

/-! ## What moving keeps and what it consumes -/

theorem remaining_eq (s : Cursor) : s.remaining = byteLength s.rest := by
  rw [remaining, ← s.fits, Nat.add_sub_cancel_left]

@[simp] theorem rest_advance (s : Cursor) : s.advance.rest = s.rest.tail := by
  unfold advance
  split <;> simp_all

@[simp] theorem size_advance (s : Cursor) : s.advance.size = s.size := by
  unfold advance
  split <;> rfl

@[simp] theorem errors_advance (s : Cursor) : s.advance.errors = s.errors := by
  unfold advance
  split <;> rfl

@[simp] theorem rest_forward (n : Nat) (s : Cursor) : (s.forward n).rest = s.rest.drop n := by
  induction n generalizing s with
  | zero => rfl
  | succ n ih => rw [forward, ih, rest_advance, List.drop_tail]

@[simp] theorem size_forward (n : Nat) (s : Cursor) : (s.forward n).size = s.size := by
  induction n generalizing s with
  | zero => rfl
  | succ n ih => rw [forward, ih, size_advance]

@[simp] theorem errors_forward (n : Nat) (s : Cursor) : (s.forward n).errors = s.errors := by
  induction n generalizing s with
  | zero => rfl
  | succ n ih => rw [forward, ih, errors_advance]

end Cursor

end Lispette
