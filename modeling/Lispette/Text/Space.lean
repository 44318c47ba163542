/-!
# White space

The characters of the Unicode property `White_Space`, as ranges of code points. The separators
U+001C to U+001F, the Mongolian vowel separator U+180E, the zero width space U+200B and the byte
order mark U+FEFF are not among them.
-/

namespace Lispette.Text

/-- First and last code point of each run of white space, in increasing order. -/
def spaceRanges : List (Nat × Nat) :=
  [(0x0009, 0x000d), (0x0020, 0x0020), (0x0085, 0x0085), (0x00a0, 0x00a0), (0x1680, 0x1680),
    (0x2000, 0x200a), (0x2028, 0x2029), (0x202f, 0x202f), (0x205f, 0x205f), (0x3000, 0x3000)]

def isSpace (c : Char) : Bool :=
  spaceRanges.any fun range ↦ range.1 ≤ c.toNat && c.toNat ≤ range.2

end Lispette.Text
