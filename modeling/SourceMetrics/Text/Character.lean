/-! # Characters

Two kinds of characters part a text.

A word character is an ASCII letter, an ASCII digit or a low line. An *edge* is a place in a text
with a word character on exactly one side; the two ends of the text count as non-word.

A blank character has the White_Space property of the Unicode standard, given here as a table of code
point ranges. A zero width space (U+200B) and the byte order mark (U+FEFF) do not have it. -/

namespace SourceMetrics.Text

set_option autoImplicit false

/-! ## Word characters -/

/-- Whether a character is an ASCII letter, an ASCII digit or `_`. -/
def isWord (c : Char) : Bool :=
  c.isAlphanum || c == '_'

/-- Whether a place is an edge, given the character before it, if any, and the text after it. -/
def isEdge (before : Option Char) (after : List Char) : Bool :=
  before.any isWord != after.head?.any isWord

/-! ## Blank characters -/

/-- The code points with the White_Space property, as ranges with both ends included. -/
def blankRanges : List (Nat × Nat) :=
  [(0x09, 0x0D), (0x20, 0x20), (0x85, 0x85), (0xA0, 0xA0), (0x1680, 0x1680), (0x2000, 0x200A),
    (0x2028, 0x2029), (0x202F, 0x202F), (0x205F, 0x205F), (0x3000, 0x3000)]

/-- Whether a character has the White_Space property. -/
def isBlank (c : Char) : Bool :=
  blankRanges.any fun range => range.1 ≤ c.toNat && c.toNat ≤ range.2

def byteOrderMark : Char := Char.ofNat 0xFEFF

/-- The text without the characters in `unwanted` that stand at its two ends. -/
def trimEnds (unwanted : Char → Bool) (text : List Char) : List Char :=
  ((text.dropWhile unwanted).reverse.dropWhile unwanted).reverse

end SourceMetrics.Text
