/-!
# White space

The characters with the Unicode property White_Space. Indentation, trimming and the blank between a
keyword and its argument are all meant in this sense, so that a no-break space indents a line as well
as a tab does.
-/

namespace Scl.Text

/-- The ranges of White_Space, ends included, in increasing order. -/
def whiteSpaceRanges : List (Nat × Nat) :=
  [(0x09, 0x0D), (0x20, 0x20), (0x85, 0x85), (0xA0, 0xA0), (0x1680, 0x1680), (0x2000, 0x200A),
   (0x2028, 0x2029), (0x202F, 0x202F), (0x205F, 0x205F), (0x3000, 0x3000)]

def isWhiteSpace (c : Char) : Bool :=
  whiteSpaceRanges.any fun (first, last) => first ≤ c.toNat && c.toNat ≤ last

end Scl.Text
