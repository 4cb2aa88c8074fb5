import Scl.Text.Quoting

/-!
# Comments

A comment runs from `//` to the end of the line, unless the slashes stand inside a quoted span. A span
that is never closed protects the rest of the line.
-/

namespace Scl.Text

/-- The text before the first `//` outside quoted spans, reading from inside a span of `quote`, if any. -/
def beforeComment (quote : Option Char) : Text → Text
  | [] => []
  | [c] => [c]
  | c :: d :: rest =>
    match quote with
    | none =>
      if c == '/' && d == '/' then []
      else c :: beforeComment (if isQuote c then some c else none) (d :: rest)
    | some q =>
      if c == '\\' && q != backtick then c :: d :: beforeComment quote rest
      else c :: beforeComment (if c == q then none else quote) (d :: rest)

/-- The text without a trailing comment, trimmed. -/
def stripComment (text : Text) : Text :=
  trim (beforeComment none text)

end Scl.Text
