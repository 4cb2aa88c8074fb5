import Scl.Text.Basic

/-!
# Quotes and brackets

Reading an argument list character by character needs to know two things: whether the reader stands
inside a quoted span, and how many brackets are open around it. `Quoting` is the first, `Nesting` both.

Single quotes, double quotes and backticks each open a span that only the same character closes. In a
single- or double-quoted span a backslash takes the next character along, whatever it is; a backtick span
is raw. Brackets of different kinds are counted together.
-/

namespace Scl.Text

/-- The backtick, which quotes raw text. -/
abbrev backtick : Char := '\x60'

def isQuote (c : Char) : Bool :=
  c == '"' || c == '\'' || c == backtick

def isOpening (c : Char) : Bool :=
  c == '(' || c == '[' || c == '{'

def isClosing (c : Char) : Bool :=
  c == ')' || c == ']' || c == '}'

/-- Where a reader stands with respect to quoted spans. -/
inductive Quoting where
  | outside
  /-- In a span that `quote` opened; `escaped` if a backslash has just been read. -/
  | inside (quote : Char) (escaped : Bool)
  deriving DecidableEq, Repr

/-- The state after one more character. -/
def Quoting.step : Quoting → Char → Quoting
  | .outside, c => if isQuote c then .inside c false else .outside
  | .inside quote true, _ => .inside quote false
  | .inside quote false, c =>
    if c == '\\' && quote != backtick then .inside quote true
    else if c == quote then .outside
    else .inside quote false

/-- A quoting state together with the number of open brackets. -/
structure Nesting where
  quoting : Quoting := .outside
  depth : Nat := 0
  deriving DecidableEq, Repr

namespace Nesting

/-- Outside every quoted span and every bracket. -/
abbrev top : Nesting := {}

/-- A bracket counts only outside quoted spans, and a closing one at depth zero changes nothing. -/
def step (n : Nesting) (c : Char) : Nesting :=
  { quoting := n.quoting.step c
    depth :=
      if n.quoting = .outside then
        if isOpening c then n.depth + 1 else if isClosing c then n.depth - 1 else n.depth
      else n.depth }

end Nesting

end Scl.Text
