import Scl.Documentation.Basic

/-!
# Documentation as an outline

One line for each mixin, its signature with its location in brackets, and below it the lines of its doc
comment and the mixins inside it, two spaces further in.
-/

namespace Scl

/-- What an outline shows of a mixin. -/
structure Caption where
  signature : Text
  reference : Text
  docs : Text
  deriving DecidableEq, Repr

def DocEntry.caption (entry : DocEntry) : Caption :=
  { signature := entry.signature, reference := entry.location.toText, docs := entry.docs }

/-- The lines of an outline whose outermost mixins stand at level `depth`. -/
def Caption.lines (depth : Nat) : Forest Caption → List Text
  | .nil => []
  | .cons caption below next =>
    let indent := Text.spaces (2 * depth)
    let docs := (Text.lines caption.docs).map fun line =>
      Text.trimEnd (indent ++ [' ', ' ', '/', '/', ' '] ++ line)
    (indent ++ caption.signature ++ [' ', ' ', '['] ++ caption.reference ++ [']']) ::
      (docs ++ lines (depth + 1) below ++ lines depth next)

def Caption.outline (depth : Nat) (captions : Forest Caption) : Text :=
  (lines depth captions).flatMap (· ++ ['\n'])

end Scl
