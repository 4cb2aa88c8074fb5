import Scl.Line.Basic

/-!
# Doc comments

The comment lines directly above a line document it. They are siblings of the line, and their source
lines follow each other without a gap down to it.
-/

namespace Scl.Line

/-- The texts of the comment lines that end directly above source line `below`, the last one first, from
the earlier siblings, also the last one first. -/
def commentsAbove (below : Nat) : List Line → List Text
  | [] => []
  | line :: others =>
    match line.content with
    | '/' :: '/' :: comment =>
      if line.location.line + 1 = below then
        Text.trim comment :: commentsAbove line.location.line others
      else []
    | _ => []

/-- The doc comment of a line, whose earlier siblings are `above` with the last one first. -/
def docComment? (above : List Line) (line : Line) : Option Text :=
  match commentsAbove line.location.line above with
  | [] => none
  | comment :: comments => some (Text.join ['\n'] (comment :: comments).reverse)

end Scl.Line
