import Scl.Text.Alphabetic
import Scl.Text.Basic

/-!
# Output

Expanded text: lines, and blocks with a header and a body, in order. Rendering indents by two spaces a
level and puts the body of a block between braces.
-/

namespace Scl

/-- A sequence of output nodes; every constructor but `nil` has one node and those after it. -/
inductive Output where
  | nil
  /-- A line; a heredoc is one line too, though its text has several. -/
  | line (text : Text) (next : Output)
  | block (header : Text) (body next : Output)
  deriving DecidableEq, Repr

namespace Output

/-- A text that opens a block when it stands alone: it starts like a word or a quoted label, and it has
neither an equals sign nor a line feed. -/
def isHeader (text : Text) : Bool :=
  text.head?.any (fun c => Text.isAlphabetic c || c == '_' || c == '"') &&
    !text.contains '=' && !text.contains '\n'

def isEmpty : Output → Bool
  | nil => true
  | _ => false

def append : Output → Output → Output
  | nil, other => other
  | line text next, other => line text (next.append other)
  | block header body next, other => block header body (next.append other)

instance : Append Output := ⟨append⟩

/-- The node of a text without anything below it: an empty block if the text is a header, else a line. -/
def leaf (text : Text) : Output :=
  if isHeader text then block text nil nil else line text nil

/-- The rendered lines, where the outermost nodes stand at level `depth`. -/
def lines (depth : Nat) : Output → List Text
  | nil => []
  | line text next => (Text.spaces (2 * depth) ++ text) :: next.lines depth
  | block header body next =>
    let indent := Text.spaces (2 * depth)
    if body.isEmpty then (indent ++ header ++ [' ', '{', '}']) :: next.lines depth
    else
      (indent ++ header ++ [' ', '{']) :: (body.lines (depth + 1) ++ (indent ++ ['}']) :: next.lines depth)

/-- The lines with a line feed between each two of them. -/
def render (output : Output) : Text :=
  Text.join ['\n'] (output.lines 0)

theorem append_nil (output : Output) : output ++ nil = output := by
  induction output with
  | nil => rfl
  | line text next ih => exact congrArg (line text) ih
  | block header body next _ ih => exact congrArg (block header body) ih

theorem append_assoc (first second third : Output) :
    first ++ second ++ third = first ++ (second ++ third) := by
  induction first with
  | nil => rfl
  | line text next ih => exact congrArg (line text) ih
  | block header body next _ ih => exact congrArg (block header body) ih

theorem lines_append (first second : Output) (depth : Nat) :
    (first ++ second).lines depth = first.lines depth ++ second.lines depth := by
  induction first with
  | nil => rfl
  | line text next ih => exact congrArg (_ :: ·) ih
  | block header body next _ ih =>
    show (block header body (next ++ second)).lines depth = _
    simp only [lines, ih]
    split <;> simp

end Output

end Scl
