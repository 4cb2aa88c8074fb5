import Scl.Forest
import Scl.Line.Heredoc

/-!
# Layout

Indentation makes a forest of the lines of a file: a line belongs below the nearest earlier line that is
indented less.
-/

namespace Scl.Line

/-- The forest that indentation makes of a list of lines. -/
def layout (lines : List Line) : Forest Line :=
  Forest.layout Line.column lines

/-- The forest of the lines of a source text; `file` names the source in locations. -/
def scan (file source : Text) : Except ScanError (Forest Line) :=
  layout <$> readAll file source

end Scl.Line
