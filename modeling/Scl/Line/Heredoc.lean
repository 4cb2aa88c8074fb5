import Scl.Line.Basic
import Scl.Text.Comment

/-!
# Heredocs and blank lines

The lines of a file are its source lines without the blank ones, where a line that opens a heredoc takes
all source lines up to its terminator along, as they are. Trailing braces count as blank, so text laid out
with braces reads like text laid out by indentation alone.

* `heredocMarker?`: the marker of a heredoc opened at the end of a text;
* `Line.readAll`: the lines of a file.
-/

namespace Scl

/-- A file that cannot be read as lines. -/
inductive ScanError where
  /-- The end of the file came before the terminator of a heredoc. -/
  | unterminatedHeredoc (marker : Text) (line : Nat)
  deriving DecidableEq, Repr

def ScanError.message : ScanError → String
  | .unterminatedHeredoc marker line =>
    "Heredoc '" ++ String.ofList marker ++ "' (started line " ++ toString line ++ ") not terminated"

/-- The name after the last `<<` or `<<-` of a text, if it runs to the end of the text. -/
def heredocMarker? (text : Text) : Option Text :=
  let marker := (text.reverse.takeWhile Text.isNameChar).reverse
  let before := text.reverse.dropWhile Text.isNameChar
  if Text.isName marker then
    match before with
    | '<' :: '<' :: _ => some marker
    | '-' :: '<' :: '<' :: _ => some marker
    | _ => none
  else none

namespace Line

/-- A character that is dropped from the end of a source line. -/
def isTrailer (c : Char) : Bool :=
  c == ' ' || c == '\t' || c == '{' || c == '}'

/-- A source line on its own, unless nothing is left of it. -/
def ofSource? (location : Location) (source : Text) : Option Line :=
  let kept := Text.dropEndWhile isTrailer source
  let content := Text.trimStart kept
  if content.isEmpty then none
  else some { location, column := (kept.takeWhile Text.isWhiteSpace).length, content }

/-- The marker of the heredoc that a line opens. A marker inside a comment opens nothing. -/
def opens? (line : Line) : Option Text :=
  heredocMarker? (Text.stripComment line.content)

/-- A line that opens a heredoc, with the source lines of the heredoc read so far. -/
structure Heredoc where
  opener : Line
  marker : Text
  body : List Text
  deriving DecidableEq, Repr

/-- The whole heredoc as one line. -/
def Heredoc.toLine (heredoc : Heredoc) : Line :=
  { heredoc.opener with
    content := heredoc.opener.content ++ heredoc.body.flatMap ('\n' :: ·) }

/-- The lines among the source lines of `file` from number `number` on, reading from inside a heredoc,
if any. -/
def readFrom (file : Text) (number : Nat) : Option Heredoc → List Text → Except ScanError (List Line)
  | none, [] => .ok []
  | some heredoc, [] => .error (.unterminatedHeredoc heredoc.marker heredoc.opener.location.line)
  | none, source :: rest =>
    match ofSource? ⟨file, number⟩ source with
    | none => readFrom file (number + 1) none rest
    | some line =>
      match line.opens? with
      | none => (line :: ·) <$> readFrom file (number + 1) none rest
      | some marker => readFrom file (number + 1) (some ⟨line, marker, []⟩) rest
  | some heredoc, source :: rest =>
    let longer := { heredoc with body := heredoc.body ++ [source] }
    if Text.trim source = heredoc.marker then
      (longer.toLine :: ·) <$> readFrom file (number + 1) none rest
    else readFrom file (number + 1) (some longer) rest

def readAll (file source : Text) : Except ScanError (List Line) :=
  readFrom file 1 none (Text.lines source)

end Line

end Scl
