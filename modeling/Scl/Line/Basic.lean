import Scl.Text.Basic

/-!
# Lines and their locations

A line of the language is one source line without its indentation and its trailing blanks and braces, or
a heredoc, whose content runs over several source lines. It remembers where it stood.
-/

namespace Scl

/-- A place in a source file; lines are counted from one. -/
structure Location where
  file : Text
  line : Nat
  deriving DecidableEq, Repr

/-- A location as it stands in error messages, `file:line`. -/
def Location.toText (location : Location) : Text :=
  location.file ++ ':' :: Text.ofNat location.line

structure Line where
  /-- Where the line starts. -/
  location : Location
  /-- The number of white-space characters before the content. -/
  column : Nat
  content : Text
  deriving DecidableEq, Repr

end Scl
