import Scl.File.Path
import Scl.File.Pattern

/-!
# File systems

What importing needs of a file system: the paths that match a pattern, and the text of a file. Any pair of
functions will do; `Files.systemWith` is the one over files held in memory, given how paths are matched, and
`Files.system` the one with `Pattern`.
-/

namespace Scl

/-- Why a file or a pattern could not be read. -/
inductive FileError where
  /-- No file of that path among files held in memory. -/
  | noSuchFile
  | badPattern (error : Pattern.SyntaxError)
  /-- No entry of that path on a disk. -/
  | noEntry
  /-- A component of the path, or a path that ends in a slash, is a file. -/
  | notDirectory
  | isDirectory
  /-- The path, or one of the names in it, has too many bytes. -/
  | nameTooLong
  /-- The entry may not be read. -/
  | denied
  /-- The file's bytes are no text. -/
  | notText
  /-- A part of a disk that has not been looked at, by its names from the root on. -/
  | unexplored (place : List Text)
  deriving DecidableEq, Repr

def FileError.message : FileError → String
  | noSuchFile => "no such file or directory"
  | badPattern error => error.message
  | noEntry => "No such file or directory (os error 2)"
  | notDirectory => "Not a directory (os error 20)"
  | isDirectory => "Is a directory (os error 21)"
  | nameTooLong => "File name too long (os error 36)"
  | denied => "Permission denied (os error 13)"
  | notText => "stream did not contain valid UTF-8"
  | unexplored place => "not explored: /" ++ String.ofList (Text.join ['/'] place)

structure FileSystem where
  /-- The paths that match a pattern, in any order. -/
  glob : Text → Except FileError (List Text)
  read : Text → Except FileError Text

/-- How patterns are read, and what paths they accept then. -/
abbrev Matcher := Text → Except Pattern.SyntaxError (Text → Bool)

def Pattern.matcher : Matcher :=
  fun text => accepts <$> parse text

/-! ## Files in memory -/

/-- Files with their contents, in the order of their paths. -/
abbrev Files := List (Text × Text)

namespace Files

/-- Adds a file. One of the same path gets the new content and keeps its spelling. -/
def insert (path content : Text) : Files → Files
  | [] => [(path, content)]
  | (other, old) :: rest =>
    if Path.key path = Path.key other then (other, content) :: rest
    else if Path.keyLt (Path.key path) (Path.key other) then
      (path, content) :: (other, old) :: rest
    else (other, old) :: insert path content rest

/-- Files from a list in which a later file replaces an earlier one of the same path. -/
def ofList (files : List (Text × Text)) : Files :=
  files.foldl (fun all (path, content) => all.insert path content) []

/-- The paths that match a pattern, each as a whole and as it is spelled. -/
def matching (matcher : Matcher) (files : Files) (pattern : Text) : Except FileError (List Text) :=
  match matcher pattern with
  | .error e => .error (.badPattern e)
  | .ok accepts => .ok ((files.map Prod.fst).filter accepts)

def glob (files : Files) (pattern : Text) : Except FileError (List Text) :=
  files.matching Pattern.matcher pattern

def read (files : Files) (path : Text) : Except FileError Text :=
  match files.find? fun (other, _) => Path.key other = Path.key path with
  | some (_, content) => .ok content
  | none => .error .noSuchFile

def systemWith (matcher : Matcher) (files : Files) : FileSystem :=
  { glob := files.matching matcher, read := files.read }

def system (files : Files) : FileSystem :=
  files.systemWith Pattern.matcher

end Files

end Scl
