import Scl.Documentation.Basic
import Scl.Expansion.Lines

/-!
# Sessions

Expanding one file after another with settings that may grow in between. A session keeps the output of the
last expansion if it succeeded, and nothing otherwise.
-/

namespace Scl

structure Settings where
  /-- The directories to look for imports in, after that of the importing file. -/
  includePaths : List Text := []
  /-- Variables of the root scope; a later one replaces an earlier one of the same name. -/
  params : List (Text × Text) := []
  deriving DecidableEq, Repr

/-- How deeply calls and imports may be nested. -/
def maxDepth : Nat := 20000

/-- The output of a file under some settings. -/
def Settings.expand (settings : Settings) (files : FileSystem) (path : Text) :
    Option (Except Error Output) :=
  Environment.expandFile { files, includePaths := settings.includePaths } settings.params maxDepth path

structure Session where
  files : FileSystem
  settings : Settings := {}
  output : Output := .nil

namespace Session

def expand (session : Session) (path : Text) : Option (Except Error Output) × Session :=
  let result := session.settings.expand session.files path
  let output := match result with
    | some (.ok output) => output
    | _ => .nil
  (result, { session with output })

def document (session : Session) (path : Text) : Except Error (Forest DocEntry) :=
  session.files.document path

def addIncludePath (session : Session) (directory : Text) : Session :=
  { session with settings.includePaths := session.settings.includePaths ++ [directory] }

def setParam (session : Session) (name value : Text) : Session :=
  { session with settings.params := session.settings.params ++ [(name, value)] }

end Session

end Scl
