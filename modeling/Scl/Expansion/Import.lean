import Scl.Expansion.Binding
import Scl.Line.Layout
import Scl.Statement.Basic

/-!
# Imported files

The files of an import are those that match its pattern next to the importing file or, failing that, in
the first include path where any does.
-/

namespace Scl

/-- The lines of a file. -/
def FileSystem.load (files : FileSystem) (path : Text) : Except Error (Forest Line) :=
  match files.read path with
  | .error e => .error (.file path e)
  | .ok source =>
    match Line.scan path source with
    | .error e => .error (.scan path e)
    | .ok forest => .ok forest

/-- A text without white space and one pair of quotes around it. -/
def Path.unquote (text : Text) : Text :=
  let text := Text.trim text
  match text with
  | first :: rest =>
    if (first = '"' ∨ first = '\'') ∧ rest.getLast? = some first then rest.dropLast else text
  | [] => []

/-- The patterns to look for, in the order of preference, when `importer` imports `pattern`. -/
def Path.candidates (includePaths : List Text) (importer pattern : Text) : List Text :=
  if isAbsolute pattern then [pattern]
  else (parent importer :: includePaths).map (join · pattern)

/-- The sorted matches of the first pattern that has any. -/
def FileSystem.firstMatch (files : FileSystem) : List Text → Except FileError (List Text)
  | [] => .ok []
  | pattern :: rest =>
    match files.glob pattern with
    | .error e => .error e
    | .ok [] => files.firstMatch rest
    | .ok paths => .ok (Path.sort paths)

/-- The pattern that the arguments of an import name, as seen from scope `id`. -/
def Scopes.importPattern (scopes : Scopes) (id : Nat) : List Token → Except Cause Text
  | [argument] =>
    Path.unquote <$>
      if argument.kind = .variable then scopes.declared id argument.text
      else scopes.fill id argument.text
  | arguments => .error (.resolution (.wrongArity importName 1 arguments.length))

end Scl
