import Scl.File.Disk

/-!
# Patterns on a disk

On a disk a pattern is matched component by component, so that `*` stays within one. A component without
wildcards is not looked for but taken as a way to go, and may be `.` or `..`; `**` stands for any number
of directories, at least one entry deep. Only files count.

* `Disk.reach`: the paths that a list of components leads to;
* `Disk.glob`: the files that match a pattern.
-/

namespace Scl

/-- A component of a pattern. -/
inductive Walk.Step where
  /-- A component without wildcards. -/
  | name (text : Text)
  | wild (pattern : Pattern)
  /-- The component `**`. -/
  | directories
  deriving DecidableEq, Repr

namespace Walk

/-- The text of a pattern without wildcards. -/
def plain? : Pattern → Option Text
  | [] => some []
  | .char c :: rest => (c :: ·) <$> plain? rest
  | _ => none

def Step.ofPattern (pattern : Pattern) : Step :=
  match plain? pattern with
  | some text => .name text
  | none => if pattern = [.anyDirectories] then .directories else .wild pattern

/-- Whether an entry of some name can be what a component stands for. -/
def Step.accepts : Step → Text → Bool
  | name text, entry => text = entry
  | wild pattern, entry => pattern.accepts entry
  | directories, _ => false

/-- Neighbouring components `**` are as good as one. -/
def collapse : List Step → List Step
  | [] => []
  | step :: rest =>
    let others := collapse rest
    if step = .directories ∧ others.head? = some .directories then others else step :: others

/-- The components of a pattern, without a first slash and with nothing after a last one. A pattern with
no component has an empty one. -/
def componentsOf (pattern : Text) : List Text :=
  let rest := if Path.isAbsolute pattern then pattern.tail else pattern
  if rest.isEmpty then [[]]
  else
    let pieces := Path.pieces rest
    if pieces.getLast? = some [] then pieces.dropLast else pieces

/-- The components of a pattern, which as a whole and one by one has to be well-formed. -/
def stepsOf (pattern : Text) : Except Pattern.SyntaxError (List Step) := do
  let _ ← Pattern.parse pattern
  let patterns ← (componentsOf pattern).mapM Pattern.parse
  return collapse (patterns.map Step.ofPattern)

/-- A path one component further; the working directory itself is not spelled out. -/
def child (path name : Text) : Text :=
  if Path.components path = [.current] then name else Path.join path name

/-- A wildcard stands for `.` and `..` too if it starts with a dot. -/
def dots (pattern : Pattern) : List Text :=
  if pattern.head? = some (.char '.') then [['.'], ['.', '.']].filter pattern.accepts else []

/-- Everything below a directory at some place, each with its path and its name. -/
def below (path : Text) (place : List Text) : Listing → Except FileError (List (Text × Text))
  | .nil => .ok []
  | .file name _ next => ((child path name, name) :: ·) <$> below path place next
  | .directory name entries next => do
    let inside ← below (child path name) (place ++ [name]) entries
    let others ← below path place next
    return (child path name, name) :: (inside ++ others)
  | .unexplored name _ => .error (.unexplored (place ++ [name]))

end Walk

namespace Disk

open Walk (Step)

/-- The listing at a path, which is empty if there is no directory, and its place. -/
def listing (disk : Disk) (path : Text) : Except FileError (List Text × Listing) := do
  if ← disk.isDirectory path then
    let place ← disk.locate path
    let entries ← disk.entries place
    return (place, entries)
  else return ([], .nil)

/-- The paths that components lead to from `path`. At the end `**` stands for directories only, and so
for no file. -/
def reach (disk : Disk) : List Step → Text → Except FileError (List Text)
  | [], path => .ok [path]
  | .name name :: rest, path => do
    let next := Walk.child path name
    let found ←
      if name = ['.'] ∨ name = ['.', '.'] then disk.isDirectory path else disk.hasEntry next
    if found then disk.reach rest next else return []
  | .wild pattern :: rest, path => do
    let (_, entries) ← disk.listing path
    let named := (entries.names.filter pattern.accepts).map (Walk.child path)
    let dotted := if ← disk.isDirectory path then (Walk.dots pattern).map (Path.join path) else []
    let found ← (named ++ dotted).mapM (disk.reach rest)
    return found.flatten
  | [.directories], _ => .ok []
  | .directories :: step :: rest, path => do
    let (place, entries) ← disk.listing path
    let all ← Walk.below path place entries
    let named := (all.filter fun (_, name) => step.accepts name).map Prod.fst
    let found ← named.mapM (disk.reach rest)
    return found.flatten

/-- The files that match a pattern. One that ends in a slash asks for directories. -/
def glob (disk : Disk) (pattern : Text) : Except FileError (List Text) := do
  match Walk.stepsOf pattern with
  | .error e => throw (.badPattern e)
  | .ok steps =>
    if pattern.getLast? = some '/' then return []
    else
      let found ← disk.reach steps (if Path.isAbsolute pattern then ['/'] else ['.'])
      found.filterM disk.isFile

def system (disk : Disk) : FileSystem :=
  { glob := disk.glob, read := disk.read }

end Disk

end Scl
