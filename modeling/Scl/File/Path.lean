import Scl.Text.Basic

/-!
# Paths

Paths are texts with `/` between their components. Two spellings are the same path if they have the same
components: repeated slashes, a slash at the end and components `.` count for nothing, except for a `.`
at the very start. Paths are ordered by their components, the root before `.`, `.` before `..`, and `..`
before names, which are ordered by their characters.
-/

namespace Scl.Path

inductive Component where
  | root
  /-- A `.` at the start of a relative path. -/
  | current
  | parent
  | name (text : Text)
  deriving DecidableEq, Repr

/-- The pieces of a text between its slashes. -/
def pieces : Text → List Text
  | [] => [[]]
  | c :: rest =>
    if c = '/' then [] :: pieces rest
    else
      match pieces rest with
      | [] => [[c]]
      | piece :: others => (c :: piece) :: others

def isAbsolute (path : Text) : Bool :=
  path.head? = some '/'

/-- The component of a piece that is not the first one of a relative path. -/
def Component.ofPiece? (piece : Text) : Option Component :=
  if piece = [] ∨ piece = ['.'] then none
  else if piece = ['.', '.'] then some .parent
  else some (.name piece)

def components (path : Text) : List Component :=
  let all := pieces path
  let rest := all.filterMap Component.ofPiece?
  if isAbsolute path then .root :: rest
  else if all.head? = some ['.'] then .current :: rest
  else rest

/-! ## Order -/

/-- A component as numbers: names come after the other kinds, and a zero ends each component. -/
def Component.key : Component → List Nat
  | root => [1, 0]
  | current => [2, 0]
  | parent => [3, 0]
  | name text => text.map (·.toNat + 4) ++ [0]

/-- Paths are ordered by these keys, and those with equal keys are the same path. -/
def key (path : Text) : List Nat :=
  (components path).flatMap Component.key

/-- The order of a dictionary. -/
def keyLt : List Nat → List Nat → Bool
  | _, [] => false
  | [], _ :: _ => true
  | m :: ms, n :: ns => m < n || (m == n && keyLt ms ns)

/-- Puts a path in front of the first one that does not come before it. -/
def insert (path : Text) : List Text → List Text
  | [] => [path]
  | other :: rest =>
    if keyLt (key other) (key path) then other :: insert path rest else path :: other :: rest

/-- The paths in order; spellings of the same path stay in the order they had. -/
def sort (paths : List Text) : List Text :=
  paths.foldr insert []

/-! ## Joining and parents -/

/-- A path seen from the directory `base`. -/
def join (base path : Text) : Text :=
  if isAbsolute path then path
  else if base.isEmpty || base.getLast? = some '/' then base ++ path
  else base ++ '/' :: path

/-- Without the pieces at the end that are no components, from the pieces with the last one first. -/
def dropBlank (absolute : Bool) : List Text → List Text
  | [] => []
  | [piece] => if piece = [] ∨ absolute ∧ piece = ['.'] then [] else [piece]
  | piece :: before :: others =>
    if piece = [] ∨ piece = ['.'] then dropBlank absolute (before :: others)
    else piece :: before :: others

/-- The path without its last component, which is empty if there is none to drop. -/
def parent (path : Text) : Text :=
  let absolute := isAbsolute path
  let body := if absolute then path.tail else path
  match dropBlank absolute (pieces body).reverse with
  | [] => []
  | _ :: before =>
    let kept := Text.join ['/'] (dropBlank absolute before).reverse
    if absolute then '/' :: kept else kept

end Scl.Path
