import Scl.Text.Quoting

/-!
# Templates

A text with references `$name` and `${name}` to variables. Reading it once gives a list of pieces that
depends on the text alone; filling it in replaces each reference by a value, which is not read again.

* A backslash before `$`, a backtick or a backslash keeps that character from acting; only before a
  second backslash does it stay.
* A span between backticks is raw.
* A run of two or more `$` is plain text, and so is a `$` without a name after it.

* `Template.ofText`: the pieces of a text;
* `Template.fill`: the text with values for the names.
-/

namespace Scl

inductive Template.Piece where
  | text (text : Text)
  | reference (name : Text)
  /-- A reference `${name` without the closing brace; it stays as it is. -/
  | unclosed (name : Text)
  /-- The place where a backtick span reaches the end of the text. -/
  | unterminated
  deriving DecidableEq, Repr

abbrev Template := List Template.Piece

namespace Template

/-- Why a text cannot be filled in. -/
inductive Fault where
  | unknownVariable (name : Text)
  | unterminatedBacktick
  | unclosedBrace (name : Text)
  deriving DecidableEq, Repr

def Fault.message : Fault → String
  | unknownVariable name => "Unknown variable '$" ++ String.ofList name ++ "'"
  | unterminatedBacktick => "Unterminated backtick literal"
  | unclosedBrace name =>
    "Expecting closing right brace in variable $\x7b" ++ String.ofList name ++ "\x7d"

/-- The first fault of a text, and the text as far as it could be filled in. -/
structure Failure where
  fault : Fault
  output : Text
  deriving DecidableEq, Repr

/-! ## Reading -/

/-- The pieces that a backslash starts, and how many characters of `rest` they take. -/
def escape (rest : Text) : List Piece × Nat :=
  match rest.head? with
  | some '$' => ([.text ['$']], 1)
  | some '\\' => ([.text ['\\', '\\']], 1)
  | some c => if c == Text.backtick then ([.text [c]], 1) else ([.text ['\\']], 0)
  | none => ([.text ['\\']], 0)

/-- The pieces that a backtick starts, and how many characters of `rest` they take. -/
def rawSpan (rest : Text) : List Piece × Nat :=
  let raw := rest.takeWhile (· != Text.backtick)
  if raw.length < rest.length then ([.text raw], raw.length + 1)
  else ([.text raw, .unterminated], raw.length)

/-- The pieces that a `$` starts, and how many characters of `rest` they take. -/
def dollar (rest : Text) : List Piece × Nat :=
  match rest with
  | '$' :: more =>
    let run := more.takeWhile (· == '$')
    ([.text ('$' :: '$' :: run)], run.length + 1)
  | '{' :: braced =>
    let name := braced.takeWhile Text.isNameChar
    if name.isEmpty then ([.text ['$']], 0)
    else if (braced.drop name.length).head? = some '}' then ([.reference name], name.length + 2)
    else ([.unclosed name], name.length + 1)
  | _ =>
    let name := rest.takeWhile Text.isNameChar
    if name.isEmpty then ([.text ['$']], 0) else ([.reference name], name.length)

/-- The pieces that start with a character, and how many characters of `rest` they take. -/
def first (c : Char) (rest : Text) : List Piece × Nat :=
  if c == '\\' then escape rest
  else if c == Text.backtick then rawSpan rest
  else if c == '$' then dollar rest
  else ([.text [c]], 0)

/-- The pieces of a text after its first `taken` characters. -/
def readFrom : Nat → Text → Template
  | _, [] => []
  | taken + 1, _ :: rest => readFrom taken rest
  | 0, c :: rest =>
    let (pieces, taken) := first c rest
    pieces ++ readFrom taken rest

def ofText (text : Text) : Template :=
  readFrom 0 text

/-- The names that are looked up, in the order of the text. -/
def names (template : Template) : List Text :=
  template.filterMap fun
    | .reference name => some name
    | _ => none

/-! ## Filling in -/

/-- What a piece contributes to the output. A name without a value contributes nothing. -/
def Piece.output (value? : Text → Option Text) : Piece → Text
  | text t => t
  | reference name => (value? name).getD []
  | unclosed name => '$' :: '{' :: name
  | unterminated => []

def Piece.fault? (value? : Text → Option Text) : Piece → Option Fault
  | text _ => none
  | reference name => if (value? name).isSome then none else some (.unknownVariable name)
  | unclosed name => some (.unclosedBrace name)
  | unterminated => some .unterminatedBacktick

/-- The output of all pieces, which is a failure with the first fault if there is one. -/
def fill (value? : Text → Option Text) (template : Template) : Except Failure Text :=
  let output := template.flatMap (Piece.output value?)
  match template.findSome? (Piece.fault? value?) with
  | some fault => .error ⟨fault, output⟩
  | none => .ok output

end Template

end Scl
