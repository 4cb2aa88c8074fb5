import Scl.Text.Comment
import Scl.Statement.Signature

/-!
# Statements

What a line says. Its first characters decide: `//` starts a comment, `@` a mixin declaration, a name
before a parenthesis or a lone colon is a call, `import` with a quoted text or a variable is a call of
`import`, `$name =` assigns, and anything else is a literal.

* `Line.tokens`: the tokens of a line;
* `Line.statement`: the statement they make.
-/

namespace Scl

inductive Statement where
  | comment (text : Text)
  /-- Text for the output. -/
  | literal (text : Text)
  | assignment (name value : Text)
  /-- A mixin declaration; the arguments are not yet known to be parameters. -/
  | declaration (name : Text) (arguments : List Token)
  | call (name : Text) (arguments : List Token)
  deriving DecidableEq, Repr

/-- The name under which files are imported. -/
def importName : Text := ['i', 'm', 'p', 'o', 'r', 't']

namespace Statement

/-- A name directly before a parenthesis, or before a colon that ends the text. -/
def isCall (text : Text) : Bool :=
  let (name, rest) := Text.spanName text
  !name.isEmpty && (rest.head? = some '(' || rest = [':'])

/-- The argument of `import` written without parentheses: a text in quotes, or a variable. -/
def importArgument? (text : Text) : Option Text :=
  match importName.isPrefixOf? text with
  | none => none
  | some rest =>
    if rest.head?.any Text.isWhiteSpace then
      let path := Text.trim rest
      if path.head?.any fun c => c == '"' || c == '\'' || c == '$' then some path else none
    else none

/-- The name and the value of `$name = value`. A second equals sign makes it a comparison, which is no
assignment. -/
def assignment? : Text → Option (Text × Text)
  | '$' :: reference =>
    let name := reference.takeWhile Text.isNameChar
    if name.isEmpty then none
    else
      match Text.trimStart (reference.dropWhile Text.isNameChar) with
      | '=' :: '=' :: _ => none
      | '=' :: value =>
        let value := Text.trim value
        if value.isEmpty then none else some (name, value)
      | _ => none
  | _ => none

end Statement

namespace Line

/-- The content without a comment at the end of its first source line. -/
def code (line : Line) : Text :=
  Text.stripComment (line.content.takeWhile (· != '\n')) ++ line.content.dropWhile (· != '\n')

/-- A head token with the argument tokens after it. -/
def headed (line : Line) (kind : Token.Kind) (name : Text) (arguments : List Token) : List Token :=
  ⟨kind, name, line.location⟩ :: arguments

/-- The tokens of a line's code. -/
def codeTokens (line : Line) (code : Text) : Except TokenError (List Token) :=
  if code.head? = some '@' then
    (fun (name, arguments) => line.headed .declaration name arguments) <$>
      Signature.read line.location code.tail
  else if Statement.isCall code then
    (fun (name, arguments) => line.headed .call name arguments) <$>
      Signature.read line.location code
  else
    match Statement.importArgument? code with
    | some path => line.headed .call importName <$> Argument.tokens line.location path
    | none =>
      match Statement.assignment? code with
      | some (name, value) =>
        .ok [⟨.assignment, name, line.location⟩, ⟨.literal, value, line.location⟩]
      | none => .ok [⟨.literal, code, line.location⟩]

def tokens (line : Line) : Except TokenError (List Token) :=
  match line.content with
  | '/' :: '/' :: comment => .ok [⟨.comment, Text.trim comment, line.location⟩]
  | _ => line.codeTokens line.code

end Line

/-- The statement that a list of tokens makes. -/
def Statement.ofTokens : List Token → Except TokenError Statement
  | [] => .ok (.literal [])
  | token :: rest =>
    match token.kind with
    | .comment => .ok (.comment token.text)
    | .literal => .ok (.literal token.text)
    | .assignment => .ok (.assignment token.text ((rest.head?.map Token.text).getD []))
    | .declaration => .ok (.declaration token.text rest)
    | .call => .ok (.call token.text rest)
    | .variable => .error (.unknownToken ('$' :: token.text))

def Line.statement (line : Line) : Except TokenError Statement :=
  line.tokens >>= Statement.ofTokens

end Scl
