import Scl.Statement.Token
import Scl.Text.Numeric
import Scl.Text.Quoting

/-!
# Arguments

One argument of a declaration or a call is a literal, `$name`, or `$name=literal`. `Argument.tokens` reads
one; `Argument.group` puts the tokens of an argument list together again, an assignment with the token
after it.
-/

namespace Scl

/-- An argument put together from its tokens. -/
inductive Argument where
  /-- A token on its own. -/
  | single (token : Token)
  /-- An assignment with its value. -/
  | named (name value : Text)
  deriving DecidableEq, Repr

namespace Argument

/-! ## Reading -/

/-- A character of an argument that is neither quoted nor bracketed. -/
def isBareChar (c : Char) : Bool :=
  Text.isAlphanumeric c || c == '_' || c == '.' || c == '-' || c == '+'

/-- The character that has to end a literal which starts with `first`, if `first` is a quote or a
bracket. -/
def closingOf? (first : Char) : Option Char :=
  if Text.isQuote first then some first
  else if first == '[' then some ']'
  else if first == '{' then some '}'
  else none

/-- What is wrong with a text as a literal argument: a quoted or bracketed literal has to end in its
closing character, any other consists of bare characters. -/
def literalFault? : Text → Option TokenError
  | [] => some .malformedSignature
  | first :: rest =>
    match closingOf? first with
    | some closing => if rest.getLast? = some closing then none else some .malformedSignature
    | none => ((first :: rest).find? (!isBareChar ·)).map .illegalCharacter

/-- The tokens of one argument, which has no white space around it. -/
def tokens (location : Location) (argument : Text) : Except TokenError (List Token) :=
  match argument with
  | [] => .error .malformedSignature
  | '$' :: reference =>
    let name := reference.takeWhile Text.isNameChar
    let rest := Text.trimStart (reference.dropWhile Text.isNameChar)
    if name.isEmpty then .error (.unknownToken argument)
    else
      match rest with
      | [] => .ok [⟨.variable, name, location⟩]
      | '=' :: value =>
        let value := Text.trim value
        if value.isEmpty then .error (.unknownToken argument)
        else
          match literalFault? value with
          | some fault => .error fault
          | none => .ok [⟨.assignment, name, location⟩, ⟨.literal, value, location⟩]
      | _ => .error (.unknownToken argument)
  | _ =>
    match literalFault? argument with
    | some fault => .error fault
    | none => .ok [⟨.literal, argument, location⟩]

/-! ## Putting tokens together -/

/-- The arguments of a token list: an assignment takes the next token as its value, and the empty text
if it is the last one. -/
def group : List Token → List Argument
  | [] => []
  | [token] => if token.kind = .assignment then [named token.text []] else [single token]
  | token :: value :: rest =>
    if token.kind = .assignment then named token.text value.text :: group rest
    else single token :: group (value :: rest)

/-- An argument as it is written. -/
def toText : Argument → Text
  | single token => if token.kind = .variable then '$' :: token.text else token.text
  | named name value => '$' :: name ++ '=' :: value

end Argument

end Scl
