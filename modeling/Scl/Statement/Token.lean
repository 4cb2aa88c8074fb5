import Scl.Line.Basic

/-!
# Tokens

What a line is made of: one comment or literal, an assignment with its value, or the head of a mixin
declaration or call with its arguments.
-/

namespace Scl

inductive Token.Kind where
  /-- Text that stands for itself, such as `value = 1`, `"quoted"` or `[1, 2]`. -/
  | literal
  /-- A reference `$name` in an argument list. -/
  | variable
  /-- The left side of `$name = value` or `$name=value`; the value is the literal that follows. -/
  | assignment
  /-- The head of `@name(…)`. -/
  | declaration
  /-- The head of `name(…)` or `name:`. -/
  | call
  | comment
  deriving DecidableEq, Repr

structure Token where
  kind : Token.Kind
  /-- The literal, the name or the text of the comment. -/
  text : Text
  location : Location
  deriving DecidableEq, Repr

/-- What makes a line unreadable. -/
inductive TokenError where
  /-- Brackets that do not close, text after the closing one, or an empty argument. -/
  | malformedSignature
  /-- A character that no bare argument has. -/
  | illegalCharacter (c : Char)
  /-- An argument that starts like a variable and is none. -/
  | unknownToken (text : Text)
  deriving DecidableEq, Repr

def TokenError.message : TokenError → String
  | .malformedSignature => "Can't parse function signature"
  | .illegalCharacter c => "Illegal character '" ++ c.toString ++ "' in argument"
  | .unknownToken text => "Unknown token: " ++ String.ofList text

end Scl
