import Scl.Statement.Argument

/-!
# Signatures

A signature is a name with its argument list, `name(a, b)`, perhaps with a colon after it, or a name with
a colon alone. It heads mixin declarations and calls.

* `Signature.read`: the name and the argument tokens;
* `Signature.print`: a declaration's signature from its name and tokens.
-/

namespace Scl.Signature

open Text (Nesting)

/-- What stands before the parenthesis that closes a list, and what after it. The first bracket that
closes more than was opened has to be a parenthesis. -/
def enclosed? (nesting : Nesting) : Text → Option (Text × Text)
  | [] => none
  | c :: rest =>
    if nesting = .top && Text.isClosing c then
      if c == ')' then some ([], rest) else none
    else (enclosed? (nesting.step c) rest).map fun (inner, after) => (c :: inner, after)

/-- The pieces of a text between its commas outside quotes and brackets. -/
def pieces (nesting : Nesting) : Text → List Text
  | [] => [[]]
  | c :: rest =>
    if nesting = .top && c == ',' then [] :: pieces .top rest
    else
      match pieces (nesting.step c) rest with
      | [] => [[c]]
      | piece :: others => (c :: piece) :: others

/-- The tokens of an argument list without its parentheses. -/
def listTokens (location : Location) (inner : Text) : Except TokenError (List Token) :=
  if (Text.trim inner).isEmpty then .ok []
  else
    List.flatten <$> (pieces .top inner).mapM fun piece => Argument.tokens location (Text.trim piece)

/-- The name and the argument tokens of a signature. -/
def read (location : Location) (text : Text) : Except TokenError (Text × List Token) :=
  let (name, rest) := Text.spanName text
  if name.isEmpty then .error .malformedSignature
  else if Text.trim rest = [':'] then .ok (name, [])
  else
    match rest with
    | '(' :: list =>
      match enclosed? .top list with
      | none => .error .malformedSignature
      | some (inner, after) =>
        let trailer := Text.trim after
        if trailer = [] ∨ trailer = [':'] then
          (name, ·) <$> listTokens location inner
        else .error .malformedSignature
    | _ => .error .malformedSignature

/-- The signature of a declaration, `@name($a, $b=default)`. -/
def print (name : Text) (tokens : List Token) : Text :=
  '@' :: name ++ '(' :: Text.join [',', ' '] ((Argument.group tokens).map Argument.toText) ++ [')']

end Scl.Signature
