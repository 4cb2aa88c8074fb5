import Scl.Statement.Argument

/-!
# Parameters

The parameters of a mixin, from the arguments of its declaration: variables first, which a call has to
give, then assignments, whose values are the defaults. No name comes twice.
-/

namespace Scl

/-- A parameter of a mixin. One with a default may be left out of a call. -/
structure Parameter where
  name : Text
  default? : Option Text
  deriving DecidableEq, Repr

inductive DeclarationError.Reason where
  | requiredAfterOptional
  | unexpectedLiteral
  | duplicate
  deriving DecidableEq, Repr

def DeclarationError.Reason.message : Reason → String
  | requiredAfterOptional => "A required argument can't follow an optional argument"
  | unexpectedLiteral => "Unexpected literal"
  | duplicate => "Duplicate argument"

/-- An argument list that declares no parameters; `index` counts the arguments before the one at
fault. -/
structure DeclarationError where
  index : Nat
  name : Text
  reason : DeclarationError.Reason
  deriving DecidableEq, Repr

def DeclarationError.message (error : DeclarationError) : String :=
  "Argument declaration " ++ toString error.index ++ " [" ++ String.ofList error.name ++ "]: " ++
    error.reason.message

namespace Parameter

/-- The number of parameters without a default. -/
def required (parameters : List Parameter) : Nat :=
  parameters.countP (·.default?.isNone)

/-- The text without double quotes at either end. -/
def unquoted (text : Text) : Text :=
  Text.dropEndWhile (· == '"') (text.dropWhile (· == '"'))

/-- The parameter that an argument declares after the parameters `earlier`. -/
def ofArgument (earlier : List Parameter) : Argument → Except (Text × DeclarationError.Reason) Parameter
  | .single token =>
    if token.kind = .variable then
      if earlier.any (·.default?.isSome) then .error (token.text, .requiredAfterOptional)
      else .ok ⟨token.text, none⟩
    else .error (unquoted token.text, .unexpectedLiteral)
  | .named name value => .ok ⟨name, some value⟩

/-- The parameters that arguments declare, after the parameters `earlier`. -/
def ofArguments (earlier : List Parameter) : List Argument → Except DeclarationError (List Parameter)
  | [] => .ok earlier
  | argument :: rest =>
    match ofArgument earlier argument with
    | .error (name, reason) => .error ⟨earlier.length, name, reason⟩
    | .ok parameter =>
      if earlier.any (·.name = parameter.name) then
        .error ⟨earlier.length, parameter.name, .duplicate⟩
      else ofArguments (earlier ++ [parameter]) rest

/-- The parameters of a declaration with these argument tokens. -/
def declared (tokens : List Token) : Except DeclarationError (List Parameter) :=
  ofArguments [] (Argument.group tokens)

end Parameter

end Scl
