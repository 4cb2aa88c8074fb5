import Scl.Expansion.Error
import Scl.Scope.Basic

/-!
# Arguments of a call

A call first gets the values of its written arguments, in the scope of the caller. They are then matched
with the parameters of the mixin, positional values first, and every parameter becomes a variable of the
new scope. A default is filled in there, so it may refer to the parameters before it.

* `Scopes.evaluate`: the values of written arguments;
* `Mixin.slots`: the parameters with the values that the call gives them;
* `Scopes.bind`: the parameters as variables.
-/

namespace Scl

/-- A text filled in with the variables that scope `id` sees. -/
def Scopes.fill (scopes : Scopes) (id : Nat) (text : Text) : Except Cause Text :=
  match (Template.ofText text).fill (scopes.value? id) with
  | .ok filled => .ok filled
  | .error failure => .error (.template failure.fault)

/-- The value of a variable that has to be declared. -/
def Scopes.declared (scopes : Scopes) (id : Nat) (name : Text) : Except Cause Text :=
  match scopes.value? id name with
  | some value => .ok value
  | none => .error (.resolution (.undeclaredVariable name))

/-- The values that a call gives, by position and by name. -/
structure Values where
  positional : List Text := []
  named : List (Text × Text) := []
  deriving DecidableEq, Repr

def Values.count (values : Values) : Nat :=
  values.positional.length + values.named.length

/-- The values of written arguments as seen from scope `id`. -/
def Scopes.evaluate (scopes : Scopes) (id : Nat) : List Argument → Except Cause Values
  | [] => .ok {}
  | .named name value :: rest => do
    let value ← scopes.fill id value
    let values ← scopes.evaluate id rest
    return { values with named := (name, value) :: values.named }
  | .single token :: rest => do
    let value ← match token.kind with
      | .literal => scopes.fill id token.text
      | .variable => scopes.declared id token.text
      | _ => .error (.token (.unknownToken token.text))
    let values ← scopes.evaluate id rest
    return { values with positional := value :: values.positional }

/-- A parameter and the value that the call gives it. -/
abbrev Slot := Parameter × Option Text

/-- The parameters with positional values for the first of them. -/
def Slot.positional : List Parameter → List Text → List Slot
  | [], _ => []
  | parameter :: parameters, [] => (parameter, none) :: positional parameters []
  | parameter :: parameters, value :: values =>
    (parameter, some value) :: positional parameters values

/-- Gives the parameter `name` a value; `mixin` names the mixin in errors. -/
def Slot.assign (mixin name value : Text) : List Slot → Except ResolutionError (List Slot)
  | [] => .error (.unknownArgument mixin name)
  | (parameter, given?) :: rest =>
    if parameter.name = name then
      match given? with
      | none => .ok ((parameter, some value) :: rest)
      | some _ => .error (.boundTwice mixin name)
    else ((parameter, given?) :: ·) <$> assign mixin name value rest

/-- Gives parameters their values by name, in the order written. -/
def Slot.assignAll (mixin : Text) : List (Text × Text) → List Slot → Except ResolutionError (List Slot)
  | [], slots => .ok slots
  | (name, value) :: rest, slots => assign mixin name value slots >>= assignAll mixin rest

/-- The parameters of a mixin with the values that a call gives them. -/
def Mixin.slots (mixin : Mixin) (values : Values) : Except ResolutionError (List Slot) :=
  Slot.assignAll mixin.name values.named (Slot.positional mixin.parameters values.positional)

/-- Whether a call with `count` values can be one of the mixin. -/
def Mixin.takes (mixin : Mixin) (count : Nat) : Bool :=
  mixin.required ≤ count && count ≤ mixin.parameters.length

/-- Makes the parameters of a mixin variables of scope `id`, for a call at `location`. -/
def Scopes.bind (mixin : Mixin) (location : Location) (id : Nat) :
    List Slot → Scopes → Except Error Scopes
  | [], scopes => .ok scopes
  | (parameter, given?) :: rest, scopes => do
    let value ← match given?, parameter.default? with
      | some value, _ => pure value
      | none, some default =>
        match scopes.fill id default with
        | .ok value => pure value
        | .error cause => .error (.nested location (.located mixin.declaration.location cause))
      | none, none =>
        .error (.located location (.resolution (.missingArgument mixin.name parameter.name)))
    Scopes.bind mixin location id rest (scopes.setVariable id parameter.name value)

end Scl
