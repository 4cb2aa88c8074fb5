import Scl.Forest
import Scl.Mixin.DocComment
import Scl.Statement.Parameter

/-!
# Mixins

A mixin is a named, parameterised forest of lines. A call runs the forest in a new scope below the one
where the mixin was declared, which it therefore remembers.
-/

namespace Scl

structure Mixin where
  name : Text
  /-- The line that declares it. -/
  declaration : Line
  /-- The lines below the declaration. -/
  body : Forest Line
  parameters : List Parameter
  doc? : Option Text
  /-- The number of the scope where it was declared. -/
  scope : Nat
  deriving DecidableEq, Repr

/-- The number of arguments that every call has to give. -/
def Mixin.required (mixin : Mixin) : Nat :=
  Parameter.required mixin.parameters

end Scl
