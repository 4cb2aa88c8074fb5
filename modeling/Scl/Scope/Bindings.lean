import Scl.Text.Basic

/-!
# Bindings

Values by name. A newer binding of a name hides the older ones.

* `find?_insert`: what a name is bound to after an insertion.
-/

namespace Scl

abbrev Bindings (α : Type) := List (Text × α)

namespace Bindings

variable {α : Type}

def insert (bindings : Bindings α) (name : Text) (value : α) : Bindings α :=
  (name, value) :: bindings

def find? : Bindings α → Text → Option α
  | [], _ => none
  | (bound, value) :: older, name => if bound = name then some value else find? older name

theorem find?_insert (bindings : Bindings α) (bound name : Text) (value : α) :
    (bindings.insert bound value).find? name =
      if bound = name then some value else bindings.find? name :=
  rfl

end Bindings

end Scl
