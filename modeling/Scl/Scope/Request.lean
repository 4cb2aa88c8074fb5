import Scl.Scope.Basic
import Scl.Template

/-!
# Requests

Scopes as a store that is driven from outside, one request at a time. Here a number may be out of date,
so every request that needs a scope checks that the scope is there; one that fails changes nothing.
-/

namespace Scl.Scopes

inductive Request where
  | enter (scope : Nat)
  | release (scope : Nat)
  | parent (scope : Nat)
  | setVariable (scope : Nat) (name value : Text)
  | variable (scope : Nat) (name : Text)
  /-- Binds a mixin, with the scope as the one where it was declared. -/
  | setMixin (scope : Nat) (mixin : Mixin)
  | mixin (scope : Nat) (name : Text)
  /-- Fills in a text with the variables that a scope sees. -/
  | fill (scope : Nat) (text : Text)
  deriving DecidableEq, Repr

inductive Answer where
  | done
  | entered (scope : Nat)
  | parent (parent? : Option Nat)
  | variable (value? : Option Text)
  | mixin (mixin? : Option Mixin)
  | filled (result : Except Template.Failure Text)
  | noSuchScope

/-- An answer from scope `id` and the scopes after it, if the scope is there. -/
def guarded (scopes : Scopes) (id : Nat) (result : Answer × Scopes) : Answer × Scopes :=
  if scopes.contains id then result else (.noSuchScope, scopes)

def perform (scopes : Scopes) : Request → Answer × Scopes
  | .enter id => scopes.guarded id (.entered scopes.count, scopes.enter .copied id)
  | .release id => (.done, scopes.release id)
  | .parent id => scopes.guarded id (.parent ((scopes.scope? id).bind (·.parent?)), scopes)
  | .setVariable id name value => scopes.guarded id (.done, scopes.setVariable id name value)
  | .variable id name => scopes.guarded id (.variable (scopes.value? id name), scopes)
  | .setMixin id mixin => scopes.guarded id (.done, scopes.setMixin id { mixin with scope := id })
  | .mixin id name => scopes.guarded id (.mixin (scopes.mixin? id name), scopes)
  | .fill id text =>
    let template := Template.ofText text
    let result := (.filled (template.fill (scopes.value? id)), scopes)
    if template.names.isEmpty then result else scopes.guarded id result

end Scl.Scopes
