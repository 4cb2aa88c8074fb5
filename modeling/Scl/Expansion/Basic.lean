import Scl.Expansion.Error
import Scl.Scope.Basic

/-!
# Computations on scopes

An expansion reads and changes scopes, may fail, and may have no result at all, if it is nested too deeply.
Scopes are kept also when it fails, since every block and call releases its scope on the way out.

* `bind_apply`, `nested_apply`, `inScope`: how computations are put together.
-/

namespace Scl

/-- A computation on scopes that may fail, and that has no result if it is nested too deeply. -/
abbrev Expansion := ExceptT Error (StateT Scopes Option)

namespace Expansion

variable {α : Type}

/-- No result. -/
def exhausted : Expansion α :=
  fun _ => none

def fail (location : Location) (cause : Cause) : Expansion α :=
  throw (.located location cause)

/-- A result, with a cause of failure placed at `location`. -/
def ofCause (location : Location) : Except Cause α → Expansion α
  | .ok a => pure a
  | .error cause => fail location cause

/-- A value read off the scopes. -/
def reading (read : Scopes → α) : Expansion α :=
  read <$> get

/-- Puts `location` around the errors of a computation. -/
def nested (location : Location) (body : Expansion α) : Expansion α :=
  tryCatch body fun e => throw (.nested location e)

/-- Runs a computation in a new scope below scope `parent`, and releases the scope whatever the outcome. -/
def inScope (inheritance : Inheritance) (parent : Nat) (body : Nat → Expansion α) : Expansion α :=
  fun scopes =>
    match body scopes.count (scopes.enter inheritance parent) with
    | none => none
    | some (result, after) => some (result, after.release scopes.count)

/-! ## What a computation does to scopes -/

theorem pure_apply (a : α) (scopes : Scopes) : (pure a : Expansion α) scopes = some (.ok a, scopes) :=
  rfl

theorem bind_apply {β : Type} (first : Expansion α) (rest : α → Expansion β) (scopes : Scopes) :
    (first >>= rest) scopes =
      match first scopes with
      | none => none
      | some (.ok a, after) => rest a after
      | some (.error e, after) => some (.error e, after) := by
  show (first scopes >>= fun (x : Except Error α × Scopes) => (ExceptT.bindCont rest x.1) x.2) = _
  cases first scopes with
  | none => rfl
  | some result =>
    obtain ⟨result, after⟩ := result
    cases result <;> rfl

theorem reading_apply (read : Scopes → α) (scopes : Scopes) :
    reading read scopes = some (.ok (read scopes), scopes) :=
  rfl

theorem nested_apply (location : Location) (body : Expansion α) (scopes : Scopes) :
    nested location body scopes =
      match body scopes with
      | none => none
      | some (.ok a, after) => some (.ok a, after)
      | some (.error e, after) => some (.error (.nested location e), after) := by
  show (body scopes >>= fun (x : Except Error α × Scopes) => _) = _
  cases body scopes with
  | none => rfl
  | some result =>
    obtain ⟨result, after⟩ := result
    cases result <;> rfl

theorem ofCause_apply (location : Location) (x : Except Cause α) (scopes : Scopes) :
    ofCause location x scopes = some (x.mapError (.located location), scopes) := by
  cases x <;> rfl

end Expansion

end Scl
