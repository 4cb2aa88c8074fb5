import Scl.Text.Basic

/-!
# Environment blocks

The environment of a process is a block of entries `NAME=VALUE`. A process that is given variables has one
entry for each name, in the order of the names. Whoever reads an entry only sees where its first equals
sign is, so a name that holds one is cut there; the first character belongs to the name in any case.

* `EnvironmentBlock.ofBindings`: the block of a process that is given variables;
* `EnvironmentBlock.bindings`: the variables that a process finds in its block.
-/

namespace Scl.CommandLine

abbrev EnvironmentBlock := List Text

namespace EnvironmentBlock

/-- The entry of a variable. -/
def entry (name value : Text) : Text :=
  name ++ '=' :: value

/-- Sets a variable among others that are in the order of their names. -/
def insert (name value : Text) : List (Text × Text) → List (Text × Text)
  | [] => [(name, value)]
  | (other, old) :: rest =>
    if name = other then (name, value) :: rest
    else if name < other then (name, value) :: (other, old) :: rest
    else (other, old) :: insert name value rest

/-- The block of a process that is given variables, of which a later one replaces an earlier one of the
same name. -/
def ofBindings (bindings : List (Text × Text)) : EnvironmentBlock :=
  (bindings.foldl (fun all (name, value) => insert name value all) []).map fun (name, value) =>
    entry name value

/-- The variable that an entry holds, if it has an equals sign after its first character. -/
def binding? : Text → Option (Text × Text)
  | [] => none
  | first :: rest =>
    match rest.dropWhile (· != '=') with
    | _ :: value => some (first :: rest.takeWhile (· != '='), value)
    | [] => none

/-- The variables that a process finds in its block. -/
def bindings (block : EnvironmentBlock) : List (Text × Text) :=
  block.filterMap binding?

theorem dropWhile_append_of_notMem {name : Text} (h : '=' ∉ name) (value : Text) :
    (name ++ '=' :: value).dropWhile (· != '=') = '=' :: value := by
  induction name with
  | nil => rfl
  | cons c name ih =>
    obtain ⟨hc, h⟩ := not_or.1 (mt List.mem_cons.2 h)
    simpa [Ne.symm hc] using ih h

theorem takeWhile_append_of_notMem {name : Text} (h : '=' ∉ name) (value : Text) :
    (name ++ '=' :: value).takeWhile (· != '=') = name := by
  induction name with
  | nil => rfl
  | cons c name ih =>
    obtain ⟨hc, h⟩ := not_or.1 (mt List.mem_cons.2 h)
    simpa [Ne.symm hc] using ih h

/-- A variable is found as it was given, unless its name is empty or has an equals sign after its first
character. -/
theorem binding?_entry (first : Char) {name : Text} (h : '=' ∉ name) (value : Text) :
    binding? (entry (first :: name) value) = some (first :: name, value) := by
  simp [entry, binding?, dropWhile_append_of_notMem h, takeWhile_append_of_notMem h]

end EnvironmentBlock

end Scl.CommandLine
