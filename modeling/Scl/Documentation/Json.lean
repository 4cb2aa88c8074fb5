import Scl.Documentation.Basic

/-!
# Documentation as JSON

An array with one object for each mixin, in which the mixins inside it are an array again. Nothing is
written between the items but what the format asks for. In a string, quotes, backslashes and control
characters are escaped, the common ones by a letter and the others by their number.
-/

namespace Scl.Json

/-- A number below 256 as two digits. -/
def hexByte (n : Nat) : Text :=
  [Nat.digitChar (n / 16), Nat.digitChar (n % 16)]

def escape (c : Char) : Text :=
  match c.toNat with
  | 0x22 => ['\\', '"']
  | 0x5C => ['\\', '\\']
  | 0x08 => ['\\', 'b']
  | 0x0C => ['\\', 'f']
  | 0x0A => ['\\', 'n']
  | 0x0D => ['\\', 'r']
  | 0x09 => ['\\', 't']
  | n => if n < 0x20 then ['\\', 'u', '0', '0'] ++ hexByte n else [c]

def string (text : Text) : Text :=
  '"' :: text.flatMap escape ++ ['"']

def array (items : List Text) : Text :=
  '[' :: Text.join [','] items ++ [']']

/-- An object from its fields in order, whose values are already written. -/
def object (fields : List (String × Text)) : Text :=
  '{' :: Text.join [','] (fields.map fun (name, value) => string name.toList ++ ':' :: value) ++ ['}']

/-- The objects of a forest of mixins. -/
def mixins : Forest DocEntry → List Text
  | .nil => []
  | .cons doc below next =>
    object
      [("name", string doc.name), ("file", string doc.location.file),
       ("line", Text.ofNat doc.location.line), ("reference", string doc.location.toText),
       ("signature", string doc.signature), ("docs", string doc.docs),
       ("children", array (mixins below))] :: mixins next

end Scl.Json
