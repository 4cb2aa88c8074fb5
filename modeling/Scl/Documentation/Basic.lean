import Scl.Expansion.Import

/-!
# Documentation

The mixins that a file declares, with their signatures and doc comments. Nothing is expanded and no import
is followed. A declaration inside a block is listed at the level of the block, and one inside the body of
a mixin below that mixin.
-/

namespace Scl

/-- What is known of a mixin without expanding anything. -/
structure DocEntry where
  name : Text
  location : Location
  signature : Text
  docs : Text
  deriving DecidableEq, Repr

/-- The declarations of a forest, where `above` are the roots before it, with the last one first. -/
def DocEntry.ofForest (above : List Line) : Forest Line → Except Error (Forest DocEntry)
  | .nil => .ok .nil
  | .cons line below next => do
    let here ← match line.statement with
      | .error e => .error (.located line.location (.token e))
      | .ok (.declaration name arguments) => do
        let inside ← ofForest [] below
        let signature := Signature.print name arguments
        let docs := (line.docComment? above).getD []
        pure (.cons { name, location := line.location, signature, docs } inside .nil)
      | .ok (.literal _) => ofForest [] below
      | .ok (.comment _) => ofForest [] below
      | .ok (.assignment ..) => pure .nil
      | .ok (.call ..) => pure .nil
    let rest ← ofForest (line :: above) next
    pure (here ++ rest)

/-- The declarations of a file. -/
def FileSystem.document (files : FileSystem) (path : Text) : Except Error (Forest DocEntry) :=
  files.load path >>= DocEntry.ofForest []

end Scl
