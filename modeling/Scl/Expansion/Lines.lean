import Scl.Expansion.Basic
import Scl.Expansion.Import
import Scl.Output

/-!
# Expanding lines

Expanding a forest of lines in a scope gives output and changes the scope: assignments and declarations
bind names there, a literal with lines below it opens a block in a scope of its own, a call runs the body
of a mixin in a scope below the mixin's, and an import runs files in the current scope.

The recursion follows the forest. Only calls and imports leave it, and how deeply they may be nested is
bounded by a number; an expansion that would go deeper has no result.

* `Environment.expandLine`: one line, given what to do with the forest below it and with other forests;
* `Environment.expandForest`: a forest, given what to do with other forests;
* `Environment.expand`: a forest, with calls and imports nested up to a depth.
-/

namespace Scl

/-- What stays the same during an expansion. -/
structure Environment where
  files : FileSystem
  /-- The directories to look for imports in, after that of the importing file. -/
  includePaths : List Text := []
  inheritance : Inheritance := .copied

open Expansion

/-- How to expand a forest in a scope. -/
abbrev Expander := Forest Line → Nat → Expansion Output

/-- A call of the mixin `name` from scope `id`, whose body `run` expands. -/
def Environment.expandCall (env : Environment) (run : Expander) (line : Line) (below : Forest Line)
    (name : Text) (arguments : List Token) (id : Nat) : Expansion Output := do
  match ← reading (·.mixin? id name) with
  | none => fail line.location (.resolution (.unknownMixin name))
  | some mixin =>
    if !below.isEmpty then fail line.location (.resolution (.callWithBody name))
    else
      let values ← ofCause line.location (← reading (·.evaluate id (Argument.group arguments)))
      if !mixin.takes values.count then
        fail line.location (.resolution (.wrongArity name mixin.required values.count))
      else
        inScope env.inheritance mixin.scope fun invocation => do
          let slots ← ofCause line.location ((mixin.slots values).mapError .resolution)
          let bound ← ofExcept (← reading (Scopes.bind mixin line.location invocation slots))
          set bound
          nested line.location (run mixin.body invocation)

/-- Files one after the other, in scope `id`. -/
def FileSystem.expandAll (files : FileSystem) (run : Expander) (id : Nat) : List Text → Expansion Output
  | [] => pure .nil
  | path :: rest => do
    let forest ← ofExcept (files.load path)
    let first ← run forest id
    let others ← files.expandAll run id rest
    pure (first ++ others)

/-- An import into scope `id`, whose files `run` expands. -/
def Environment.expandImport (env : Environment) (run : Expander) (line : Line) (below : Forest Line)
    (arguments : List Token) (id : Nat) : Expansion Output := do
  if !below.isEmpty then fail line.location .importBody
  else
    let pattern ← ofCause line.location (← reading (·.importPattern id arguments))
    let candidates := Path.candidates env.includePaths line.location.file pattern
    match env.files.firstMatch candidates with
    | .error e => throw (.nested line.location (.file pattern e))
    | .ok [] => fail line.location (.noFilesFound pattern)
    | .ok paths => nested line.location (env.files.expandAll run id paths)

/-- One line in scope `id`. Its earlier siblings are `above`, with the last one first; `inside` expands the
forest below it, and `run` any other forest. -/
def Environment.expandLine (env : Environment) (run : Expander) (inside : Nat → Expansion Output)
    (above : List Line) (line : Line) (below : Forest Line) (id : Nat) : Expansion Output := do
  match ← ofCause line.location (line.statement.mapError .token) with
  | .comment _ => inside id
  | .literal text =>
    let text ← ofCause line.location (← reading (·.fill id text))
    if below.isEmpty then pure (.leaf text)
    else
      let body ← inScope env.inheritance id inside
      pure (.block text body .nil)
  | .assignment name value =>
    if !below.isEmpty then fail line.location (.assignmentBody name)
    else
      let value ← ofCause line.location (← reading (·.fill id value))
      modify (·.setVariable id name value)
      pure (.line (name ++ [' ', '=', ' '] ++ value) .nil)
  | .declaration name arguments =>
    let parameters ← ofCause line.location ((Parameter.declared arguments).mapError .declaration)
    let doc? := line.docComment? above
    modify (·.setMixin id { name, declaration := line, body := below, parameters, doc?, scope := id })
    pure .nil
  | .call name arguments =>
    if name = importName then env.expandImport run line below arguments id
    else env.expandCall run line below name arguments id

/-- A forest in scope `id`, where `above` are the roots before it, with the last one first, and `run`
expands the bodies of mixins and imported files. -/
def Environment.expandForest (env : Environment) (run : Expander) (above : List Line) :
    Forest Line → Nat → Expansion Output
  | .nil, _ => pure .nil
  | .cons line below next, id => do
    let here ← env.expandLine run (env.expandForest run [] below) above line below id
    let rest ← env.expandForest run (line :: above) next id
    pure (here ++ rest)

/-- A forest in a scope, with at most `depth` forests inside each other, itself included. -/
def Environment.expand (env : Environment) : Nat → Expander
  | 0 => fun _ _ => exhausted
  | depth + 1 => env.expandForest (env.expand depth) []

/-- The root scope alone, with variables set in the order given. -/
def Scopes.ofParams (params : List (Text × Text)) : Scopes :=
  params.foldl (fun scopes (name, value) => scopes.setVariable Scopes.rootId name value) .initial

/-- The output of a file, with `params` as variables of the root scope. -/
def Environment.expandFile (env : Environment) (params : List (Text × Text)) (depth : Nat) (path : Text) :
    Option (Except Error Output) :=
  match env.files.load path with
  | .error e => some (.error e)
  | .ok forest => (env.expand depth forest Scopes.rootId (Scopes.ofParams params)).map Prod.fst

end Scl
