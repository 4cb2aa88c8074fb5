import Scl.Proofs.Documentation.Listing
import Scl.Proofs.Expansion.Guard
import Scl.Proofs.Statement.Parameters

/-!
# Mixins and their documentation

An expansion registers a mixin at every declaration that it comes to. It may come to a declaration many times or
never, through blocks, calls and imports, while documentation reads each line of a file once. Still both come to the
declaration in the same place, with the same lines before it:

* `Environment.Registers`: the mixins of the declarations that an expansion reaches;
* `Environment.invariant_registers`: scopes bind no other mixins;
* `expand_registers`: an expansion sets no other mixins, also in scopes that it releases;
* `Environment.invariant_documents`: every place that an expansion reaches is one where documentation looks;
* `expand_documented`: so documentation describes every mixin that is registered.
-/

namespace Scl

/-! ## Entries -/

/-- What documentation has to say of a mixin. -/
def Mixin.entry (mixin : Mixin) : DocEntry where
  name := mixin.name
  location := mixin.declaration.location
  signature := '@' :: mixin.name ++ '(' :: Text.join [',', ' '] (mixin.parameters.map Parameter.toText) ++ [')']
  docs := mixin.doc?.getD []

theorem described?_declared {above : List Line} {line : Line} {name : Text} {arguments : List Token}
    {parameters : List Parameter} (hline : line.statement = .ok (.declaration name arguments))
    (hparameters : Parameter.declared arguments = .ok parameters) (below : Forest Line) (id : Nat) :
    line.described? above = some (Expansion.declared above line below name parameters id).entry := by
  have hsignature : Text.join [',', ' '] (parameters.map Parameter.toText) =
      Text.join [',', ' '] ((Argument.group arguments).map Argument.toText) :=
    congrArg _ (Parameter.declared_eq_ok_iff.mp hparameters).map_toText
  simp only [Line.described?, hline, Mixin.entry, Expansion.declared, hsignature, Signature.print]

/-! ## Registration -/

/-- A place in some file that documentation of the file comes to. -/
def FileSystem.Documents (files : FileSystem) (above : List Line) (forest : Forest Line) : Prop :=
  ∃ path whole, files.load path = .ok whole ∧ Listed whole above forest

namespace Environment

variable (env : Environment)

/-- An expansion from `start` registers a mixin: it reaches a declaration with correct parameters. -/
inductive Registers (start : Point) : Mixin → Prop
  | declared {above : List Line} {line : Line} {below next : Forest Line} {id : Nat} {scopes : Scopes} {name : Text}
    {arguments : List Token} {parameters : List Parameter} :
    env.Reaches start ⟨above, .cons line below next, id, scopes⟩ →
    line.statement = .ok (.declaration name arguments) → Parameter.declared arguments = .ok parameters →
    Registers start (Expansion.declared above line below name parameters id)

/-- Mixins get into scopes by registration only. -/
theorem invariant_registers (start : Point) : env.Invariant (env.Reaches start) (env.Registers start) where
  step := fun hreaches _ hstep _ => hreaches.tail hstep
  declared := .declared

/-- An expansion stays in places that documentation comes to. -/
theorem invariant_documents :
    env.Invariant (fun p => env.files.Documents p.above p.forest) (fun mixin => env.files.Documents [] mixin.body) where
  step := by
    rintro p q ⟨path, whole, hload, hlisted⟩ hscopes (hadvance | ⟨line, henter⟩) -
    · cases hadvance with
      | next _ => exact ⟨path, whole, hload, hlisted.next⟩
      | comment hcomment => exact ⟨path, whole, hload, hlisted.inside (by rw [Line.isOpen, hcomment])⟩
      | block hliteral _ => exact ⟨path, whole, hload, hlisted.inside (by rw [Line.isOpen, hliteral])⟩
    · cases henter with
      | call hinvokes =>
        obtain ⟨name, arguments, values, slots, -, -, hmixin, -⟩ := hinvokes
        exact (hscopes.mixin hmixin).2
      | @file _ _ _ _ _ _ _ path forest _ _ hload => exact ⟨path, forest, hload, .whole⟩
  declared := by
    rintro above line below next id scopes name arguments parameters ⟨path, whole, hload, hlisted⟩ hline -
    exact ⟨path, whole, hload, hlisted.inside (by rw [Line.isOpen, hline])⟩

end Environment

/-- An expansion sets registered mixins only, in whatever scope and with whatever outcome: a guard that allows them does
not change it. -/
theorem expand_registers (env : Environment) (params : List (Text × Text)) (forest : Forest Line) (depth : Nat)
    {guard : Guard} :
    let start : Point := ⟨[], forest, Scopes.rootId, Scopes.ofParams params⟩
    (∀ mixin, env.Registers start mixin → guard.allowed mixin) →
    env.guarded guard depth forest start.id start.scopes = env.expand depth forest start.id start.scopes :=
  fun hallowed => (env.invariant_registers _).guarded_eq hallowed depth .refl (.ofParams _ params)

/-- A guard notices a mixin in the scope of a call, which is released before the end. -/
example :
    let files : Files := [(['m'], "@f():\n  @g():\n    x\nf()".toList)]
    let env : Environment := { files := files.system }
    let forest := (files.system.load ['m']).toOption.getD .nil
    let alarm := Error.located ⟨['m'], 2⟩ .importBody
    let guard : Guard := { allowed := fun mixin => mixin.name = ['f'], alarm }
    (env.expand 2 forest Scopes.rootId .initial).map Prod.fst = some (.ok .nil) ∧
      (env.guarded guard 2 forest Scopes.rootId .initial).map Prod.fst = some (.error (.nested ⟨['m'], 4⟩ alarm)) := by
  decide +kernel

/-- Every mixin in a scope, at any time of an expansion and at its end, has been registered at its declaration; and of
every registered mixin the documentation of its file, if there is one, has exactly one entry for its source line, which
has its name, its parameters and its doc comment. -/
theorem expand_documented {env : Environment} {path : Text} {forest : Forest Line}
    (hload : env.files.load path = .ok forest) (params : List (Text × Text)) :
    let start : Point := ⟨[], forest, Scopes.rootId, Scopes.ofParams params⟩
    (∀ p, env.Reaches start p → ∀ id name mixin, p.scopes.mixin? id name = some mixin →
      env.Registers start mixin) ∧
    (∀ depth result after, env.expand depth forest start.id start.scopes = some (result, after) →
      ∀ id name mixin, after.mixin? id name = some mixin → env.Registers start mixin) ∧
    ∀ mixin, env.Registers start mixin → ∀ docs,
      env.files.document mixin.declaration.location.file = .ok docs →
      docs.preorder.filter (·.location.line = mixin.declaration.location.line) = [mixin.entry] := by
  intro start
  have hregisters := env.invariant_registers start
  refine ⟨fun p hreaches id name mixin hmixin => ?_, fun depth result after hexpand id name mixin hmixin => ?_, ?_⟩
  · exact ((hregisters.reaches hreaches .refl (.ofParams _ params)).2.mixin hmixin).2
  · exact ((hregisters.holding_expand depth .refl (.ofParams _ params) hexpand).mixin hmixin).2
  · rintro mixin ⟨hreaches, hline, hparameters⟩ docs hdocs
    obtain ⟨⟨file, whole, hfile, hlisted⟩, -⟩ :=
      env.invariant_documents.reaches hreaches ⟨path, forest, hload, .whole⟩ (.ofParams _ params)
    have hpath := FileSystem.file_of_mem_load hfile (hlisted.preorder_subset List.mem_cons_self)
    exact FileSystem.filter_document hfile (hpath ▸ hdocs) hlisted (described?_declared hline hparameters _ _)

/-- A mixin with a doc comment in an imported file, when the expansion fails after the import. -/
theorem expand_documented_import :
    let files : Files := [(['l'], "// first\n// second\n@a($x, $y=1):\n  z".toList), (['m'], "import \"l\"\n$v".toList)]
    let env : Environment := { files := files.system }
    let forest := (files.system.load ['m']).toOption.getD .nil
    let docs := (files.system.document ['l']).toOption.getD .nil
    files.system.load ['m'] = .ok forest ∧ files.system.document ['l'] = .ok docs ∧
      env.expandFile [] 2 ['m'] = some (.error (.located ⟨['m'], 2⟩ (.template (.unknownVariable ['v'])))) ∧
      docs.preorder.filter (·.location.line = 3) =
        [⟨['a'], ⟨['l'], 3⟩, "@a($x, $y=1)".toList, "first\nsecond".toList⟩] := by
  intro files env forest docs
  have hload : files.system.load ['m'] = .ok forest := by decide +kernel
  have hdocs : files.system.document ['l'] = .ok docs := by decide +kernel
  let mixin : Mixin :=
    { name := ['a'], declaration := ⟨⟨['l'], 3⟩, 0, "@a($x, $y=1):".toList⟩,
      body := .cons ⟨⟨['l'], 4⟩, 2, ['z']⟩ .nil .nil, parameters := [⟨['x'], none⟩, ⟨['y'], some ['1']⟩],
      doc? := some "first\nsecond".toList, scope := Scopes.rootId }
  have hmixin : (env.expand 2 forest Scopes.rootId (Scopes.ofParams [])).map
      (·.2.mixin? Scopes.rootId ['a']) = some (some mixin) := by decide +kernel
  obtain ⟨⟨result, after⟩, hexpand, hfound⟩ := Option.map_eq_some_iff.mp hmixin
  obtain ⟨-, hregistered, hdocumented⟩ := @expand_documented env _ _ hload []
  refine ⟨hload, hdocs, by decide +kernel, ?_⟩
  exact hdocumented mixin (hregistered 2 result after hexpand _ _ mixin hfound) docs hdocs

end Scl
