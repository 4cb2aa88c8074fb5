import Scl.Proofs.Expansion.Confinement

/-!
# Expansion as a walk

The same expansion written as a walk over the lines that appends to an output as it goes, and keeps what it
has written when it fails. It also takes note of every forest that it begins, with the scope it is begun in
and the number of scopes at that time.

* `Environment.walkForest`, `Environment.walk`: the walk, line by line as `Environment.expandForest`;
* `Writes`: a walk only appends, and what it appends, where it ends and why does not depend on what was
  written before; if it ends well it has appended the output of the expansion;
* `writes_walkForest`: the walk over a forest is such a walk, and begins every forest in the newest scope;
* `walkForest_discipline`: what a walk leaves of the scopes.
-/

namespace Scl

/-! ## Walks -/

namespace Walk

/-- A forest begun: the number of the scope it is expanded in, and how many scopes there are then. -/
structure Visit where
  scope : Nat
  count : Nat
  deriving DecidableEq, Repr

/-- What a walk reads and changes. -/
structure State where
  scopes : Scopes
  /-- The output written so far. -/
  out : Output
  /-- The forests begun so far. -/
  visits : List Visit

/-- Why a walk stops before its end. -/
inductive Stop where
  | error (error : Error)
  /-- It would be nested too deeply. -/
  | exhausted
  deriving DecidableEq, Repr

end Walk

/-- A computation that writes output and keeps its state when it stops. -/
abbrev Walk := ExceptT Walk.Stop (StateM Walk.State)

/-- How to walk over a forest in a scope. -/
abbrev Walker := Forest Line → Nat → Walk PUnit

namespace Walk

open Expansion (ask binding)

variable {α β : Type}

/-- A computation that writes nothing. -/
def silent (x : Expansion α) : Walk α :=
  fun state =>
    match x state.scopes with
    | none => (.error .exhausted, state)
    | some (.ok a, after) => (.ok a, { state with scopes := after })
    | some (.error e, after) => (.error (.error e), { state with scopes := after })

def write (output : Output) : Walk PUnit :=
  modify fun state => { state with out := state.out ++ output }

def fail (location : Location) (cause : Cause) : Walk PUnit :=
  throw (.error (.located location cause))

/-- Begins a forest in scope `id`. -/
def begin (body : Nat → Walk PUnit) (id : Nat) : Walk PUnit := do
  modify fun state => { state with visits := state.visits ++ [⟨id, state.scopes.count⟩] }
  body id

/-- The same reason, with `location` around an error. -/
def Stop.within (location : Location) : Stop → Stop
  | error e => error (.nested location e)
  | exhausted => exhausted

/-- Puts `location` around the errors of a walk. -/
def nested (location : Location) (body : Walk PUnit) : Walk PUnit :=
  fun state =>
    let (result, after) := body state
    (result.mapError (Stop.within location), after)

/-- Walks in a new scope below scope `parent`, and releases the scope whatever the outcome. -/
def inScope (inheritance : Inheritance) (parent : Nat) (body : Nat → Walk PUnit) : Walk PUnit :=
  fun state =>
    let (result, after) :=
      body state.scopes.count { state with scopes := state.scopes.enter inheritance parent }
    (result, { after with scopes := after.scopes.release state.scopes.count })

/-- Walks with an output of its own, which starts out empty and is given back at the end. -/
def collect (body : Walk PUnit) : Walk Output :=
  fun state =>
    match body { state with out := .nil } with
    | (.ok _, after) => (.ok after.out, { after with out := state.out })
    | (.error stop, after) => (.error stop, { after with out := state.out })

/-! ## Lines -/

/-- The part of a call that runs in the scope which it opens, with number `id`. -/
def invoke (run : Walker) (location : Location) (mixin : Mixin) (values : Values) (id : Nat) :
    Walk PUnit := do
  let slots ← silent (Expansion.ofCause location ((mixin.slots values).mapError .resolution))
  silent (binding mixin location id slots)
  nested location (run mixin.body id)

/-- The part of a call that follows the lookup of its mixin. -/
def callMixin (inheritance : Inheritance) (run : Walker) (line : Line) (below : Forest Line) (name : Text)
    (arguments : List Token) (id : Nat) : Option Mixin → Walk PUnit
  | none => fail line.location (.resolution (.unknownMixin name))
  | some mixin =>
    if !below.isEmpty then fail line.location (.resolution (.callWithBody name))
    else do
      let values ← silent (ask line.location (·.evaluate id (Argument.group arguments)))
      if !mixin.takes values.count then
        fail line.location (.resolution (.wrongArity name mixin.required values.count))
      else inScope inheritance mixin.scope (invoke run line.location mixin values)

/-- Files one after the other, in scope `id`. -/
def walkAll (files : FileSystem) (run : Walker) (id : Nat) : List Text → Walk PUnit
  | [] => pure ⟨⟩
  | path :: rest => do
    let forest ← silent (ofExcept (files.load path))
    run forest id
    walkAll files run id rest

def importFiles (env : Environment) (run : Walker) (id : Nat) (line : Line) (pattern : Text) : Walk PUnit :=
  match env.files.firstMatch (Path.candidates env.includePaths line.location.file pattern) with
  | .error e => throw (.error (.nested line.location (.file pattern e)))
  | .ok [] => fail line.location (.noFilesFound pattern)
  | .ok paths => nested line.location (walkAll env.files run id paths)

def literal (inheritance : Inheritance) (inside : Nat → Walk PUnit) (line : Line) (below : Forest Line)
    (text : Text) (id : Nat) : Walk PUnit := do
  let text ← silent (ask line.location (·.fill id text))
  if below.isEmpty then write (.leaf text)
  else
    let body ← collect (inScope inheritance id inside)
    write (.block text body .nil)

def assignment (line : Line) (below : Forest Line) (name value : Text) (id : Nat) : Walk PUnit :=
  if !below.isEmpty then fail line.location (.assignmentBody name)
  else do
    let value ← silent (ask line.location (·.fill id value))
    silent (modify (·.setVariable id name value))
    write (.line (name ++ [' ', '=', ' '] ++ value) .nil)

def declaration (above : List Line) (line : Line) (below : Forest Line) (name : Text)
    (arguments : List Token) (id : Nat) : Walk PUnit := do
  let parameters ← silent
    (Expansion.ofCause line.location ((Parameter.declared arguments).mapError .declaration))
  silent (modify (·.setMixin id (Expansion.declared above line below name parameters id)))

end Walk

namespace Environment

/-- One line in scope `id`; `inside` walks over the forest below it, and `run` over any other forest. -/
def walkLine (env : Environment) (run : Walker) (inside : Nat → Walk PUnit) (above : List Line)
    (line : Line) (below : Forest Line) (id : Nat) : Walk PUnit :=
  match line.statement with
  | .error e => Walk.fail line.location (.token e)
  | .ok (.comment _) => inside id
  | .ok (.literal text) => Walk.literal env.inheritance inside line below text id
  | .ok (.assignment name value) => Walk.assignment line below name value id
  | .ok (.declaration name arguments) => Walk.declaration above line below name arguments id
  | .ok (.call name arguments) =>
    if name = importName then
      if !below.isEmpty then Walk.fail line.location .importBody
      else Walk.silent (Expansion.ask line.location (·.importPattern id arguments)) >>=
        Walk.importFiles env run id line
    else Walk.silent (Expansion.reading (·.mixin? id name)) >>=
      Walk.callMixin env.inheritance run line below name arguments id

/-- A forest in scope `id`, where `above` are the roots before it, with the last one first. -/
def walkForest (env : Environment) (run : Walker) (above : List Line) : Forest Line → Nat → Walk PUnit
  | .nil, _ => pure ⟨⟩
  | .cons line below next, id => do
    env.walkLine run (Walk.begin (env.walkForest run [] below)) above line below id
    env.walkForest run (line :: above) next id

/-- A forest in a scope, with at most `depth` forests inside each other, itself included. -/
def walk (env : Environment) : Nat → Walker
  | 0 => fun _ => Walk.begin fun _ => throw .exhausted
  | depth + 1 => fun forest => Walk.begin (env.walkForest (env.walk depth) [] forest)

end Environment

namespace Walk

open Expansion (Keeps Above Confined)

variable {α β : Type}

/-! ## What a walk does -/

/-- What a walk does from given scopes, whatever has been written and begun before. -/
def Does (walk : Walk α) (scopes : Scopes) (result : Except Stop α) (after : Scopes) (output : Output)
    (visits : List Visit) : Prop :=
  ∀ out log, walk ⟨scopes, out, log⟩ = (result, ⟨after, out ++ output, log ++ visits⟩)

theorem bind_apply (first : Walk α) (rest : α → Walk β) (state : State) :
    (first >>= rest) state =
      match first state with
      | (.ok a, after) => rest a after
      | (.error stop, after) => (.error stop, after) := by
  show ExceptT.bindCont rest (first state).1 (first state).2 = _
  obtain ⟨result, after⟩ := first state
  cases result <;> rfl

namespace Does

variable {scopes between after : Scopes} {output output' : Output} {visits visits' : List Visit}

theorem pure (a : α) (scopes : Scopes) : Does (Pure.pure a) scopes (.ok a) scopes .nil [] := by
  intro out log
  rw [Output.append_nil, List.append_nil]
  rfl

theorem throw (stop : Stop) (scopes : Scopes) :
    Does (MonadExcept.throw stop : Walk α) scopes (.error stop) scopes .nil [] := by
  intro out log
  rw [Output.append_nil, List.append_nil]
  rfl

theorem write (output : Output) (scopes : Scopes) :
    Does (write output) scopes (.ok ⟨⟩) scopes output [] := by
  intro out log
  rw [List.append_nil]
  rfl

theorem bind {first : Walk α} {rest : α → Walk β} {a : α} {result : Except Stop β}
    (h : Does first scopes (.ok a) between output visits)
    (h' : Does (rest a) between result after output' visits') :
    Does (first >>= rest) scopes result after (output ++ output') (visits ++ visits') := by
  intro out log
  rw [bind_apply, h out log]
  show rest a ⟨between, out ++ output, log ++ visits⟩ = _
  rw [h' (out ++ output) (log ++ visits), Output.append_assoc, List.append_assoc]

theorem bind_error {first : Walk α} (rest : α → Walk β) {stop : Stop}
    (h : Does first scopes (.error stop) after output visits) :
    Does (first >>= rest) scopes (.error stop) after output visits := by
  intro out log
  rw [bind_apply, h out log]

/-- A computation that writes nothing. -/
theorem silent (x : Expansion α) (scopes : Scopes) :
    match x scopes with
    | none => Does (silent x) scopes (.error .exhausted) scopes .nil []
    | some (.ok a, after) => Does (Walk.silent x) scopes (.ok a) after .nil []
    | some (.error e, after) => Does (Walk.silent x) scopes (.error (.error e)) after .nil [] := by
  have happly : ∀ out log, Walk.silent x ⟨scopes, out, log⟩ = match x scopes with
      | none => (.error .exhausted, ⟨scopes, out, log⟩)
      | some (.ok a, after) => (.ok a, ⟨after, out, log⟩)
      | some (.error e, after) => (.error (.error e), ⟨after, out, log⟩) := fun _ _ => rfl
  split <;> rename_i hx <;> intro out log <;>
    rw [happly, hx, Output.append_nil, List.append_nil]

end Does

/-! ## Walks that write what an expansion gives -/

/-- The outcome of the expansion that gives what a walk writes. -/
def asExpansion (result : Except Stop PUnit) (output : Output) (after : Scopes) :
    Option (Except Error Output × Scopes) :=
  match result with
  | .ok _ => some (.ok output, after)
  | .error (.error e) => some (.error e, after)
  | .error .exhausted => none

theorem asExpansion_eq_some {result : Except Stop PUnit} (output : Output) (after : Scopes)
    (h : result ≠ .error .exhausted) : ∃ outcome, asExpansion result output after = some (outcome, after) := by
  match result with
  | .ok _ => exact ⟨_, rfl⟩
  | .error (.error e) => exact ⟨_, rfl⟩
  | .error .exhausted => exact absurd rfl h

/-- From scopes with a property, a walk only appends to what was written and begun before, without regard
to it. It ends as the expansion `x` does, having written the output of `x` if that has any, and it begins
every forest in the newest scope. -/
def Writes (I : Scopes → Prop) (x : Expansion Output) (walk : Walk PUnit) : Prop :=
  ∀ scopes, I scopes → ∃ result after output visits, Does walk scopes result after output visits ∧
    (∀ visit ∈ visits, visit.scope + 1 = visit.count) ∧ x scopes = asExpansion result output after

namespace Writes

variable {I : Scopes → Prop} {x y : Expansion Output} {walk walk' : Walk PUnit}

theorem nil : Writes I (Pure.pure .nil) (Pure.pure ⟨⟩) :=
  fun scopes _ => ⟨_, _, _, _, .pure _ scopes, nofun, rfl⟩

theorem write (output : Output) : Writes I (Pure.pure output) (write output) :=
  fun scopes _ => ⟨_, _, _, _, .write output scopes, nofun, rfl⟩

theorem throw (e : Error) : Writes I (MonadExcept.throw e) (MonadExcept.throw (.error e)) :=
  fun scopes _ => ⟨_, _, _, _, .throw _ scopes, nofun, rfl⟩

theorem fail (location : Location) (cause : Cause) :
    Writes I (Expansion.fail location cause) (fail location cause) :=
  throw _

theorem exhausted : Writes I Expansion.exhausted (MonadExcept.throw Stop.exhausted) :=
  fun scopes _ => ⟨_, _, _, _, .throw _ scopes, nofun, rfl⟩

theorem ite {c : Prop} [Decidable c] (h : Writes I x walk) (h' : Writes I y walk') :
    Writes I (if c then x else y) (if c then walk else walk') := by
  split
  · exact h
  · exact h'

theorem silent_bind {z : Expansion α} {f : α → Expansion Output} {g : α → Walk PUnit} (hz : Keeps I z)
    (hfg : ∀ a, Writes I (f a) (g a)) : Writes I (z >>= f) (silent z >>= g) := by
  intro scopes hscopes
  have hsilent := Does.silent z scopes
  rw [Expansion.bind_apply]
  cases hr : z scopes with
  | none =>
    rw [hr] at hsilent
    exact ⟨_, _, _, _, .bind_error g hsilent, nofun, rfl⟩
  | some pair =>
    obtain ⟨outcome, between⟩ := pair
    rw [hr] at hsilent
    cases outcome with
    | error e => exact ⟨_, _, _, _, .bind_error g hsilent, nofun, rfl⟩
    | ok a =>
      obtain ⟨result, after, output, visits, hdoes, hvisits, hx⟩ :=
        hfg a between (hz scopes hscopes _ between hr)
      exact ⟨result, after, output, visits, .bind hsilent hdoes, hvisits, hx⟩

/-- One walk after another, where the expansions give one output after the other. -/
theorem seq (hx : Keeps I x) (h : Writes I x walk) (h' : Writes I y walk') :
    Writes I (do let first ← x; let others ← y; Pure.pure (first ++ others)) (do walk; walk') := by
  intro scopes hscopes
  obtain ⟨result, between, output, visits, hdoes, hvisits, hrun⟩ := h scopes hscopes
  rw [Expansion.bind_apply, hrun]
  match result with
  | .error (.error e) => exact ⟨_, _, _, _, .bind_error _ hdoes, hvisits, rfl⟩
  | .error .exhausted => exact ⟨_, _, _, _, .bind_error _ hdoes, hvisits, rfl⟩
  | .ok _ =>
    obtain ⟨result', after, output', visits', hdoes', hvisits', hrun'⟩ :=
      h' between (hx scopes hscopes _ between hrun)
    have hboth : ∀ visit ∈ visits ++ visits', visit.scope + 1 = visit.count := fun visit hmem =>
      (List.mem_append.mp hmem).elim (hvisits visit) (hvisits' visit)
    refine ⟨result', after, _, _, .bind hdoes hdoes', hboth, ?_⟩
    show (y >>= fun others => Pure.pure (output ++ others)) between = _
    rw [Expansion.bind_apply, hrun']
    match result' with
    | .error (.error e) => rfl
    | .error .exhausted => rfl
    | .ok _ => rfl

theorem nested (location : Location) (h : Writes I x walk) :
    Writes I (Expansion.nested location x) (nested location walk) := by
  intro scopes hscopes
  obtain ⟨result, after, output, visits, hdoes, hvisits, hrun⟩ := h scopes hscopes
  refine ⟨result.mapError (Stop.within location), after, output, visits, fun out log => ?_, hvisits, ?_⟩
  · rw [Walk.nested, hdoes out log]
  · rw [Expansion.nested_apply, hrun]
    match result with
    | .error (.error e) => rfl
    | .error .exhausted => rfl
    | .ok _ => rfl

theorem begin {body : Nat → Walk PUnit} {id : Nat} (hI : ∀ scopes, I scopes → id + 1 = scopes.count)
    (h : Writes I x (body id)) : Writes I x (begin body id) := by
  intro scopes hscopes
  obtain ⟨result, after, output, visits, hdoes, hvisits, hrun⟩ := h scopes hscopes
  have hall : ∀ visit ∈ ⟨id, scopes.count⟩ :: visits, visit.scope + 1 = visit.count := fun visit hmem => by
    rcases List.mem_cons.mp hmem with rfl | hmem
    · exact hI scopes hscopes
    · exact hvisits visit hmem
  refine ⟨result, after, output, _, fun out log => ?_, hall, hrun⟩
  show body id ⟨scopes, out, log ++ [⟨id, scopes.count⟩]⟩ = _
  rw [hdoes, List.append_assoc]
  rfl

theorem inScope {body : Nat → Expansion Output} {body' : Nat → Walk PUnit}
    (h : ∀ older scope, Writes (Above older scope) (body older.count) (body' older.count))
    (inheritance : Inheritance) (parent : Nat) :
    Writes I (Expansion.inScope inheritance parent body) (inScope inheritance parent body') := by
  intro scopes _
  obtain ⟨result, after, output, visits, hdoes, hvisits, hrun⟩ := h scopes _ _ (.refl scopes _)
  refine ⟨result, after.release scopes.count, output, visits, fun out log => ?_, hvisits, ?_⟩
  · show (let (outcome, last) := body' scopes.count ⟨scopes.enter inheritance parent, out, log⟩
      (outcome, { last with scopes := last.scopes.release scopes.count })) = _
    rw [Scopes.enter, hdoes out log]
  · rw [Expansion.inScope, Scopes.enter, hrun]
    rcases result with (e | _) | _ <;> rfl

/-- A walk with an output of its own, which becomes the body of a block. -/
theorem block (header : Text) (h : Writes I x walk) :
    Writes I (do let body ← x; Pure.pure (.block header body .nil))
      (do let body ← collect walk; Walk.write (.block header body .nil)) := by
  intro scopes hscopes
  obtain ⟨result, after, output, visits, hdoes, hvisits, hrun⟩ := h scopes hscopes
  rw [Expansion.bind_apply, hrun]
  have hcollect : Does (collect walk) scopes (result.map fun _ => output) after .nil visits := by
    intro out log
    rw [collect, hdoes .nil log, Output.append_nil]
    cases result <;> rfl
  match result with
  | .error (.error e) => exact ⟨_, _, _, _, .bind_error _ hcollect, hvisits, rfl⟩
  | .error .exhausted => exact ⟨_, _, _, _, .bind_error _ hcollect, hvisits, rfl⟩
  | .ok _ =>
    refine ⟨_, _, _, _, .bind hcollect (.write _ after), fun visit hmem => ?_, rfl⟩
    rw [List.append_nil] at hmem
    exact hvisits visit hmem

end Writes

/-! ## The walk over lines -/

variable {run : Expander} {run' : Walker}

/-- A walker that writes what an expander gives. -/
def WritesAll (run : Expander) (run' : Walker) : Prop :=
  ∀ forest older scope, Writes (Above older scope) (run forest older.count) (run' forest older.count)

theorem writes_invoke (hrun : WritesAll run run') (location : Location) (mixin : Mixin) (values : Values)
    (older : Scopes) (scope : Scope) :
    Writes (Above older scope) (Expansion.invoke run location mixin values older.count)
      (invoke run' location mixin values older.count) := by
  refine .silent_bind (.ofCause location _) fun slots => ?_
  refine .silent_bind (Expansion.confined_binding mixin location slots older scope) fun _ => ?_
  exact .nested location (hrun mixin.body older scope)

theorem writes_callMixin (hrun : WritesAll run run') {I : Scopes → Prop} (inheritance : Inheritance)
    (line : Line) (below : Forest Line) (name : Text) (arguments : List Token) (id : Nat)
    (mixin? : Option Mixin) :
    Writes I (Expansion.callMixin inheritance run line below name arguments id mixin?)
      (callMixin inheritance run' line below name arguments id mixin?) := by
  cases mixin? with
  | none => exact .fail line.location _
  | some mixin =>
    refine .ite (.fail line.location _) (.silent_bind (.ask line.location _) fun values => ?_)
    refine .ite (.fail line.location _) ?_
    exact .inScope (writes_invoke hrun line.location mixin values) inheritance mixin.scope

theorem writes_walkAll (hrun : WritesAll run run') (hc : ∀ forest, Confined (run forest))
    (files : FileSystem) (paths : List Text) (older : Scopes) (scope : Scope) :
    Writes (Above older scope) (files.expandAll run older.count paths)
      (walkAll files run' older.count paths) := by
  induction paths with
  | nil => exact .nil
  | cons path rest ih =>
    refine .silent_bind (.ofExcept _) fun forest => ?_
    exact .seq (hc forest older scope) (hrun forest older scope) ih

theorem writes_importFiles (hrun : WritesAll run run') (hc : ∀ forest, Confined (run forest))
    (env : Environment) (line : Line) (pattern : Text) (older : Scopes) (scope : Scope) :
    Writes (Above older scope) (Expansion.importFiles env run older.count line pattern)
      (importFiles env run' older.count line pattern) := by
  rw [Expansion.importFiles, importFiles]
  rcases env.files.firstMatch (Path.candidates env.includePaths line.location.file pattern) with
    e | _ | ⟨path, paths⟩
  · exact .throw _
  · exact .fail line.location _
  · exact .nested line.location (writes_walkAll hrun hc env.files (path :: paths) older scope)

theorem writes_literal {I : Scopes → Prop} {inside : Nat → Expansion Output} {inside' : Nat → Walk PUnit}
    (hinside : ∀ older scope, Writes (Above older scope) (inside older.count) (inside' older.count))
    (inheritance : Inheritance) (line : Line) (below : Forest Line) (text : Text) (id : Nat) :
    Writes I (Expansion.literal inheritance inside line below text id)
      (literal inheritance inside' line below text id) := by
  refine .silent_bind (.ask line.location _) fun text => .ite (.write (.leaf text)) ?_
  exact .block text (.inScope hinside inheritance id)

theorem writes_assignment (line : Line) (below : Forest Line) (name value : Text) (older : Scopes)
    (scope : Scope) :
    Writes (Above older scope) (Expansion.assignment line below name value older.count)
      (assignment line below name value older.count) := by
  refine .ite (.fail line.location _) (.silent_bind (.ask line.location _) fun value => ?_)
  exact .silent_bind (.modify fun scopes h => h.setVariable name value) fun _ => .write _

theorem writes_declaration (above : List Line) (line : Line) (below : Forest Line) (name : Text)
    (arguments : List Token) (older : Scopes) (scope : Scope) :
    Writes (Above older scope) (Expansion.declaration above line below name arguments older.count)
      (declaration above line below name arguments older.count) := by
  refine .silent_bind (.ofCause line.location _) fun parameters => ?_
  exact .silent_bind (.modify fun scopes h => h.setMixin rfl) fun _ => .nil

theorem writes_walkLine (hrun : WritesAll run run') (hc : ∀ forest, Confined (run forest))
    {inside : Nat → Expansion Output} {inside' : Nat → Walk PUnit}
    (hinside : ∀ older scope, Writes (Above older scope) (inside older.count) (inside' older.count))
    (env : Environment) (above : List Line) (line : Line) (below : Forest Line) (older : Scopes)
    (scope : Scope) :
    Writes (Above older scope) (env.expandLine run inside above line below older.count)
      (env.walkLine run' inside' above line below older.count) := by
  rw [Expansion.expandLine_eq, Environment.walkLine]
  cases line.statement with
  | error e => exact .fail line.location _
  | ok statement =>
    cases statement with
    | comment text => exact hinside older scope
    | literal text => exact writes_literal hinside env.inheritance line below text older.count
    | assignment name value => exact writes_assignment line below name value older scope
    | declaration name arguments => exact writes_declaration above line below name arguments older scope
    | call name arguments =>
      refine .ite ?_ ?_
      · rw [Expansion.expandImport_eq]
        refine .ite (.fail line.location _) (.silent_bind (.ask line.location _) fun pattern => ?_)
        exact writes_importFiles hrun hc env line pattern older scope
      · rw [Expansion.expandCall_eq]
        refine .silent_bind (.reading _) fun mixin? => ?_
        exact writes_callMixin hrun env.inheritance line below name arguments older.count mixin?

theorem writes_walkForest (hrun : WritesAll run run') (hc : ∀ forest, Confined (run forest))
    (env : Environment) (above : List Line) (forest : Forest Line) (older : Scopes) (scope : Scope) :
    Writes (Above older scope) (env.expandForest run above forest older.count)
      (env.walkForest run' above forest older.count) := by
  induction forest generalizing above older scope with
  | nil => exact .nil
  | cons line below next ihBelow ihNext =>
    have hinside : ∀ older scope, Writes (Above older scope) (env.expandForest run [] below older.count)
        (begin (env.walkForest run' [] below) older.count) := fun older scope =>
      .begin (fun _ h => h.newest) (ihBelow [] older scope)
    have hline := writes_walkLine hrun hc hinside env above line below older scope
    have hkeeps := Expansion.confined_expandLine hc (Expansion.confined_expandForest hc env [] below) env above
      line below older scope
    exact .seq hkeeps hline (ihNext (line :: above) older scope)

/-- The walk over a forest begins every forest in the newest scope and writes what the expansion gives,
however deeply calls and imports are nested. -/
theorem writes_walk (env : Environment) (depth : Nat) : WritesAll (env.expand depth) (env.walk depth) := by
  induction depth with
  | zero =>
    intro forest older scope
    rw [Environment.expand, Environment.walk]
    exact .begin (fun _ h => h.newest) .exhausted
  | succ depth ih =>
    intro forest older scope
    rw [Environment.expand, Environment.walk]
    refine .begin (fun _ h => h.newest) ?_
    exact writes_walkForest ih (Expansion.confined_expand env depth) env [] forest older scope

end Walk

/-! ## What is left of the scopes -/

/-- Nothing has changed but scope `id`, and that has only gained bindings. -/
structure Scopes.GrownAt (id : Nat) (before after : Scopes) : Prop where
  count : after.count = before.count
  others : ∀ other, other ≠ id → after.scope? other = before.scope? other
  own : ∃ scope grown, before.scope? id = some scope ∧ after.scope? id = some grown ∧ scope.Extends id grown

theorem Expansion.Above.grownAt {older after : Scopes} {scope : Scope} (h : Above older scope after) :
    (older.push scope).GrownAt older.count after := by
  obtain ⟨grown, rfl, hgrown⟩ := h
  refine ⟨rfl, fun other hother => ?_, scope, grown, ?_, ?_, hgrown⟩
  · rw [Scopes.scope?_push, Scopes.scope?_push, if_neg hother, if_neg hother]
  · rw [Scopes.scope?_push, if_pos rfl]
  · rw [Scopes.scope?_push, if_pos rfl]

/-- A literal or a call of a mixin: a line that binds nothing where it stands. -/
def Statement.bindsNothing : Statement → Bool
  | literal _ => true
  | call name _ => name ≠ importName
  | _ => false

theorem Expansion.keeps_bindsNothing {I : Scopes → Prop} (hI : ∀ scopes, I scopes → 0 < scopes.count)
    {run : Expander} (hrun : ∀ forest, Confined (run forest)) {inside : Nat → Expansion Output}
    (hinside : Confined inside) (env : Environment) (above : List Line) {line : Line} (below : Forest Line)
    (id : Nat) {statement : Statement} (hline : line.statement = .ok statement)
    (h : statement.bindsNothing = true) : Keeps I (env.expandLine run inside above line below id) := by
  rw [expandLine_eq, hline]
  cases statement with
  | literal text => exact keeps_literal hI hinside env.inheritance line below text id
  | call name arguments =>
    have hname : name ≠ importName := of_decide_eq_true h
    simp only [hname, if_false]
    exact keeps_expandCall hrun hI env line below name arguments id
  | comment | assignment | declaration => cases h

/-- A walk over a forest in the newest scope, whatever the order of scopes, the lines and the depth of
calls and imports. It appends to the output, and what it appends does not depend on what was there; every
forest on the way is begun in the newest scope; and it agrees with the expansion. When it has ended, well or
not, the scopes are the same as before but for new bindings in its own scope, and a literal or a call of a
mixin has left even that one as it was. -/
theorem walkForest_discipline (env : Environment) (depth : Nat) (above : List Line) (forest : Forest Line)
    {id : Nat} {scopes : Scopes} (hordered : scopes.Ordered) (hnewest : id + 1 = scopes.count) :
    ∃ result after output visits,
      (∀ out log, env.walkForest (env.walk depth) above forest id ⟨scopes, out, log⟩ =
        (result, ⟨after, out ++ output, log ++ visits⟩)) ∧
      (∀ visit ∈ visits, visit.scope + 1 = visit.count) ∧
      env.expandForest (env.expand depth) above forest id scopes = Walk.asExpansion result output after ∧
      (result ≠ .error .exhausted → after.Ordered ∧ scopes.GrownAt id after ∧
        ∀ line below statement, forest = .cons line below .nil → line.statement = .ok statement →
          statement.bindsNothing = true → after = scopes) := by
  obtain ⟨older, scope, rfl, rfl⟩ := Scopes.eq_push_of_newest hnewest
  have hconfined := Expansion.confined_expand env depth
  obtain ⟨result, after, output, visits, hdoes, hvisits, hrun⟩ :=
    Walk.writes_walkForest (Walk.writes_walk env depth) hconfined env above forest older scope _
      (.refl older scope)
  refine ⟨result, after, output, visits, hdoes, hvisits, hrun, fun hended => ?_⟩
  obtain ⟨outcome, houtcome⟩ := Walk.asExpansion_eq_some output after hended
  rw [houtcome] at hrun
  have hafter : Expansion.Above older scope after :=
    Expansion.confined_expandForest hconfined env above forest older scope _ (.refl older scope) _ _ hrun
  refine ⟨?_, hafter.grownAt, ?_⟩
  · obtain ⟨grown, rfl, hgrown⟩ := hafter
    exact hordered.push_extends hgrown
  · rintro line below statement rfl hline hstatement
    have hpos : ∀ scopes, scopes = older.push scope → 0 < scopes.count := by
      rintro _ rfl
      exact Nat.succ_pos _
    have hinside := Expansion.confined_expandForest hconfined env [] below
    have hkeeps : Expansion.Keeps (· = older.push scope)
        (env.expandForest (env.expand depth) above (.cons line below .nil) older.count) := by
      refine .bind ?_ fun here => .bind (.pure _) fun rest => .pure (here ++ rest)
      exact Expansion.keeps_bindsNothing hpos hconfined hinside env above below older.count hline hstatement
    exact hkeeps _ rfl _ _ hrun

/-- A block that fails, inside another block, at a line whose variable has no value: the scopes are as
before. -/
theorem walkForest_discipline_failing_block :
    let header : Line := ⟨⟨['f'], 1⟩, 0, ['a']⟩
    let failing : Line := ⟨⟨['f'], 2⟩, 2, ['$', 'v']⟩
    let forest : Forest Line := .cons header (.cons failing .nil .nil) .nil
    let env : Environment := { files := Files.system [] }
    let scopes := Scopes.initial.enter .copied 0
    let error := Error.located failing.location (.template (.unknownVariable ['v']))
    scopes.Ordered ∧ 1 + 1 = scopes.count ∧
      ∃ output visits, ∀ out log, env.walkForest (env.walk 1) [] forest 1 ⟨scopes, out, log⟩ =
        (.error (.error error), ⟨scopes, out ++ output, log ++ visits⟩) := by
  intro header failing forest env scopes error
  have hordered : scopes.Ordered := Scopes.ordered_initial.enter .copied (by decide)
  have hnewest : 1 + 1 = scopes.count := rfl
  have hexpansion : env.expandForest (env.expand 1) [] forest 1 scopes = some (.error error, scopes) :=
    rfl
  obtain ⟨result, after, output, visits, hwalk, -, heq, -⟩ :=
    walkForest_discipline env 1 [] forest hordered hnewest
  rw [hexpansion] at heq
  match result with
  | .ok _ => cases heq
  | .error .exhausted => cases heq
  | .error (.error e) =>
    cases heq
    exact ⟨hordered, hnewest, output, visits, hwalk⟩

end Scl
