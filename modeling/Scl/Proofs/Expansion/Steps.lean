import Mathlib.Logic.Relation
import Scl.Proofs.Expansion.Confinement
import Scl.Proofs.Expansion.Outcome
import Scl.Proofs.Line.Reading

/-!
# Expansion step by step

An expansion goes from point to point: past a line, into the forest below a comment or a literal, into the
body of a mixin, into an imported file. `Environment.Reaches` says that it gets from one point to another,
with the scopes that it has there.

`Environment.Invariant` is a property of points that every step keeps, together with one of the mixins that
are declared at them. Then every mixin that a scope binds has the property, and so has every point that is
reached:

* `Environment.Invariant.holding_expand`: an expansion binds only such mixins, whatever its outcome;
* `Environment.Invariant.reaches`: any number of steps keeps the invariant.

One invariant is that the forest is part of a file, and that every mixin was declared by a line of a file
(`Environment.Reaches.sound`).
-/

namespace Scl

/-! ## Trees of files -/

namespace FileSystem

/-- `line` is a line of some file, with the forest `below` it. -/
def Holds (files : FileSystem) (line : Line) (below : Forest Line) : Prop :=
  ∃ forest, files.load line.location.file = .ok forest ∧ forest.Has line below

/-- A forest that is part of a file. -/
def HoldsAll (files : FileSystem) (forest : Forest Line) : Prop :=
  ∀ line below, forest.Has line below → files.Holds line below

variable {files : FileSystem} {path : Text} {forest : Forest Line}

theorem load_eq_ok (h : files.load path = .ok forest) :
    ∃ source lines, files.read path = .ok source ∧ Line.readAll path source = .ok lines ∧
      forest = Line.layout lines := by
  rw [load] at h
  split at h
  · cases h
  · rename_i source hsource
    split at h
    · cases h
    · rename_i scanned hscan
      cases h
      obtain ⟨lines, hlines, rfl⟩ := Except.map_eq_ok hscan
      exact ⟨source, lines, hsource, hlines, rfl⟩

/-- The lines of a file are in the order of their source lines, and know the file. -/
theorem load_inOrder (h : files.load path = .ok forest) :
    ∃ high, Line.InOrder path 1 high forest.preorder := by
  obtain ⟨source, lines, -, hlines, rfl⟩ := load_eq_ok h
  rw [Line.layout, Forest.preorder_layout]
  exact ⟨_, Line.readFrom_inOrder hlines⟩

theorem file_of_mem_load (h : files.load path = .ok forest) {line : Line} (hline : line ∈ forest.preorder) :
    line.location.file = path := by
  obtain ⟨high, hordered⟩ := load_inOrder h
  exact hordered.file line hline

theorem holdsAll_load (h : files.load path = .ok forest) : files.HoldsAll forest := by
  intro line below hhas
  have hfile := file_of_mem_load h hhas.mem_preorder
  exact ⟨forest, hfile ▸ h, hhas⟩

theorem Holds.holdsAll {line : Line} {below : Forest Line} (h : files.Holds line below) :
    files.HoldsAll below := by
  obtain ⟨forest, hload, hhas⟩ := h
  exact fun other below' hother => holdsAll_load hload other below' (hhas.trans hother)

theorem HoldsAll.below {line : Line} {below next : Forest Line} (h : files.HoldsAll (.cons line below next)) :
    files.HoldsAll below :=
  fun other below' hother => h other below' (.inside hother)

theorem HoldsAll.next {line : Line} {below next : Forest Line} (h : files.HoldsAll (.cons line below next)) :
    files.HoldsAll next :=
  fun other below' hother => h other below' (.later hother)

end FileSystem

/-! ## Declared mixins -/

/-- A mixin that a line of a file declares. -/
structure Mixin.Declared (files : FileSystem) (mixin : Mixin) : Prop where
  holds : files.Holds mixin.declaration mixin.body
  statement : ∃ arguments, mixin.declaration.statement = .ok (.declaration mixin.name arguments)

/-- Scope `id` is the newest one, and every name of a mixin stands for one that was declared so. -/
structure Scopes.Sound (files : FileSystem) (id : Nat) (scopes : Scopes) : Prop where
  newest : id + 1 = scopes.count
  mixin {other : Nat} {name : Text} {mixin : Mixin} :
    scopes.mixin? other name = some mixin → mixin.name = name ∧ mixin.Declared files

/-! ## Points of an expansion -/

/-- A forest to be expanded next. -/
structure Point where
  /-- The roots before it, with the last one first. -/
  above : List Line := []
  forest : Forest Line
  /-- The scope to expand it in. -/
  id : Nat
  scopes : Scopes

namespace Environment

variable (env : Environment)

/-- The expansion of a line succeeds and leaves the scopes `after`. -/
def Passes (above : List Line) (line : Line) (below : Forest Line) (id : Nat) (scopes after : Scopes) : Prop :=
  ∃ depth output, env.expandLine (env.expand depth) (env.expandForest (env.expand depth) [] below) above line
    below id scopes = some (.ok output, after)

/-- The expansion of files succeeds and leaves the scopes `after`. -/
def PassesAll (paths : List Text) (id : Nat) (scopes after : Scopes) : Prop :=
  ∃ depth output, env.files.expandAll (env.expand depth) id paths scopes = some (.ok output, after)

/-- An import resolves to files: its pattern can be filled in, and these are the matches. -/
def Resolves (line : Line) (id : Nat) (scopes : Scopes) (paths : List Text) : Prop :=
  ∃ arguments pattern, line.statement = .ok (.call importName arguments) ∧
    scopes.importPattern id arguments = .ok pattern ∧
    env.files.firstMatch (Path.candidates env.includePaths line.location.file pattern) = .ok paths

/-- A call finds a mixin that takes as many values as it gives, and binds the parameters, which leaves the scopes
`bound`. -/
def Invokes (line : Line) (id : Nat) (scopes : Scopes) (mixin : Mixin) (bound : Scopes) : Prop :=
  ∃ name arguments values slots, line.statement = .ok (.call name arguments) ∧ name ≠ importName ∧
    scopes.mixin? id name = some mixin ∧ scopes.evaluate id (Argument.group arguments) = .ok values ∧
    mixin.takes values.count ∧ mixin.slots values = .ok slots ∧
    Scopes.bind mixin line.location scopes.count slots (scopes.enter env.inheritance mixin.scope) = .ok bound

/-- From one point to the next within a forest. -/
inductive Advance : Point → Point → Prop
  | next {above : List Line} {line : Line} {below next : Forest Line} {id : Nat} {scopes after : Scopes} :
    env.Passes above line below id scopes after →
    Advance ⟨above, .cons line below next, id, scopes⟩ ⟨line :: above, next, id, after⟩
  | comment {above : List Line} {line : Line} {below next : Forest Line} {id : Nat} {scopes : Scopes}
    {text : Text} : line.statement = .ok (.comment text) →
    Advance ⟨above, .cons line below next, id, scopes⟩ ⟨[], below, id, scopes⟩
  | block {above : List Line} {line : Line} {below next : Forest Line} {id : Nat} {scopes : Scopes}
    {text filled : Text} : line.statement = .ok (.literal text) → scopes.fill id text = .ok filled →
    Advance ⟨above, .cons line below next, id, scopes⟩
      ⟨[], below, scopes.count, scopes.enter env.inheritance id⟩

/-- From a line to the forest that it calls or imports. -/
inductive Enter (line : Line) : Point → Point → Prop
  | call {above : List Line} {next : Forest Line} {id : Nat} {scopes bound : Scopes} {mixin : Mixin} :
    env.Invokes line id scopes mixin bound →
    Enter line ⟨above, .cons line .nil next, id, scopes⟩ ⟨[], mixin.body, scopes.count, bound⟩
  | file {above : List Line} {next : Forest Line} {id : Nat} {scopes after : Scopes} {before rest : List Text}
    {path : Text} {forest : Forest Line} : env.Resolves line id scopes (before ++ path :: rest) →
    env.PassesAll before id scopes after → env.files.load path = .ok forest →
    Enter line ⟨above, .cons line .nil next, id, scopes⟩ ⟨[], forest, id, after⟩

/-- One step of an expansion. -/
def Step (p q : Point) : Prop :=
  env.Advance p q ∨ ∃ line, env.Enter line p q

/-- An expansion gets from one point to another. -/
def Reaches : Point → Point → Prop :=
  Relation.ReflTransGen env.Step

end Environment

/-! ## Mixins that scopes hold -/

/-- Scope `id` is the newest one, and every name of a mixin stands for one of that name with a property. -/
structure Scopes.Holding (Q : Mixin → Prop) (id : Nat) (scopes : Scopes) : Prop where
  newest : id + 1 = scopes.count
  mixin {other : Nat} {name : Text} {mixin : Mixin} :
    scopes.mixin? other name = some mixin → mixin.name = name ∧ Q mixin

namespace Scopes.Holding

variable {Q : Mixin → Prop} {id : Nat} {scopes : Scopes}

theorem pos (h : Holding Q id scopes) : 0 < scopes.count := by
  have := h.newest
  omega

theorem enter (h : Holding Q id scopes) (inheritance : Inheritance) (parent : Nat) :
    Holding Q scopes.count (scopes.enter inheritance parent) := by
  refine ⟨rfl, fun {other name mixin} hmixin => ?_⟩
  rw [mixin?_enter] at hmixin
  split at hmixin
  · exact h.mixin hmixin
  · exact h.mixin hmixin

theorem setVariable (h : Holding Q id scopes) (name value : Text) :
    Holding Q id (scopes.setVariable id name value) := by
  refine ⟨h.newest, fun {other bound mixin} hmixin => ?_⟩
  rw [mixin?_setVariable h.newest] at hmixin
  exact h.mixin hmixin

theorem setMixin (h : Holding Q id scopes) {mixin : Mixin} (hmixin : Q mixin) :
    Holding Q id (scopes.setMixin id mixin) := by
  refine ⟨h.newest, fun {other name found} hfound => ?_⟩
  rw [mixin?_setMixin h.newest] at hfound
  split at hfound
  · rename_i heq
    cases hfound
    exact ⟨heq.2, hmixin⟩
  · exact h.mixin hfound

theorem ofParams (Q : Mixin → Prop) (params : List (Text × Text)) : Holding Q rootId (ofParams params) := by
  have hfold : ∀ scopes, Holding Q rootId scopes → Holding Q rootId
      (params.foldl (fun scopes param => scopes.setVariable rootId param.1 param.2) scopes) := by
    induction params with
    | nil => exact fun scopes h => h
    | cons param rest ih => exact fun scopes h => ih _ (h.setVariable param.1 param.2)
  have hnone : ∀ other name, initial.mixin? other name = none := by
    intro other name
    rw [initial, mixin?, look_push]
    split <;> rfl
  refine hfold initial ⟨rfl, fun {other name mixin} h => ?_⟩
  rw [hnone] at h
  cases h

end Scopes.Holding

/-! ## Invariants -/

namespace Environment

open Expansion

/-- A property `R` of points that steps keep, as long as every mixin has the property `Q`, which those have
that are declared at points with the property `R`. -/
structure Invariant (env : Environment) (R : Point → Prop) (Q : Mixin → Prop) : Prop where
  step {p q : Point} : R p → p.scopes.Holding Q p.id → env.Step p q → q.scopes.Holding Q q.id → R q
  declared {above : List Line} {line : Line} {below next : Forest Line} {id : Nat} {scopes : Scopes}
    {name : Text} {arguments : List Token} {parameters : List Parameter} :
    R ⟨above, .cons line below next, id, scopes⟩ → line.statement = .ok (.declaration name arguments) →
    Parameter.declared arguments = .ok parameters → Q (declared above line below name parameters id)

/-- From points with the property `R`, scopes go on to hold mixins with the property `Q`. -/
def HoldsOn (R : Point → Prop) (Q : Mixin → Prop) (run : Expander) : Prop :=
  ∀ ⦃forest id scopes result after⦄, R ⟨[], forest, id, scopes⟩ → scopes.Holding Q id →
    run forest id scopes = some (result, after) → after.Holding Q id

namespace Invariant

variable {env : Environment} {R : Point → Prop} {Q : Mixin → Prop} {depth : Nat} {above : List Line}
  {line : Line} {below next : Forest Line} {id : Nat} {scopes : Scopes}

/-- Files in the middle of those that an import resolves to, after the ones before them. -/
theorem holding_expandAll (h : env.Invariant R Q) (hrun : HoldsOn R Q (env.expand depth))
    (hpoint : R ⟨above, .cons line .nil next, id, scopes⟩) (hscopes : scopes.Holding Q id)
    {before paths later : List Text} (hresolves : env.Resolves line id scopes (before ++ paths ++ later))
    {output : Output} {between : Scopes}
    (hbefore : env.files.expandAll (env.expand depth) id before scopes = some (.ok output, between))
    (hbetween : between.Holding Q id) {result : Except Error Output} {after : Scopes}
    (hpaths : env.files.expandAll (env.expand depth) id paths between = some (result, after)) :
    after.Holding Q id := by
  induction paths generalizing before output between result with
  | nil =>
    cases hpaths
    exact hbetween
  | cons path rest ih =>
    cases hload : env.files.load path with
    | error e =>
      rw [expandAll_error hload] at hpaths
      cases hpaths
      exact hbetween
    | ok forest =>
      have hresolves' : env.Resolves line id scopes (before ++ path :: (rest ++ later)) := by
        rwa [List.append_assoc] at hresolves
      have hpoint' : R ⟨[], forest, id, between⟩ :=
        h.step hpoint hscopes (.inr ⟨line, .file hresolves' ⟨depth, output, hbefore⟩ hload⟩) hbetween
      rw [expandAll_cons hload] at hpaths
      rcases bind_eq_some hpaths with ⟨e, hfirst⟩ | ⟨first, middle, hfirst, hothers⟩
      · exact hrun hpoint' hbetween hfirst
      · have hlonger := expandAll_snoc hbefore hload hfirst
        have hmiddle := hrun hpoint' hbetween hfirst
        rw [List.append_cons] at hresolves
        rcases bind_eq_some hothers with ⟨e, hrest⟩ | ⟨others, last, hrest, hpure⟩
        · exact ih hresolves hlonger hmiddle hrest
        · cases hpure
          exact ih hresolves hlonger hmiddle hrest

theorem holding_expandImport (h : env.Invariant R Q) (hrun : HoldsOn R Q (env.expand depth))
    (hpoint : R ⟨above, .cons line below next, id, scopes⟩) (hscopes : scopes.Holding Q id)
    {arguments : List Token} (hline : line.statement = .ok (.call importName arguments))
    {result : Except Error Output} {after : Scopes}
    (himport : env.expandImport (env.expand depth) line below arguments id scopes = some (result, after)) :
    after.Holding Q id := by
  rw [expandImport_eq] at himport
  split at himport
  · cases himport
    exact hscopes
  · rename_i hbelow
    obtain rfl := eq_nil_of_not_isEmpty hbelow
    rcases bind_eq_some himport with ⟨e, hask⟩ | ⟨pattern, between, hask, hfiles⟩
    · exact Keeps.ask line.location _ scopes hscopes _ _ hask
    · obtain ⟨hpattern, rfl⟩ := ask_eq_ok hask
      rw [importFiles] at hfiles
      rcases hpaths : env.files.firstMatch (Path.candidates env.includePaths line.location.file pattern) with
        error | _ | ⟨path, others⟩ <;> rw [hpaths] at hfiles
      · cases hfiles
        exact hscopes
      · cases hfiles
        exact hscopes
      · have hall : ∃ inner, env.files.expandAll (env.expand depth) id (path :: others) between =
            some (inner, after) := by
          cases result with
          | ok output => exact ⟨_, nested_eq_ok hfiles⟩
          | error e =>
            obtain ⟨inner, hinner, -⟩ := nested_eq_error hfiles
            exact ⟨_, hinner⟩
        obtain ⟨inner, hall⟩ := hall
        have hresolves : env.Resolves line id between ([] ++ path :: others ++ []) := by
          rw [List.nil_append, List.append_nil]
          exact ⟨arguments, pattern, hline, hpattern, hpaths⟩
        exact h.holding_expandAll hrun hpoint hscopes hresolves rfl hscopes hall

theorem holding_expandLine (h : env.Invariant R Q) (hrun : HoldsOn R Q (env.expand depth))
    (hinside : ∀ {result after}, R ⟨[], below, id, scopes⟩ →
      env.expandForest (env.expand depth) [] below id scopes = some (result, after) → after.Holding Q id)
    (hpoint : R ⟨above, .cons line below next, id, scopes⟩) (hscopes : scopes.Holding Q id)
    {result : Except Error Output} {after : Scopes}
    (hexpand : env.expandLine (env.expand depth) (env.expandForest (env.expand depth) [] below) above line below
      id scopes = some (result, after)) : after.Holding Q id := by
  have hpos : ∀ scopes, Scopes.Holding Q id scopes → 0 < scopes.count := fun _ => Scopes.Holding.pos
  rw [expandLine_eq] at hexpand
  match hline : line.statement with
  | .error e =>
    rw [hline] at hexpand
    cases hexpand
    exact hscopes
  | .ok (.comment text) =>
    rw [hline] at hexpand
    exact hinside (h.step hpoint hscopes (.inl (.comment hline)) hscopes) hexpand
  | .ok (.literal text) =>
    rw [hline] at hexpand
    have hconfined := confined_expandForest (confined_expand env depth) env [] below
    exact keeps_literal hpos hconfined env.inheritance line below text id scopes hscopes _ _ hexpand
  | .ok (.assignment name value) =>
    rw [hline] at hexpand
    have hkeeps : Keeps (Scopes.Holding Q id) (assignment line below name value id) := by
      refine .ite (.fail line.location _) (.bind (.ask line.location _) fun value => ?_)
      exact .bind (.modify fun scopes h => h.setVariable name value) fun _ => .pure _
    exact hkeeps scopes hscopes _ _ hexpand
  | .ok (.declaration name arguments) =>
    rw [hline] at hexpand
    have hkeeps : Keeps (Scopes.Holding Q id) (declaration above line below name arguments id) := by
      refine .bind_ofCause fun parameters hparameters => ?_
      have hmixin := h.declared hpoint hline (Except.mapError_eq_ok.mp hparameters)
      exact .bind (.modify fun scopes hholding => hholding.setMixin hmixin) fun _ => .pure Output.nil
    exact hkeeps scopes hscopes _ _ hexpand
  | .ok (.call name arguments) =>
    rw [hline] at hexpand
    by_cases hname : name = importName
    · subst hname
      exact h.holding_expandImport hrun hpoint hscopes hline (by simpa using hexpand)
    · simp only [hname, if_false] at hexpand
      exact keeps_expandCall (confined_expand env depth) hpos env line below name arguments id scopes hscopes _ _
        hexpand

theorem holding_expandForest (h : env.Invariant R Q) (hrun : HoldsOn R Q (env.expand depth)) {forest : Forest Line}
    (hpoint : R ⟨above, forest, id, scopes⟩) (hscopes : scopes.Holding Q id) {result : Except Error Output}
    {after : Scopes} (hexpand : env.expandForest (env.expand depth) above forest id scopes = some (result, after)) :
    after.Holding Q id := by
  induction forest generalizing above id scopes result after with
  | nil =>
    cases hexpand
    exact hscopes
  | cons line below next ihBelow ihNext =>
    have hline : ∀ {result after}, env.expandLine (env.expand depth) (env.expandForest (env.expand depth) [] below)
        above line below id scopes = some (result, after) → after.Holding Q id :=
      h.holding_expandLine hrun (fun hbelow => ihBelow hbelow hscopes) hpoint hscopes
    rcases bind_eq_some hexpand with ⟨e, hfails⟩ | ⟨here, between, hpasses, hrest⟩
    · exact hline hfails
    · have hnext := h.step hpoint hscopes (.inl (.next ⟨depth, here, hpasses⟩)) (hline hpasses)
      rcases bind_eq_some hrest with ⟨e, hfails⟩ | ⟨rest, last, hrest, hpure⟩
      · exact ihNext hnext (hline hpasses) hfails
      · cases hpure
        exact ihNext hnext (hline hpasses) hrest

/-- Scopes hold the mixins of an invariant after an expansion, whatever its outcome and however deeply calls and
imports are nested. -/
theorem holding_expand (h : env.Invariant R Q) (depth : Nat) : HoldsOn R Q (env.expand depth) := by
  induction depth with
  | zero => exact fun _ _ _ _ _ _ _ hexpand => nomatch hexpand
  | succ depth ih =>
    intro forest id scopes result after hpoint hscopes hexpand
    exact h.holding_expandForest ih hpoint hscopes hexpand

/-- So do the scopes at the end of a step. -/
theorem holding_step (h : env.Invariant R Q) {p q : Point} (hpoint : R p) (hscopes : p.scopes.Holding Q p.id)
    (hstep : env.Step p q) : q.scopes.Holding Q q.id := by
  obtain hadvance | ⟨line, henter⟩ := hstep
  · cases hadvance with
    | next hpasses =>
      obtain ⟨depth, output, hexpand⟩ := hpasses
      have hrun := h.holding_expand depth
      exact h.holding_expandLine hrun (fun hbelow => h.holding_expandForest hrun hbelow hscopes) hpoint hscopes hexpand
    | comment _ => exact hscopes
    | @block _ _ _ _ id _ _ _ _ _ => exact hscopes.enter env.inheritance id
  · cases henter with
    | @call _ _ _ _ _ mixin hinvokes =>
      obtain ⟨name, arguments, values, slots, -, -, -, -, -, -, hbound⟩ := hinvokes
      refine bind_keeps ?_ (hscopes.enter env.inheritance mixin.scope) hbound
      exact fun scopes name value hholding => hholding.setVariable name value
    | @file _ _ id scopes _ before rest path _ hresolves hbefore _ =>
      obtain ⟨depth, output, hbefore⟩ := hbefore
      have hresolves' : env.Resolves line id scopes ([] ++ before ++ path :: rest) := hresolves
      exact h.holding_expandAll (h.holding_expand depth) hpoint hscopes hresolves' rfl hscopes hbefore

/-- A step keeps an invariant, with what the scopes hold. -/
theorem keeps (h : env.Invariant R Q) {p q : Point} (hpoint : R p) (hscopes : p.scopes.Holding Q p.id)
    (hstep : env.Step p q) : R q ∧ q.scopes.Holding Q q.id :=
  have hnext := h.holding_step hpoint hscopes hstep
  ⟨h.step hpoint hscopes hstep hnext, hnext⟩

/-- Any number of steps keeps an invariant. -/
theorem reaches (h : env.Invariant R Q) {p q : Point} (hreaches : env.Reaches p q) (hpoint : R p)
    (hscopes : p.scopes.Holding Q p.id) : R q ∧ q.scopes.Holding Q q.id := by
  induction hreaches with
  | refl => exact ⟨hpoint, hscopes⟩
  | tail _ hstep ih => exact h.keeps ih.1 ih.2 hstep

end Invariant

end Environment

/-- The forest is part of a file, and the scopes are sound. -/
structure Point.Sound (files : FileSystem) (point : Point) : Prop where
  forest : files.HoldsAll point.forest
  scopes : point.scopes.Sound files point.id

theorem Scopes.sound_iff {files : FileSystem} {id : Nat} {scopes : Scopes} :
    scopes.Sound files id ↔ scopes.Holding (Mixin.Declared files) id :=
  ⟨fun h => ⟨h.newest, h.mixin⟩, fun h => ⟨h.newest, h.mixin⟩⟩

theorem Scopes.Sound.ofParams (files : FileSystem) (params : List (Text × Text)) :
    Sound files rootId (ofParams params) :=
  sound_iff.mpr (.ofParams _ params)

namespace Environment

variable {env : Environment} {p q : Point}

/-- Forests that are parts of files, and mixins that lines of files declare. -/
theorem invariant_holdsAll (env : Environment) :
    env.Invariant (fun p => env.files.HoldsAll p.forest) (Mixin.Declared env.files) where
  step := by
    rintro p q hforest hscopes (hadvance | ⟨line, henter⟩) -
    · cases hadvance with
      | next _ => exact hforest.next
      | comment _ => exact hforest.below
      | block _ _ => exact hforest.below
    · cases henter with
      | call hinvokes =>
        obtain ⟨name, arguments, values, slots, -, -, hmixin, -⟩ := hinvokes
        exact (hscopes.mixin hmixin).2.holds.holdsAll
      | file _ _ hload => exact FileSystem.holdsAll_load hload
  declared := fun hforest hline _ => ⟨hforest _ _ .here, _, hline⟩

theorem Step.sound (h : env.Step p q) (hp : p.Sound env.files) : q.Sound env.files := by
  obtain ⟨hforest, hscopes⟩ := env.invariant_holdsAll.keeps hp.forest (Scopes.sound_iff.mp hp.scopes) h
  exact ⟨hforest, Scopes.sound_iff.mpr hscopes⟩

theorem Advance.sound (h : env.Advance p q) (hp : p.Sound env.files) : q.Sound env.files :=
  Step.sound (.inl h) hp

theorem Enter.sound {line : Line} (h : env.Enter line p q) (hp : p.Sound env.files) : q.Sound env.files :=
  Step.sound (.inr ⟨line, h⟩) hp

theorem Reaches.sound (h : env.Reaches p q) (hp : p.Sound env.files) : q.Sound env.files := by
  induction h with
  | refl => exact hp
  | tail _ hstep ih => exact hstep.sound ih

end Environment

end Scl
