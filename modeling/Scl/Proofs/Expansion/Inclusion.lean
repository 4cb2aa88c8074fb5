import Mathlib.Order.Filter.AtTopBot.Basic
import Scl.Proofs.Expansion.Outcome
import Scl.Proofs.File.Order
import Scl.Proofs.Forest.Layout
import Scl.Proofs.Scope.Lockstep
import Scl.Proofs.Statement.Location

/-!
# Importing and including

A file that is imported and the same lines written in place of the import expand to the same output. The two
expansions are nested differently and name different locations in their errors, so that only successful ones
are compared, and whatever succeeds at some depth has to succeed on the other side at all great enough depths.

* `Included`: forests that differ in where their lines stand, and in imports that one of them has written out;
* `Carries`: a computation whose successes another one repeats, with a rule for each way to put them together;
* `carries_expand`: the expansions of such forests.
-/

namespace Scl

open Filter (atTop eventually_atTop)

/-- Lines of the same content in files of the same directory. -/
structure Line.Moved (line line' : Line) : Prop where
  content : line.content = line'.content
  directory : Path.parent line.location.file = Path.parent line'.location.file

/-- A line imports a single file, with the lines `forest`, in whatever scope it stands. -/
def Environment.Imports (env : Environment) (line : Line) (forest : Forest Line) : Prop :=
  ∃ arguments pattern path, line.statement = .ok (.call importName arguments) ∧
    (∀ (scopes : Scopes) (id : Nat), scopes.importPattern id arguments = .ok pattern) ∧
    env.files.firstMatch (Path.candidates env.includePaths line.location.file pattern) = .ok [path] ∧
    env.files.load path = .ok forest

/-- Forests of the same lines, where either may have an import at top level in place of which the other has the
lines of the file. -/
inductive Included (env env' : Environment) : Forest Line → Forest Line → Prop
  | nil : Included env env' .nil .nil
  | cons {line line' : Line} {below below' next next' : Forest Line} : line.Moved line' →
    below.Rel Line.Moved below' → Included env env' next next' →
    Included env env' (.cons line below next) (.cons line' below' next')
  | written {line : Line} {forest forest' next next' : Forest Line} : env.Imports line forest →
    Included env env' forest forest' → Included env env' next next' →
    Included env env' (.cons line .nil next) (forest' ++ next')
  | imported {line' : Line} {forest forest' next next' : Forest Line} : env'.Imports line' forest' →
    Included env env' forest forest' → Included env env' next next' →
    Included env env' (forest ++ next) (.cons line' .nil next')

/-- The same statement, with its tokens at another location. -/
theorem Line.Moved.statement_eq {line line' : Line} (h : line.Moved line') :
    line'.statement = Statement.moveTo line'.location <$> line.statement := by
  have hmoved := Line.statement_moveTo line'.location line line'.column
  rw [h.content] at hmoved
  exact hmoved

theorem Line.Moved.symm {line line' : Line} (h : line.Moved line') : line'.Moved line :=
  ⟨h.content.symm, h.directory.symm⟩

namespace Forest.Rel

variable {forest forest' : Forest Line}

theorem refl (forest : Forest Line) : forest.Rel Line.Moved forest :=
  .of_refl (fun _ => ⟨rfl, rfl⟩) forest

theorem symm (h : forest.Rel Line.Moved forest') : forest'.Rel Line.Moved forest := by
  induction h with
  | nil => exact .nil
  | cons hline _ _ ihBelow ihNext => exact .cons hline.symm ihBelow ihNext

theorem included (env env' : Environment) (h : forest.Rel Line.Moved forest') :
    Included env env' forest forest' := by
  induction h with
  | nil => exact .nil
  | cons hline hbelow _ _ ihNext => exact .cons hline hbelow ihNext

end Forest.Rel

namespace Included

variable {env env' : Environment} {forest forest' : Forest Line}

theorem refl (env env' : Environment) (forest : Forest Line) : Included env env' forest forest :=
  (Forest.Rel.refl forest).included env env'

theorem symm (h : Included env env' forest forest') : Included env' env forest' forest := by
  induction h with
  | nil => exact .nil
  | cons hline hbelow _ ih => exact .cons hline.symm hbelow.symm ih
  | written himports _ _ ihForest ihNext => exact .imported himports ihForest ihNext
  | imported himports _ _ ihForest ihNext => exact .written himports ihForest ihNext

theorem append (h : Included env env' forest forest') {more more' : Forest Line}
    (hmore : Included env env' more more') :
    Included env env' (forest ++ more) (forest' ++ more') := by
  induction h with
  | nil => exact hmore
  | cons hline hbelow _ ih => exact .cons hline hbelow ih
  | written himports hforest _ _ ihNext =>
    rw [Forest.append_assoc]
    exact .written himports hforest ihNext
  | imported himports hforest _ _ ihNext =>
    rw [Forest.append_assoc]
    exact .imported himports hforest ihNext

end Included

/-! ## Files that are listed -/

/-- A path that some pattern finds. -/
def FileSystem.Lists (files : FileSystem) (path : Text) : Prop :=
  ∃ pattern paths, files.glob pattern = .ok paths ∧ path ∈ paths

theorem FileSystem.lists_of_mem_firstMatch {files : FileSystem} {patterns paths : List Text}
    (h : files.firstMatch patterns = .ok paths) : ∀ path ∈ paths, files.Lists path := by
  induction patterns with
  | nil =>
    cases h
    exact nofun
  | cons pattern rest ih =>
    rw [firstMatch] at h
    split at h
    · cases h
    · exact ih h
    · rename_i found hne hglob
      cases h
      exact fun path hpath => ⟨pattern, found, hglob, (Path.sort_perm found).mem_iff.mp hpath⟩

theorem FileSystem.firstMatch_congr {files files' : FileSystem} (h : files.glob = files'.glob)
    (patterns : List Text) :
    files.firstMatch patterns = files'.firstMatch patterns := by
  induction patterns with
  | nil => rfl
  | cons pattern rest ih => rw [firstMatch, firstMatch, h, ih]

/-- Environments that find the same files, of which some have imports written out. -/
structure SameListing (env env' : Environment) : Prop where
  includePaths : env.includePaths = env'.includePaths
  inheritance : env.inheritance = env'.inheritance
  glob : env.files.glob = env'.files.glob
  load (path : Text) : env.files.Lists path → env.files.load path = env'.files.load path ∨
    ∃ forest forest', env.files.load path = .ok forest ∧ env'.files.load path = .ok forest' ∧
      Included env env' forest forest'

namespace SameListing

variable {env env' : Environment}

theorem symm (h : SameListing env env') : SameListing env' env := by
  refine ⟨h.includePaths.symm, h.inheritance.symm, h.glob.symm, fun path hlists => ?_⟩
  have hlists' : env.files.Lists path := by
    rw [FileSystem.Lists, h.glob]
    exact hlists
  rcases h.load path hlists' with heq | ⟨forest, forest', hload, hload', hincluded⟩
  · exact .inl heq.symm
  · exact .inr ⟨forest', forest, hload', hload, hincluded.symm⟩

theorem load_eq_ok (h : SameListing env env') {path : Text} (hlists : env.files.Lists path) {forest : Forest Line}
    (hload : env.files.load path = .ok forest) :
    ∃ forest', env'.files.load path = .ok forest' ∧ Included env env' forest forest' := by
  rcases h.load path hlists with heq | ⟨found, forest', hfound, hload', hincluded⟩
  · exact ⟨forest, heq ▸ hload, .refl env env' forest⟩
  · rw [hload] at hfound
    cases hfound
    exact ⟨forest', hload', hincluded⟩

theorem firstMatch_eq (h : SameListing env env') {importer importer' : Text}
    (hdirectory : Path.parent importer = Path.parent importer') (pattern : Text) :
    env.files.firstMatch (Path.candidates env.includePaths importer pattern) =
      env'.files.firstMatch (Path.candidates env'.includePaths importer' pattern) := by
  rw [Path.candidates, Path.candidates, h.includePaths, hdirectory, FileSystem.firstMatch_congr h.glob]

end SameListing

/-! ## Success carried over -/

namespace Expansion

open Scopes (Lockstep)

variable {α β : Type}

/-- Whenever the first computation succeeds, the second one does from scopes in lockstep, at all great enough
depths, with the same result, and leaves the scopes in lockstep. -/
def Carries (x : Expansion α) (y : Nat → Expansion α) : Prop :=
  ∀ s t, Lockstep (Forest.Rel Line.Moved) s t → ∀ a s', x s = some (.ok a, s') →
    ∃ t', Lockstep (Forest.Rel Line.Moved) s' t' ∧ ∀ᶠ depth in atTop, y depth t = some (.ok a, t')

namespace Carries

variable {x : Expansion α} {y : Nat → Expansion α}

theorem pure (a : α) : Carries (Pure.pure a : Expansion α) fun _ => Pure.pure a := by
  intro s t hst b s' h
  cases h
  exact ⟨t, hst, .of_forall fun _ => rfl⟩

theorem fail (location : Location) (cause : Cause) : Carries (fail location cause : Expansion α) y :=
  fun _ _ _ _ _ h => nomatch h

theorem bind {f : α → Expansion β} {g : Nat → α → Expansion β} (h : Carries x y)
    (hfg : ∀ a, Carries (f a) fun depth => g depth a) : Carries (x >>= f) fun depth => y depth >>= g depth := by
  intro s t hst b s' hb
  obtain ⟨a, between, hx, hf⟩ := bind_eq_ok hb
  obtain ⟨t₁, hbetween, hy⟩ := h s t hst a between hx
  obtain ⟨t₂, hafter, hg⟩ := hfg a between t₁ hbetween b s' hf
  refine ⟨t₂, hafter, ?_⟩
  filter_upwards [hy, hg] with depth hy hg
  rw [bind_apply, hy]
  exact hg

theorem ite {c c' : Bool} (hc : c = c') {x' : Expansion α} {y' : Nat → Expansion α} (h : Carries x y)
    (h' : Carries x' y') : Carries (if c then x else x') fun depth => if c' then y depth else y' depth := by
  subst hc
  cases c with
  | true => exact h
  | false => exact h'

theorem ask (location location' : Location) {read read' : Scopes → Except Cause α}
    (h : ∀ s t, Lockstep (Forest.Rel Line.Moved) s t → read s = read' t) :
    Carries (ask location read) fun _ => Expansion.ask location' read' := by
  intro s t hst a s' hask
  obtain ⟨hread, rfl⟩ := ask_eq_ok hask
  refine ⟨t, hst, .of_forall fun _ => ?_⟩
  show Expansion.ask location' read' t = _
  rw [ask_apply, ← h s' t hst, hread]
  rfl

theorem ofCause (location location' : Location) (result : Except Cause α) :
    Carries (ofCause location result) fun _ => Expansion.ofCause location' result := by
  cases result with
  | ok a => exact pure a
  | error cause => exact fail location cause

theorem modify {f g : Scopes → Scopes}
    (h : ∀ s t, Lockstep (Forest.Rel Line.Moved) s t → Lockstep (Forest.Rel Line.Moved) (f s) (g t)) :
    Carries (modify f : Expansion PUnit) fun _ => modify g := by
  intro s t hst a s' hmodify
  cases hmodify
  exact ⟨g t, h s t hst, .of_forall fun _ => rfl⟩

/-- Locations around errors are of no consequence to what succeeds. -/
theorem nested_left (location : Location) (h : Carries x y) : Carries (nested location x) y :=
  fun s t hst a s' hx => h s t hst a s' (nested_eq_ok hx)

theorem nested_right (location : Location) (h : Carries x y) :
    Carries x fun depth => nested location (y depth) := by
  intro s t hst a s' hx
  obtain ⟨t', hafter, hy⟩ := h s t hst a s' hx
  refine ⟨t', hafter, ?_⟩
  filter_upwards [hy] with depth hy
  rw [nested_apply, hy]

theorem inScope (inheritance : Inheritance) (parent : Nat) {body : Nat → Expansion α}
    {body' : Nat → Nat → Expansion α} (h : ∀ id, Carries (body id) fun depth => body' depth id) :
    Carries (inScope inheritance parent body) fun depth => Expansion.inScope inheritance parent (body' depth) := by
  intro s t hst a s' hx
  obtain ⟨inner, hbody, rfl⟩ := inScope_eq_some hx
  obtain ⟨inner', hinner, hbody'⟩ := h s.count _ _ (hst.enter inheritance parent) a inner hbody
  refine ⟨inner'.release t.count, ?_, ?_⟩
  · rw [hst.count_eq]
    exact hinner.release t.count
  · filter_upwards [hbody'] with depth hbody'
    rw [hst.count_eq] at hbody'
    rw [Expansion.inScope, hbody']

/-- What holds one level deeper holds at all great enough depths. -/
theorem of_succ (h : Carries x fun depth => y (depth + 1)) : Carries x y := by
  intro s t hst a s' hx
  obtain ⟨t', hafter, hy⟩ := h s t hst a s' hx
  refine ⟨t', hafter, ?_⟩
  obtain ⟨least, hleast⟩ := eventually_atTop.mp hy
  refine eventually_atTop.mpr ⟨least + 1, fun depth hdepth => ?_⟩
  obtain ⟨before, rfl⟩ : ∃ before, depth = before + 1 := ⟨depth - 1, by omega⟩
  exact hleast before (Nat.le_of_succ_le_succ hdepth)

end Carries

/-! ## Calls -/

variable {env env' : Environment} {run : Expander} {line line' : Line} {below below' : Forest Line}

theorem carries_binding (mixin other : Mixin) (location location' : Location) (id : Nat) (slots : List Slot) :
    Carries (binding mixin location id slots) fun _ => binding other location' id slots := by
  intro s t hst a s' h
  obtain ⟨bound', hbound', hafter⟩ := hst.bind (binding_eq_ok h) other location'
  refine ⟨bound', hafter, .of_forall fun _ => ?_⟩
  show binding other location' id slots t = _
  rw [binding_apply, hbound']

section

variable (hrun : ∀ {forest forest'}, Included env env' forest forest' → ∀ id,
  Carries (run forest id) fun depth => env'.expand depth forest' id)

include hrun

theorem carries_invoke {mixin other : Mixin} (hmixin : mixin.SameCall (Forest.Rel Line.Moved) other)
    (location location' : Location) (values : Values) (id : Nat) :
    Carries (invoke run location mixin values id) fun depth =>
      invoke (env'.expand depth) location' other values id := by
  have hslots : mixin.slots values = other.slots values := by
    rw [Mixin.slots, Mixin.slots, hmixin.name, hmixin.parameters]
  simp only [invoke, hslots]
  refine .bind (.ofCause location location' _) fun slots => ?_
  refine .bind (carries_binding mixin other location location' id slots) fun _ => ?_
  exact .nested_left location (.nested_right location' (hrun (hmixin.body.included env env') id))

theorem carries_callMixin {mixin? other? : Option Mixin}
    (hmixin : Option.Rel (Mixin.SameCall (Forest.Rel Line.Moved)) mixin? other?) (inheritance : Inheritance)
    (hbelow : below.isEmpty = below'.isEmpty) (name : Text) (arguments : List Token) (id : Nat) :
    Carries (callMixin inheritance run line below name arguments id mixin?) fun depth =>
      callMixin inheritance (env'.expand depth) line' below' name (arguments.map (Token.moveTo line'.location)) id
        other? := by
  cases hmixin with
  | none => exact .fail line.location _
  | @some mixin other hmixin =>
    have htakes : ∀ count, mixin.takes count = other.takes count := fun count => by
      rw [Mixin.takes, Mixin.takes, Mixin.required, Mixin.required, hmixin.parameters]
    refine .ite (congrArg not hbelow) (.fail line.location _) ?_
    refine .bind (.ask line.location line'.location fun s t hst => ?_) fun values => ?_
    · rw [Scopes.evaluate_moveTo, hst.evaluate_eq]
    · refine .ite (congrArg not (htakes values.count)) (.fail line.location _) ?_
      rw [hmixin.scope]
      exact .inScope inheritance other.scope fun id =>
        carries_invoke hrun hmixin line.location line'.location values id

theorem carries_expandCall (hsame : SameListing env env') (hbelow : below.isEmpty = below'.isEmpty) (name : Text)
    (arguments : List Token) (id : Nat) :
    Carries (env.expandCall run line below name arguments id) fun depth =>
      env'.expandCall (env'.expand depth) line' below' name (arguments.map (Token.moveTo line'.location)) id := by
  intro s t hst a s' h
  simp only [expandCall_apply, ← hsame.inheritance] at h ⊢
  exact carries_callMixin hrun (hst.mixin? id name) env.inheritance hbelow name arguments id s t hst a s' h

/-! ## Imports -/

theorem carries_expandAll (hsame : SameListing env env') (id : Nat) {paths : List Text}
    (hpaths : ∀ path ∈ paths, env.files.Lists path) :
    Carries (env.files.expandAll run id paths) fun depth =>
      env'.files.expandAll (env'.expand depth) id paths := by
  induction paths with
  | nil => exact .pure Output.nil
  | cons path rest ih =>
    obtain ⟨hpath, hrest⟩ := List.forall_mem_cons.mp hpaths
    cases hload : env.files.load path with
    | error e =>
      intro s t _ a s' h
      rw [expandAll_error hload] at h
      cases h
    | ok forest =>
      obtain ⟨forest', hload', hincluded⟩ := hsame.load_eq_ok hpath hload
      simp only [expandAll_cons hload, expandAll_cons hload']
      refine .bind (hrun hincluded id) fun first => ?_
      exact .bind (ih hrest) fun others => .pure (first ++ others)

theorem carries_importFiles (hsame : SameListing env env') (hline : line.Moved line') (pattern : Text)
    (id : Nat) :
    Carries (importFiles env run id line pattern) fun depth =>
      importFiles env' (env'.expand depth) id line' pattern := by
  simp only [importFiles, ← hsame.firstMatch_eq hline.directory]
  match hmatch : env.files.firstMatch (Path.candidates env.includePaths line.location.file pattern) with
  | .error e => exact fun _ _ _ _ _ h => nomatch h
  | .ok [] => exact .fail line.location _
  | .ok (path :: paths) =>
    have hpaths := FileSystem.lists_of_mem_firstMatch hmatch
    exact .nested_left _ (.nested_right _ (carries_expandAll hrun hsame id hpaths))

theorem carries_expandImport (hsame : SameListing env env') (hline : line.Moved line')
    (hbelow : below.isEmpty = below'.isEmpty) (arguments : List Token) (id : Nat) :
    Carries (env.expandImport run line below arguments id) fun depth =>
      env'.expandImport (env'.expand depth) line' below' (arguments.map (Token.moveTo line'.location)) id := by
  simp only [expandImport_eq]
  refine .ite (congrArg not hbelow) (.fail line.location _) ?_
  refine .bind (.ask line.location line'.location fun s t hst => ?_) fun pattern => ?_
  · rw [Scopes.importPattern_moveTo, hst.importPattern_eq]
  · exact carries_importFiles hrun hsame hline pattern id

/-! ## Lines -/

theorem carries_expandLine (hsame : SameListing env env') (hline : line.Moved line')
    (hbelow : below.Rel Line.Moved below') {inside : Nat → Expansion Output}
    {inside' : Nat → Nat → Expansion Output} (hinside : ∀ id, Carries (inside id) fun depth => inside' depth id)
    (above above' : List Line) (id : Nat) :
    Carries (env.expandLine run inside above line below id) fun depth =>
      env'.expandLine (env'.expand depth) (inside' depth) above' line' below' id := by
  have hempty := hbelow.isEmpty_eq
  simp only [expandLine_eq, hline.statement_eq]
  match line.statement with
  | .error e => exact .fail line.location _
  | .ok (.comment text) => exact hinside id
  | .ok (.literal text) =>
    refine .bind (.ask line.location line'.location fun s t hst => hst.fill_eq id text) fun filled => ?_
    refine .ite hempty (.pure (Output.leaf filled)) ?_
    rw [← hsame.inheritance]
    exact .bind (.inScope env.inheritance id hinside) fun body => .pure _
  | .ok (.assignment name value) =>
    refine .ite (congrArg not hempty) (.fail line.location _) ?_
    refine .bind (.ask line.location line'.location fun s t hst => hst.fill_eq id value) fun filled => ?_
    exact .bind (.modify fun s t hst => hst.setVariable id name filled) fun _ => .pure _
  | .ok (.declaration name arguments) =>
    show Carries (declaration above line below name arguments id) fun _ =>
      declaration above' line' below' name (arguments.map (Token.moveTo line'.location)) id
    simp only [declaration, Parameter.declared_moveTo]
    refine .bind (.ofCause line.location line'.location _) fun parameters => ?_
    exact .bind (.modify fun s t hst => hst.setMixin id ⟨rfl, rfl, rfl, hbelow⟩) fun _ => .pure Output.nil
  | .ok (.call name arguments) =>
    show Carries (if name = importName then _ else _) fun depth => if name = importName then _ else _
    by_cases himport : name = importName
    · simp only [himport, if_true]
      exact carries_expandImport hrun hsame hline hempty arguments id
    · simp only [himport, if_false]
      exact carries_expandCall hrun hsame hempty name arguments id

end

/-- An import of a single file does what the lines of the file do. -/
theorem expandLine_imports {forest : Forest Line} (h : env.Imports line forest) (run : Expander)
    (inside : Nat → Expansion Output) (above : List Line) (id : Nat) :
    env.expandLine run inside above line .nil id = nested line.location (run forest id) := by
  obtain ⟨arguments, pattern, path, hline, hpattern, hmatch, hload⟩ := h
  have hfiles : env.files.expandAll run id [path] = run forest id := by
    rw [expandAll_cons hload]
    simp only [FileSystem.expandAll, pure_bind, Output.append_nil, bind_pure]
  rw [expandLine_eq, hline]
  simp only [if_true, expandImport_eq]
  funext scopes
  show (ask line.location (·.importPattern id arguments) >>= importFiles env run id line) scopes = _
  rw [bind_apply, ask_apply, hpattern]
  simp only [Except.mapError, importFiles, hmatch, hfiles]

/-! ## Forests -/

theorem expandForest_append (env : Environment) (run : Expander) (above : List Line) (first second : Forest Line)
    (id : Nat) :
    env.expandForest run above (first ++ second) id =
      env.expandForest run above first id >>= fun here =>
        env.expandForest run (first.heads.reverse ++ above) second id >>= fun rest => pure (here ++ rest) := by
  induction first generalizing above with
  | nil =>
    show env.expandForest run above second id = _
    simp only [Environment.expandForest, pure_bind]
    exact (bind_pure _).symm
  | cons line below next _ ihNext =>
    show env.expandForest run above (.cons line below (next ++ second)) id = _
    simp only [Environment.expandForest, ihNext, bind_assoc, pure_bind, Output.append_assoc, Forest.heads,
      List.reverse_cons, List.append_assoc, List.singleton_append]

/-- Lines that have been moved expand to what they did before. -/
theorem carries_rel (hsame : SameListing env env') {run : Expander}
    (hrun : ∀ {forest forest'}, Included env env' forest forest' → ∀ id,
      Carries (run forest id) fun depth => env'.expand depth forest' id)
    {forest forest' : Forest Line} (h : forest.Rel Line.Moved forest') (above above' : List Line) (id : Nat) :
    Carries (env.expandForest run above forest id) fun depth =>
      env'.expandForest (env'.expand depth) above' forest' id := by
  induction h generalizing above above' id with
  | nil => exact .pure Output.nil
  | cons hline hbelow _ ihBelow ihNext =>
    refine .bind (carries_expandLine hrun hsame hline hbelow (ihBelow [] []) above above' id) fun here => ?_
    exact .bind (ihNext (_ :: above) (_ :: above') id) fun rest => .pure (here ++ rest)

/-- Whatever a forest expands to, one that includes what it imports, or imports what it includes, does too. -/
theorem carries_expandForest (hsame : SameListing env env') {depth : Nat}
    (hrun : ∀ {forest forest'}, Included env env' forest forest' → ∀ above' id,
      Carries (env.expand depth forest id) fun depth => env'.expandForest (env'.expand depth) above' forest' id)
    {forest forest' : Forest Line} (h : Included env env' forest forest') (above above' : List Line) (id : Nat) :
    Carries (env.expandForest (env.expand depth) above forest id) fun depth =>
      env'.expandForest (env'.expand depth) above' forest' id := by
  have hrun' : ∀ {forest forest'}, Included env env' forest forest' → ∀ id,
      Carries (env.expand depth forest id) fun depth => env'.expand depth forest' id :=
    fun hincluded id => .of_succ (hrun hincluded [] id)
  induction h generalizing above above' id with
  | nil => exact .pure Output.nil
  | cons hline hbelow _ ihNext =>
    have hinside := carries_rel hsame hrun' hbelow [] []
    refine .bind (carries_expandLine hrun' hsame hline hbelow hinside above above' id) fun here => ?_
    exact .bind (ihNext (_ :: above) (_ :: above') id) fun rest => .pure (here ++ rest)
  | @written line forest forest' next next' himports hforest _ _ ihNext =>
    -- The import runs its file one level deeper, where the induction on the depth applies.
    simp only [expandForest_append]
    refine .bind ?_ fun here => .bind (ihNext (line :: above) _ id) fun rest => .pure (here ++ rest)
    rw [expandLine_imports himports]
    exact .nested_left line.location (hrun hforest above' id)
  | @imported line' forest forest' next next' himports hforest _ ihForest ihNext =>
    rw [expandForest_append]
    refine .bind ?_ fun here => .bind (ihNext _ (line' :: above') id) fun rest => .pure (here ++ rest)
    simp only [expandLine_imports himports]
    exact .nested_right line'.location (.of_succ (ihForest above [] id))

theorem carries_expand (hsame : SameListing env env') (depth : Nat) {forest forest' : Forest Line}
    (h : Included env env' forest forest') (above' : List Line) (id : Nat) :
    Carries (env.expand depth forest id) fun depth =>
      env'.expandForest (env'.expand depth) above' forest' id := by
  induction depth generalizing forest forest' above' id with
  | zero => exact fun _ _ _ _ _ h => nomatch h
  | succ depth ih => exact carries_expandForest hsame ih h [] above' id

end Expansion

theorem expandFile_of_included {env env' : Environment} (hsame : SameListing env env') {path : Text}
    {forest forest' : Forest Line} (hload : env.files.load path = .ok forest)
    (hload' : env'.files.load path = .ok forest') (h : Included env env' forest forest')
    {params : List (Text × Text)} {output : Output}
    (hexpand : ∃ depth, env.expandFile params depth path = some (.ok output)) :
    ∃ depth, env'.expandFile params depth path = some (.ok output) := by
  obtain ⟨depth, hexpand⟩ := hexpand
  rw [Environment.expandFile, hload] at hexpand
  obtain ⟨⟨result, after⟩, hrun, rfl⟩ := Option.map_eq_some_iff.mp hexpand
  have hstart := Scopes.Lockstep.refl Forest.Rel.refl (Scopes.ofParams params)
  obtain ⟨after', -, hrun'⟩ :=
    Expansion.carries_expand hsame depth h [] Scopes.rootId _ _ hstart output after hrun
  obtain ⟨depth', hdepth'⟩ := hrun'.exists
  refine ⟨depth' + 1, ?_⟩
  rw [Environment.expandFile, hload']
  exact congrArg (Option.map Prod.fst) hdepth'

/-- Whether a file imports or includes others, it expands to the same output, or to none. -/
theorem expandFile_iff_of_included {env env' : Environment} (hsame : SameListing env env') {path : Text}
    {forest forest' : Forest Line} (hload : env.files.load path = .ok forest)
    (hload' : env'.files.load path = .ok forest') (h : Included env env' forest forest')
    (params : List (Text × Text)) (output : Output) :
    (∃ depth, env.expandFile params depth path = some (.ok output)) ↔
      ∃ depth, env'.expandFile params depth path = some (.ok output) :=
  ⟨expandFile_of_included hsame hload hload' h, expandFile_of_included hsame.symm hload' hload h.symm⟩

end Scl
