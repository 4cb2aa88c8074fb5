import Mathlib.Data.Finset.Dedup
import Mathlib.Data.Finset.Order
import Scl.Proofs.Expansion.Depth
import Scl.Proofs.Expansion.Steps

/-!
# Expansions that come to an end

An expansion without an outcome is nested too deeply: it advances to a call or an import, and the forest that
is entered there has no outcome at the depth that is left (`Expansion.deepens_of_expandForest`). If every mixin
calls only mixins of a smaller rank, this can be repeated no more often than the ranks allow:

* `Forest.Descending`: ranks of names that grow smaller along calls;
* `Environment.expand_ne_none`: an expansion has an outcome at every depth above the ranks of its calls;
* `expandFile_terminates`: so a file without imports has the same result at all great enough depths.
-/

namespace Scl

/-! ## Ranks -/

/-- The name of the mixin that a line declares. -/
def Line.declares? (line : Line) : Option Text :=
  match line.statement with
  | .ok (.declaration name _) => some name
  | _ => none

/-- The name of the mixin that a line calls, or that of imports. -/
def Line.calls? (line : Line) : Option Text :=
  match line.statement with
  | .ok (.call name _) => some name
  | _ => none

namespace Forest

/-- Every node with the forest below it. -/
def trees {α : Type} : Forest α → List (α × Forest α)
  | nil => []
  | cons root below next => (root, below) :: (below.trees ++ next.trees)

/-- The lines with no declaration above them. -/
def exposed : Forest Line → List Line
  | nil => []
  | cons line below next => line :: ((if line.declares?.isSome then [] else below.exposed) ++ next.exposed)

/-- Every declared mixin calls only mixins of a smaller rank. The calls below a declaration in its body are not
its own. -/
def Descending (rank : Text → Nat) (forest : Forest Line) : Prop :=
  ∀ tree ∈ forest.trees, ∀ name ∈ tree.1.declares?, ∀ call ∈ tree.2.exposed, ∀ callee ∈ call.calls?,
    rank callee < rank name

instance (rank : Text → Nat) (forest : Forest Line) : Decidable (forest.Descending rank) :=
  inferInstanceAs (Decidable (∀ tree ∈ forest.trees, ∀ name ∈ tree.1.declares?, ∀ call ∈ tree.2.exposed,
    ∀ callee ∈ call.calls?, rank callee < rank name))

theorem Has.mem_trees {α : Type} {forest below : Forest α} {node : α} (h : forest.Has node below) :
    (node, below) ∈ forest.trees := by
  induction h with
  | here => exact List.mem_cons_self
  | inside _ ih => exact List.mem_cons_of_mem _ (List.mem_append_left _ ih)
  | later _ ih => exact List.mem_cons_of_mem _ (List.mem_append_right _ ih)

variable {root line : Line} {below next : Forest Line}

theorem exposed_below (hroot : root.declares? = none) (h : line ∈ below.exposed) :
    line ∈ (cons root below next).exposed := by
  rw [exposed, hroot]
  exact List.mem_cons_of_mem _ (List.mem_append_left _ h)

theorem exposed_next (h : line ∈ next.exposed) : line ∈ (cons root below next).exposed :=
  List.mem_cons_of_mem _ (List.mem_append_right _ h)

theorem mem_preorder_of_exposed {forest : Forest Line} (h : line ∈ forest.exposed) : line ∈ forest.preorder := by
  induction forest with
  | nil => exact h
  | cons root below next ihBelow ihNext =>
    rw [exposed, List.mem_cons, List.mem_append] at h
    rw [preorder, List.mem_cons, List.mem_append]
    refine h.imp_right (Or.imp (fun hbelow => ?_) ihNext)
    split at hbelow
    · cases hbelow
    · exact ihBelow hbelow

end Forest

namespace Environment

variable {env : Environment} {p q : Point} {line : Line}

theorem Advance.exposed (h : env.Advance p q) (hline : line ∈ q.forest.exposed) : line ∈ p.forest.exposed := by
  cases h with
  | next _ => exact Forest.exposed_next hline
  | comment hcomment => exact Forest.exposed_below (by rw [Line.declares?, hcomment]) hline
  | block hliteral _ => exact Forest.exposed_below (by rw [Line.declares?, hliteral]) hline

/-- A line from which the expansion enters another forest has no declaration above it. -/
theorem exposed_of_enter {start : Point} (h : Relation.ReflTransGen env.Advance start p)
    (henter : env.Enter line p q) : line ∈ start.forest.exposed := by
  induction h using Relation.ReflTransGen.head_induction_on with
  | refl =>
    cases henter with
    | call _ => exact List.mem_cons_self
    | file _ _ _ => exact List.mem_cons_self
  | head hadvance _ ih => exact hadvance.exposed ih

end Environment

/-! ## Expansions without an outcome -/

namespace Expansion

variable {α β : Type} {scopes : Scopes} {location : Location}

theorem bind_eq_none {first : Expansion α} {rest : α → Expansion β} (h : (first >>= rest) scopes = none) :
    first scopes = none ∨ ∃ a between, first scopes = some (.ok a, between) ∧ rest a between = none := by
  rw [bind_apply] at h
  match hfirst : first scopes with
  | none => exact .inl rfl
  | some (.error e, between) => rw [hfirst] at h; cases h
  | some (.ok a, between) =>
    rw [hfirst] at h
    exact .inr ⟨a, between, rfl, h⟩

theorem bind_ask_eq_none {read : Scopes → Except Cause α} {rest : α → Expansion β}
    (h : (ask location read >>= rest) scopes = none) : ∃ a, read scopes = .ok a ∧ rest a scopes = none := by
  rcases bind_eq_none h with hask | ⟨a, between, hask, hrest⟩
  · rw [ask_apply] at hask
    cases hask
  · obtain ⟨hread, rfl⟩ := ask_eq_ok hask
    exact ⟨a, hread, hrest⟩

theorem nested_eq_none {body : Expansion α} (h : nested location body scopes = none) : body scopes = none := by
  rw [nested_apply] at h
  match hbody : body scopes with
  | none => rfl
  | some (.ok a, after) => rw [hbody] at h; cases h
  | some (.error e, after) => rw [hbody] at h; cases h

theorem inScope_eq_none {inheritance : Inheritance} {parent : Nat} {body : Nat → Expansion α}
    (h : inScope inheritance parent body scopes = none) :
    body scopes.count (scopes.enter inheritance parent) = none := by
  rw [inScope] at h
  cases hbody : body scopes.count (scopes.enter inheritance parent) with
  | none => rfl
  | some pair => rw [hbody] at h; cases h

/-- One of the files has no outcome, after those before it have been expanded. -/
theorem expandAll_eq_none {files : FileSystem} {run : Expander} {id : Nat} {paths : List Text}
    (h : files.expandAll run id paths scopes = none) :
    ∃ before path rest output between forest, paths = before ++ path :: rest ∧
      files.expandAll run id before scopes = some (.ok output, between) ∧ files.load path = .ok forest ∧
      run forest id between = none := by
  induction paths generalizing scopes with
  | nil => cases h
  | cons path rest ih =>
    cases hload : files.load path with
    | error e =>
      rw [expandAll_error hload] at h
      cases h
    | ok forest =>
      rw [expandAll_cons hload] at h
      rcases bind_eq_none h with hnone | ⟨first, between, hfirst, hrest⟩
      · exact ⟨[], path, rest, .nil, scopes, forest, rfl, rfl, hload, hnone⟩
      · rcases bind_eq_none hrest with hothers | ⟨others, last, -, hpure⟩
        · obtain ⟨before, path', rest', output, between', forest', rfl, hbefore, hload', hnone⟩ := ih hothers
          refine ⟨path :: before, path', rest', first ++ output, between', forest', rfl, ?_, hload', hnone⟩
          rw [expandAll_cons hload, bind_apply, hfirst]
          simp only [bind_apply, hbefore, pure_apply]
        · cases hpure

variable {env : Environment} {depth : Nat}

/-- From a point, an expansion advances to a line and enters a forest that has no outcome at a depth. -/
def Deepens (env : Environment) (depth : Nat) (start : Point) : Prop :=
  ∃ p line q, Relation.ReflTransGen env.Advance start p ∧ env.Enter line p q ∧
    env.expand depth q.forest q.id q.scopes = none

theorem Deepens.head {p q : Point} (hadvance : env.Advance p q) (h : Deepens env depth q) :
    Deepens env depth p := by
  obtain ⟨p', line, q', hreaches, henter, hnone⟩ := h
  exact ⟨p', line, q', .head hadvance hreaches, henter, hnone⟩

section

variable {above : List Line} {line : Line} {below next : Forest Line} {id : Nat}

theorem deepens_of_expandImport {arguments : List Token} (hline : line.statement = .ok (.call importName arguments))
    (h : env.expandImport (env.expand depth) line below arguments id scopes = none) :
    Deepens env depth ⟨above, .cons line below next, id, scopes⟩ := by
  rw [expandImport_eq] at h
  split at h
  · cases h
  · rename_i hbelow
    obtain rfl := eq_nil_of_not_isEmpty hbelow
    obtain ⟨pattern, hpattern, hfiles⟩ := bind_ask_eq_none h
    rw [importFiles] at hfiles
    rcases hpaths : env.files.firstMatch (Path.candidates env.includePaths line.location.file pattern) with
      error | _ | ⟨first, others⟩ <;> rw [hpaths] at hfiles
    · cases hfiles
    · cases hfiles
    · obtain ⟨before, path, rest, output, between, forest, hsplit, hbefore, hload, hnone⟩ :=
        expandAll_eq_none (nested_eq_none hfiles)
      have hresolves : env.Resolves line id scopes (before ++ path :: rest) :=
        ⟨arguments, pattern, hline, hpattern, hpaths.trans (congrArg Except.ok hsplit)⟩
      exact ⟨_, line, _, .refl, .file hresolves ⟨depth, output, hbefore⟩ hload, hnone⟩

theorem deepens_of_expandCall {name : Text} {arguments : List Token}
    (hline : line.statement = .ok (.call name arguments)) (hname : name ≠ importName)
    (h : env.expandCall (env.expand depth) line below name arguments id scopes = none) :
    Deepens env depth ⟨above, .cons line below next, id, scopes⟩ := by
  rw [expandCall_apply] at h
  cases hmixin : scopes.mixin? id name with
  | none => rw [hmixin] at h; cases h
  | some mixin =>
    rw [hmixin, callMixin] at h
    split at h
    · cases h
    · rename_i hbelow
      obtain rfl := eq_nil_of_not_isEmpty hbelow
      obtain ⟨values, hvalues, h⟩ := bind_ask_eq_none h
      split at h
      · cases h
      · rename_i htakes
        rcases bind_eq_none (inScope_eq_none h) with hslots | ⟨slots, between, hslots, hbody⟩
        · rw [ofCause_apply] at hslots
          cases hslots
        · obtain ⟨hok, rfl⟩ := ofCause_eq_ok hslots
          rcases bind_eq_none hbody with hbinding | ⟨done, bound, hbinding, hnested⟩
          · rw [binding_apply] at hbinding
            split at hbinding <;> cases hbinding
          · have hinvokes : env.Invokes line id scopes mixin bound :=
              ⟨name, arguments, values, slots, hline, hname, hmixin, hvalues, by simpa using htakes,
                Except.mapError_eq_ok.mp hok, binding_eq_ok hbinding⟩
            exact ⟨_, line, _, .refl, .call hinvokes, nested_eq_none hnested⟩

theorem deepens_of_expandLine
    (hinside : ∀ {id scopes}, env.expandForest (env.expand depth) [] below id scopes = none →
      Deepens env depth ⟨[], below, id, scopes⟩)
    (h : env.expandLine (env.expand depth) (env.expandForest (env.expand depth) [] below) above line below id
      scopes = none) : Deepens env depth ⟨above, .cons line below next, id, scopes⟩ := by
  rw [expandLine_eq] at h
  match hline : line.statement with
  | .error error =>
    rw [hline] at h
    cases h
  | .ok (.comment text) =>
    rw [hline] at h
    exact .head (.comment hline) (hinside h)
  | .ok (.literal text) =>
    rw [hline] at h
    obtain ⟨filled, hfilled, hblock⟩ := bind_ask_eq_none h
    split at hblock
    · cases hblock
    · rcases bind_eq_none hblock with hscope | ⟨body, last, -, hpure⟩
      · exact .head (.block hline hfilled) (hinside (inScope_eq_none hscope))
      · cases hpure
  | .ok (.assignment name value) =>
    rw [hline] at h
    simp only [assignment] at h
    split at h
    · cases h
    · obtain ⟨filled, -, hpure⟩ := bind_ask_eq_none h
      cases hpure
  | .ok (.declaration name arguments) =>
    rw [hline] at h
    rcases bind_eq_none h with hparameters | ⟨parameters, between, -, hpure⟩
    · rw [ofCause_apply] at hparameters
      cases hparameters
    · cases hpure
  | .ok (.call name arguments) =>
    rw [hline] at h
    by_cases hname : name = importName
    · subst hname
      exact deepens_of_expandImport hline (by simpa using h)
    · simp only [hname, if_false] at h
      exact deepens_of_expandCall hline hname h

theorem deepens_of_expandForest {forest : Forest Line}
    (h : env.expandForest (env.expand depth) above forest id scopes = none) :
    Deepens env depth ⟨above, forest, id, scopes⟩ := by
  induction forest generalizing above id scopes with
  | nil => cases h
  | cons line below next ihBelow ihNext =>
    rcases bind_eq_none h with hline | ⟨here, between, hline, hrest⟩
    · exact deepens_of_expandLine ihBelow hline
    · rcases bind_eq_none hrest with hnext | ⟨rest, last, -, hpure⟩
      · exact .head (.next ⟨depth, here, hline⟩) (ihNext hnext)
      · cases hpure

end

end Expansion

/-! ## Files without imports -/

/-- A mixin that a line of the forest declares. -/
structure Mixin.DeclaredIn (whole : Forest Line) (mixin : Mixin) : Prop where
  has : whole.Has mixin.declaration mixin.body
  declares : mixin.declaration.declares? = some mixin.name

namespace Environment

open Expansion

variable {env : Environment} {whole : Forest Line} {rank : Text → Nat}

/-- Without imports, every forest is part of the whole one, and every mixin is declared there. -/
theorem invariant_declaredIn (himport : ∀ line ∈ whole.preorder, line.calls? ≠ some importName) :
    env.Invariant (fun p => ∀ line below, p.forest.Has line below → whole.Has line below)
      (Mixin.DeclaredIn whole) where
  step := by
    rintro p q hforest hscopes (hadvance | ⟨line, henter⟩) -
    · cases hadvance with
      | next _ => exact fun line below hhas => hforest line below (.later hhas)
      | comment _ => exact fun line below hhas => hforest line below (.inside hhas)
      | block _ _ => exact fun line below hhas => hforest line below (.inside hhas)
    · cases henter with
      | call hinvokes =>
        obtain ⟨name, arguments, values, slots, -, -, hmixin, -⟩ := hinvokes
        exact fun line below hhas => (hscopes.mixin hmixin).2.has.trans hhas
      | file hresolves _ _ =>
        obtain ⟨arguments, pattern, hline, -⟩ := hresolves
        exact absurd (by rw [Line.calls?, hline]) (himport line (hforest line .nil .here).mem_preorder)
  declared := fun hforest hline _ => ⟨hforest _ _ .here, by rw [Line.declares?, Expansion.declared, hline]⟩

/-- An expansion has an outcome at every depth above the ranks of its calls. -/
theorem expand_ne_none (himport : ∀ line ∈ whole.preorder, line.calls? ≠ some importName)
    (hranks : whole.Descending rank) {bound depth : Nat} (hdepth : bound < depth) {forest : Forest Line}
    (hforest : ∀ line below, forest.Has line below → whole.Has line below)
    (hcalls : ∀ call ∈ forest.exposed, ∀ callee ∈ call.calls?, rank callee < bound) {id : Nat} {scopes : Scopes}
    (hscopes : scopes.Holding (Mixin.DeclaredIn whole) id) : env.expand depth forest id scopes ≠ none := by
  induction bound using Nat.strongRecOn generalizing depth forest id scopes with
  | ind bound ih =>
    intro hnone
    obtain ⟨depth, rfl⟩ : ∃ shallower, depth = shallower + 1 := ⟨depth - 1, by omega⟩
    obtain ⟨p, line, q, hadvances, henter, hnone⟩ := deepens_of_expandForest hnone
    have hinvariant := env.invariant_declaredIn himport
    have hreaches : env.Reaches ⟨[], forest, id, scopes⟩ p :=
      Relation.ReflTransGen.mono (fun _ _ => Or.inl) _ _ hadvances
    obtain ⟨hpoint, hholding⟩ := hinvariant.reaches hreaches hforest hscopes
    obtain ⟨hpoint', hholding'⟩ :=
      hinvariant.reaches (hreaches.tail (.inr ⟨line, henter⟩)) hforest hscopes
    have hexposed := exposed_of_enter hadvances henter
    cases henter with
    | file hresolves _ _ =>
      obtain ⟨arguments, pattern, hline, -⟩ := hresolves
      exact himport line (hpoint line .nil .here).mem_preorder (by rw [Line.calls?, hline])
    | call hinvokes =>
      -- The rank of the called mixin bounds the calls of its body.
      obtain ⟨name, arguments, values, slots, hline, -, hmixin, -⟩ := hinvokes
      obtain ⟨rfl, hdeclared⟩ := hholding.mixin hmixin
      have hrank := hcalls line hexposed _ (by rw [Line.calls?, hline]; rfl)
      exact ih (rank _) hrank (by omega) hpoint' (hranks _ hdeclared.has.mem_trees _ hdeclared.declares) hholding' hnone

end Environment

/-- A file without imports whose mixins only call mixins of a smaller rank comes to an end: from some depth on,
which is the same for all params, its expansion has one and the same result. -/
theorem expandFile_terminates {env : Environment} {path : Text} {forest : Forest Line} {rank : Text → Nat}
    (hload : env.files.load path = .ok forest)
    (himport : ∀ line ∈ forest.preorder, line.calls? ≠ some importName) (hranks : forest.Descending rank) :
    ∃ bound, ∀ params, ∃ result, ∀ depth, bound ≤ depth → env.expandFile params depth path = some result := by
  obtain ⟨bound, hbound⟩ := ((forest.preorder.filterMap Line.calls?).map rank).toFinset.exists_le
  refine ⟨bound + 2, fun params => ?_⟩
  have hcalls : ∀ call ∈ forest.exposed, ∀ callee ∈ call.calls?, rank callee < bound + 1 := by
    intro call hcall callee hcallee
    refine Nat.lt_succ_of_le (hbound _ (List.mem_toFinset.mpr (List.mem_map_of_mem ?_)))
    exact List.mem_filterMap.mpr ⟨call, Forest.mem_preorder_of_exposed hcall, hcallee⟩
  have hne : env.expand (bound + 2) forest Scopes.rootId (Scopes.ofParams params) ≠ none :=
    Environment.expand_ne_none himport hranks (Nat.lt_succ_self _) (fun _ _ h => h) hcalls (.ofParams _ params)
  obtain ⟨outcome, houtcome⟩ := Option.ne_none_iff_exists'.mp hne
  refine ⟨outcome.1, fun depth hdepth => ?_⟩
  rw [Environment.expandFile, hload]
  exact congrArg (Option.map Prod.fst) (Expansion.settles_expand env hdepth forest _ _ _ houtcome)

/-- A mixin that is declared again below another one, which calls it. -/
theorem expandFile_terminates_shadowed :
    let files : Files := [(['f'], "@a():\n  x\n@b():\n  a()\n  @a():\n    y\n  a()\nb()".toList)]
    let env : Environment := { files := files.system }
    let forest := (env.files.load ['f']).toOption.getD .nil
    let rank (name : Text) : Nat := if name = ['b'] then 1 else 0
    env.files.load ['f'] = .ok forest ∧ (∀ line ∈ forest.preorder, line.calls? ≠ some importName) ∧
      forest.Descending rank ∧
      env.expandFile [] 3 ['f'] = some (.ok (.block ['x'] .nil (.block ['y'] .nil .nil))) ∧
      ∃ bound, ∀ params, ∃ result, ∀ depth, bound ≤ depth → env.expandFile params depth ['f'] = some result := by
  intro files env forest rank
  have hload : env.files.load ['f'] = .ok forest := by decide +kernel
  have himport : ∀ line ∈ forest.preorder, line.calls? ≠ some importName := by decide +kernel
  have hranks : forest.Descending rank := by decide +kernel
  exact ⟨hload, himport, hranks, by decide +kernel, expandFile_terminates hload himport hranks⟩

end Scl
