import Scl.Proofs.Expansion.Simulation

/-!
# Scoping

What an expansion depends on, from running two of them in step.

* `expandCall_lexical`: a call depends on the values of its arguments and on the scopes up to the one where
  the mixin was declared, not on the scopes of its caller;
* `expandFile_eq_of_related`: files that are alike have the same outcome;
* `expandFile_linked`: whether a new scope starts with a copy of its parent or with nothing makes no
  difference;
* `expandFile_conservative`: more variables and more directories to search leave a successful expansion as
  it is.
-/

namespace Scl

open Expansion

/-! ## Calls -/

namespace Scopes

/-- The scopes up to number `last` are the same. -/
def SameUpTo (last : Nat) (s t : Scopes) : Prop :=
  ∀ id ≤ last, Option.Rel Scope.Same (s.scope? id) (t.scope? id)

variable {last : Nat} {s t : Scopes}

/-- Lookups from the scopes that are the same find the same. -/
theorem SameUpTo.look_eq {α : Type} {find : Scope → Option α} (h : SameUpTo last s t)
    (hfind : ∀ scope other : Scope, scope.Same other → find scope = find other) {id : Nat} (hid : id ≤ last) :
    s.look find id = t.look find id := by
  induction id using Nat.strongRecOn with
  | ind id ih =>
    have hscope := h id hid
    rw [look_eq_bind, look_eq_bind]
    generalize s.scope? id = first at hscope
    generalize t.scope? id = second at hscope
    cases hscope with
    | none => rfl
    | some hsame =>
      rw [Option.bind_some, Option.bind_some, hfind _ _ hsame, hsame.parent]
      refine congrArg (Option.or _) (Option.bind_congr fun parent _ => ?_)
      split
      · rename_i hlt
        exact ih parent hlt (by omega)
      · rfl

/-- Scopes that are the same are matched, each with itself: what they refer to is among them. -/
theorem SameUpTo.matched (h : SameUpTo last s t) (hs : s.Ordered) (hlast : last < s.count)
    (hlast' : last < t.count) : Matched False Eq (fun i j => i = j ∧ i ≤ last) s t := by
  constructor
  · rintro i j ⟨rfl, hi⟩
    omega
  · rintro i j ⟨rfl, hi⟩ name
    exact .inl (h.look_eq (fun _ _ hsame => hsame.value name) hi)
  · rintro i j ⟨rfl, hi⟩ name
    have heq : s.mixin? i name = t.mixin? i name := h.look_eq (fun _ _ hsame => hsame.mixin name) hi
    rw [← heq]
    cases hfound : s.mixin? i name with
    | none => exact .none
    | some mixin =>
      have hle := hs.mixin?_scope_le hfound
      exact .some ⟨rfl, rfl, rfl, rfl, rfl, by omega⟩

/-- A mixin that is found was declared in a scope that is there. -/
theorem Ordered.scope_lt_count (h : s.Ordered) {id : Nat} {name : Text} {mixin : Mixin}
    (hfound : s.mixin? id name = some mixin) : mixin.scope < s.count := by
  have hle := h.mixin?_scope_le hfound
  have hlt := lt_count_of_look _ hfound
  omega

end Scopes

/-- Scoping is lexical. Two calls of the same mixin with the same values have the same outcome, if the
scopes up to the one where the mixin was declared are the same. What the callers' scopes bind, and every
scope opened after that of the mixin, has no influence, however deeply calls, blocks and imports are nested
in the body. -/
theorem expandCall_lexical (env : Environment) (depth : Nat) (line : Line) (below : Forest Line)
    (name : Text) (arguments : List Token) {s t : Scopes} (hs : s.Ordered) (ht : t.Ordered) {mixin : Mixin}
    (hsame : Scopes.SameUpTo mixin.scope s t) {i j : Nat} (hi : s.mixin? i name = some mixin)
    (hj : t.mixin? j name = some mixin)
    (hvalues : s.evaluate i (Argument.group arguments) = t.evaluate j (Argument.group arguments)) :
    (env.expandCall (env.expand depth) line below name arguments i s).map Prod.fst =
      (env.expandCall (env.expand depth) line below name arguments j t).map Prod.fst := by
  have hlast := hs.scope_lt_count hi
  have hlast' := ht.scope_lt_count hj
  have hmatched := hsame.matched hs hlast hlast'
  have hrun : Related False Eq (env.expand depth) (env.expand depth) :=
    follows_expand ⟨fun _ => .refl _, fun _ _ => .inl rfl⟩ depth
  have hc := confined_expand env depth
  have hm : mixin.Alike Eq (fun i j => i = j ∧ i ≤ mixin.scope) mixin :=
    ⟨rfl, rfl, rfl, rfl, rfl, Nat.le_refl _⟩
  rw [expandCall_apply, expandCall_apply, hi, hj]
  -- The two calls start from these very scopes and leave them as they are.
  refine (follows_callMixin (P := fun s' t' => s' = s ∧ t' = t) hrun hc hc (.some hm) env.inheritance
    env.inheritance line rfl name arguments ?_ ?_ ?_ s t ⟨rfl, rfl⟩).map_fst_eq
  · rintro _ _ ⟨rfl, rfl⟩
    omega
  · rintro _ _ ⟨rfl, rfl⟩
    exact hmatched
  · rintro _ _ ⟨rfl, rfl⟩
    rw [hvalues]
    exact .refl _

/-- The mixin `m` of the root scope, called from a block that binds its variable to another value and from a
block inside of that. -/
theorem expandCall_lexical_blocks :
    let mixin : Mixin :=
      { name := ['m']
        declaration := ⟨⟨['f'], 2⟩, 0, ['@', 'm', '(', ')']⟩
        body := .cons ⟨⟨['f'], 3⟩, 2, ['a']⟩ (.cons ⟨⟨['f'], 4⟩, 4, ['$', 'v']⟩ .nil .nil) .nil
        parameters := []
        doc? := none
        scope := 0 }
    let root := (Scopes.initial.setVariable 0 ['v'] ['1']).setMixin 0 mixin
    let outer := (root.enter .copied 0).setVariable 1 ['v'] ['2']
    let inner := (outer.enter .copied 1).setVariable 2 ['v'] ['3']
    let call : Line := ⟨⟨['f'], 7⟩, 4, ['m', '(', ')']⟩
    let env : Environment := { files := Files.system [] }
    outer.value? 1 ['v'] = some ['2'] ∧ inner.value? 2 ['v'] = some ['3'] ∧
      (env.expandCall (env.expand 1) call .nil ['m'] [] 2 inner).map Prod.fst =
        (env.expandCall (env.expand 1) call .nil ['m'] [] 1 outer).map Prod.fst ∧
      (env.expandCall (env.expand 1) call .nil ['m'] [] 1 outer).map Prod.fst =
        some (.ok (.block ['a'] (.line ['1'] .nil) .nil)) := by
  intro mixin root outer inner call env
  have hroot : root.Ordered := (Scopes.ordered_initial.setVariable rfl ['v'] ['1']).setMixin rfl rfl
  have houter : outer.Ordered := (hroot.enter .copied (by decide)).setVariable rfl ['v'] ['2']
  have hinner : inner.Ordered := (houter.enter .copied (by decide)).setVariable rfl ['v'] ['3']
  have hsame : Scopes.SameUpTo 0 inner outer := by
    intro id hid
    cases Nat.le_zero.mp hid
    exact .some ⟨rfl, fun _ => rfl, fun _ => rfl⟩
  refine ⟨rfl, rfl, ?_, by decide +kernel⟩
  exact expandCall_lexical env 1 call .nil ['m'] [] hinner houter hsame rfl rfl rfl

/-! ## New scopes -/

namespace Scopes

theorem InStep.setVariables {lenient : Prop} {alike : Forest Line → Forest Line → Prop}
    {link : Nat → Nat → Prop} {i j : Nat} {s t : Scopes} (h : InStep lenient alike link i j s t)
    (params : List (Text × Text)) :
    InStep lenient alike link i j
      (params.foldl (fun scopes (name, value) => scopes.setVariable i name value) s)
      (params.foldl (fun scopes (name, value) => scopes.setVariable j name value) t) := by
  induction params generalizing s t with
  | nil => exact h
  | cons param rest ih => exact ih (h.setVariable param.1 param.2)

/-- Variables of the root scope are all that it has. -/
theorem ofParams_bare (params : List (Text × Text)) :
    (ofParams params).count = 1 ∧ ∀ name, (ofParams params).mixin? rootId name = none := by
  have hfold : ∀ scopes : Scopes, scopes.count = 1 → (∀ name, scopes.mixin? rootId name = none) →
      let all := params.foldl (fun scopes (name, value) => scopes.setVariable rootId name value) scopes
      all.count = 1 ∧ ∀ name, all.mixin? rootId name = none := by
    induction params with
    | nil => exact fun scopes hcount hmixin => ⟨hcount, hmixin⟩
    | cons param rest ih =>
      intro scopes hcount hmixin
      refine ih (scopes.setVariable rootId param.1 param.2) hcount fun name => ?_
      rw [mixin?_setVariable hcount.symm]
      exact hmixin name
  exact hfold initial rfl fun _ => rfl

/-- Root scopes with the same variables are in step. In a lenient comparison the second one may have had
other variables before. -/
theorem inStep_ofParams (lenient : Prop) (extra params : List (Text × Text)) (h : lenient ∨ extra = []) :
    InStep lenient Eq (fun i j => i = rootId ∧ j = rootId) rootId rootId (ofParams params)
      (ofParams (extra ++ params)) := by
  obtain ⟨hcount, hmixin⟩ := ofParams_bare extra
  have hinitial : InStep lenient Eq (fun i j => i = rootId ∧ j = rootId) rootId rootId initial
      (ofParams extra) := by
    refine ⟨⟨?_, ?_, ?_⟩, ⟨rfl, rfl⟩, ?_, rfl, hcount.symm⟩
    · rintro i j ⟨rfl, rfl⟩
      rw [hcount]
      exact ⟨Nat.zero_lt_one, Nat.zero_lt_one⟩
    · rintro i j ⟨rfl, rfl⟩ name
      rcases h with hl | rfl
      · exact .inr ⟨hl, rfl⟩
      · exact .inl rfl
    · rintro i j ⟨rfl, rfl⟩ name
      rw [hmixin]
      exact .none
    · rintro i j ⟨rfl, rfl⟩
      exact Iff.rfl
  rw [ofParams, ofParams, List.foldl_append]
  exact hinitial.setVariables params

end Scopes

/-- Bodies that are equal are alike. -/
theorem Scopes.InStep.of_eq {lenient : Prop} {alike : Forest Line → Forest Line → Prop}
    (hrefl : ∀ forest, alike forest forest) {link : Nat → Nat → Prop} {i j : Nat} {s t : Scopes}
    (h : InStep lenient Eq link i j s t) : InStep lenient alike link i j s t := by
  refine ⟨⟨h.bounds, h.value, fun hl name => ?_⟩, h.linked, h.only, h.newest, h.newest'⟩
  have hmixin := h.mixin hl name
  generalize s.mixin? _ name = mixin? at hmixin
  generalize t.mixin? _ name = other? at hmixin
  cases hmixin with
  | none => exact .none
  | some hm => exact .some ⟨hm.name, hm.parameters, hm.location, hm.body ▸ hrefl _, hm.scope⟩

/-- Files that are alike have the same outcome, if such forests keep expansions in step. -/
theorem expandFile_eq_of_related {alike : Forest Line → Forest Line → Prop} (hrefl : ∀ forest, alike forest forest)
    {env env' : Environment} (hfiles : SameFiles False alike env env') {depth : Nat}
    (h : Related False alike (env.expand depth) (env'.expand depth)) (params : List (Text × Text)) (path : Text) :
    env.expandFile params depth path = env'.expandFile params depth path := by
  have hload := hfiles.load path
  rw [Environment.expandFile, Environment.expandFile]
  generalize env.files.load path = first at hload
  generalize env'.files.load path = second at hload
  cases hload with
  | ok hforest =>
    have hstep := (Scopes.inStep_ofParams False [] params (.inr rfl)).of_eq hrefl
    exact (h hforest _ _ _ _ _ hstep).map_fst_eq
  | error e => rfl
  | forgiven hl => exact hl.elim

/-- Starting a scope with a copy of what its parent binds is only a shortcut: the output, or the error with
all calls and imports around it, is the same if every new scope starts empty. -/
theorem expandFile_linked (env : Environment) (params : List (Text × Text)) (depth : Nat) (path : Text) :
    { env with inheritance := .linked }.expandFile params depth path =
      { env with inheritance := .copied }.expandFile params depth path := by
  rw [Environment.expandFile, Environment.expandFile]
  cases env.files.load path with
  | error e => rfl
  | ok forest =>
    have hfiles : SameFiles False Eq { env with inheritance := .linked } { env with inheritance := .copied } :=
      ⟨fun _ => .refl _, fun _ _ => .inl rfl⟩
    have hstep := Scopes.inStep_ofParams False [] params (.inr rfl)
    exact (follows_expand hfiles depth (Eq.refl forest) _ _ _ _ _ hstep).map_fst_eq

/-! ## More variables and directories -/

/-- Patterns after those that match anything are not looked at. -/
theorem FileSystem.firstMatch_append (files : FileSystem) (patterns more : List Text) :
    files.firstMatch patterns = files.firstMatch (patterns ++ more) ∨
      ∀ path paths, files.firstMatch patterns ≠ .ok (path :: paths) := by
  induction patterns with
  | nil => exact .inr nofun
  | cons pattern rest ih =>
    rw [List.cons_append, firstMatch, firstMatch]
    match files.glob pattern with
    | .error e => exact .inl rfl
    | .ok [] => exact ih
    | .ok (path :: paths) => exact .inl rfl

theorem Path.candidates_append (includePaths more : List Text) (importer pattern : Text) :
    ∃ others, Path.candidates (includePaths ++ more) importer pattern =
      Path.candidates includePaths importer pattern ++ others := by
  rw [candidates, candidates]
  split
  · exact ⟨[], rfl⟩
  · refine ⟨more.map (join · pattern), ?_⟩
    rw [← List.cons_append, List.map_append]

theorem sameFiles_append (env : Environment) (more : List Text) :
    SameFiles True Eq env { env with includePaths := env.includePaths ++ more } := by
  refine ⟨fun _ => .refl _, fun importer pattern => ?_⟩
  obtain ⟨others, heq⟩ := Path.candidates_append env.includePaths more importer pattern
  simp only [heq, true_and]
  exact env.files.firstMatch_append _ others

/-- Variables set before the given ones and directories searched after the given ones change nothing in an
expansion that succeeds without them. -/
theorem expandFile_conservative (env : Environment) (more : List Text) (params extra : List (Text × Text))
    (depth : Nat) (path : Text) {output : Output}
    (h : env.expandFile params depth path = some (.ok output)) :
    { env with includePaths := env.includePaths ++ more }.expandFile (extra ++ params) depth path =
      some (.ok output) := by
  rw [Environment.expandFile] at h ⊢
  cases hload : env.files.load path with
  | error e =>
    rw [hload] at h
    cases h
  | ok forest =>
    rw [hload] at h
    have hstep := Scopes.inStep_ofParams True extra params (.inl trivial)
    have hrun := follows_expand (sameFiles_append env more) depth (Eq.refl forest) _ _ _ _ _ hstep
    exact hrun.map_fst_eq_ok h

/-- A file that is imported from a given directory, with one of the same name in another directory, and a
variable that had another value before. -/
theorem expandFile_conservative_import :
    let files : Files :=
      [(['a'], "import \"g\"".toList), ("d/g".toList, ['$', 'v']), ("e/g".toList, ['$', 'w'])]
    let env : Environment := { files := files.system, includePaths := [['d']] }
    env.expandFile [(['v'], ['1'])] 2 ['a'] = some (.ok (.line ['1'] .nil)) ∧
      { env with includePaths := env.includePaths ++ [['e']] }.expandFile
        ([(['v'], ['2']), (['w'], ['3'])] ++ [(['v'], ['1'])]) 2 ['a'] = some (.ok (.line ['1'] .nil)) := by
  intro files env
  have h : env.expandFile [(['v'], ['1'])] 2 ['a'] = some (.ok (.line ['1'] .nil)) := by
    decide +kernel
  exact ⟨h, expandFile_conservative env [['e']] _ _ 2 ['a'] h⟩

end Scl
