import Scl.Proofs.Expansion.Steps

/-!
# Errors as traces

The locations of an error tell the way to it. `Environment.Fails` is that way, from a point of an expansion
on: past lines that succeed, through calls and imports that put their location around the error, to the line
at fault.

* `fails_of_expand`: whenever an expansion fails, it fails in this way;
* `Environment.Fails.head`: the outermost location is a line of the forest at hand;
* `Environment.Fails.leads`: every location around an error is a call or an import that leads to it;
* `expandFile_trace`: the same for the expansion of a file.
-/

namespace Scl

/-- An error of a file or a pattern, which has no location. -/
def Error.isLoading : Error → Bool
  | scan .. => true
  | file .. => true
  | _ => false

/-- The error with all calls and imports around it, without the outermost, and so on to the root. -/
def Error.layers : Error → List Error
  | nested location inner => nested location inner :: inner.layers
  | error => [error]

theorem Error.trace_of_isLoading {e : Error} (h : e.isLoading) : e.trace = [] := by
  cases e with
  | scan | file => rfl
  | located | nested => cases h

theorem Error.layers_of_isLoading {e : Error} (h : e.isLoading) : e.layers = [e] := by
  cases e with
  | scan | file => rfl
  | located | nested => cases h

namespace Environment

variable (env : Environment)

/-- How an expansion from a point can fail. -/
inductive Fails : Point → Error → Prop
  | located {above : List Line} {line : Line} {below next : Forest Line} {id : Nat} {scopes : Scopes}
    (cause : Cause) : Fails ⟨above, .cons line below next, id, scopes⟩ (.located line.location cause)
  | loading {above : List Line} {line : Line} {below next : Forest Line} {id : Nat} {scopes : Scopes}
    {arguments : List Token} {e : Error} : line.statement = .ok (.call importName arguments) → e.isLoading →
    Fails ⟨above, .cons line below next, id, scopes⟩ (.nested line.location e)
  | default {above : List Line} {line : Line} {below next : Forest Line} {id : Nat} {scopes : Scopes} {name : Text}
    {arguments : List Token} {mixin : Mixin} (cause : Cause) : line.statement = .ok (.call name arguments) →
    name ≠ importName → scopes.mixin? id name = some mixin →
    Fails ⟨above, .cons line below next, id, scopes⟩
      (.nested line.location (.located mixin.declaration.location cause))
  | enter {line : Line} {p q : Point} {e : Error} : env.Enter line p q → Fails q e →
    Fails p (.nested line.location e)
  | advance {p q : Point} {e : Error} : env.Advance p q → Fails q e → Fails p e

end Environment

namespace Expansion

open Environment (Fails)

variable {env : Environment} {depth : Nat} {above : List Line} {line : Line} {below next : Forest Line}
  {id : Nat} {scopes after : Scopes} {e : Error}

/-! ## Every failure is one of these -/

theorem isLoading_of_load {files : FileSystem} {path : Text} (h : files.load path = .error e) :
    e.isLoading := by
  rw [FileSystem.load] at h
  split at h
  · cases h
    rfl
  · split at h
    · cases h
      rfl
    · cases h

/-- One of the files cannot be read, or fails, after those before it have been expanded. -/
theorem expandAll_eq_error {files : FileSystem} {run : Expander} {paths : List Text}
    (h : files.expandAll run id paths scopes = some (.error e, after)) :
    ∃ before path rest output between, paths = before ++ path :: rest ∧
      files.expandAll run id before scopes = some (.ok output, between) ∧
      (files.load path = .error e ∨
        ∃ forest, files.load path = .ok forest ∧ run forest id between = some (.error e, after)) := by
  induction paths generalizing scopes with
  | nil => cases h
  | cons path rest ih =>
    cases hload : files.load path with
    | error e' =>
      rw [expandAll_error hload] at h
      cases h
      exact ⟨[], path, rest, .nil, _, rfl, rfl, .inl hload⟩
    | ok forest =>
      rw [expandAll_cons hload] at h
      rcases bind_eq_error h with hfails | ⟨first, between, hfirst, hrest⟩
      · exact ⟨[], path, rest, .nil, scopes, rfl, rfl, .inr ⟨forest, hload, hfails⟩⟩
      · rcases bind_eq_error hrest with hothers | ⟨others, last, -, hpure⟩
        · obtain ⟨before, path', rest', output, between', rfl, hbefore, hcase⟩ := ih hothers
          refine ⟨path :: before, path', rest', first ++ output, between', rfl, ?_, hcase⟩
          rw [expandAll_cons hload, bind_apply, hfirst]
          simp only [bind_apply, hbefore, pure_apply]
        · cases hpure

section

variable (hrun : ∀ {forest id scopes e after}, env.expand depth forest id scopes = some (.error e, after) →
  env.Fails ⟨[], forest, id, scopes⟩ e)

include hrun

theorem fails_of_expandImport {arguments : List Token} (hline : line.statement = .ok (.call importName arguments))
    (h : env.expandImport (env.expand depth) line below arguments id scopes = some (.error e, after)) :
    env.Fails ⟨above, .cons line below next, id, scopes⟩ e := by
  rw [expandImport_eq] at h
  split at h
  · rw [fail_eq_error h]
    exact .located _
  · rename_i hbelow
    rcases bind_eq_error h with hask | ⟨pattern, between, hask, himport⟩
    · obtain ⟨cause, rfl⟩ := ask_eq_error hask
      exact .located cause
    · obtain ⟨hpattern, rfl⟩ := ask_eq_ok hask
      rw [importFiles] at himport
      rcases hpaths : env.files.firstMatch (Path.candidates env.includePaths line.location.file pattern) with
        error | _ | ⟨first, others⟩ <;> rw [hpaths] at himport
      · cases himport
        exact .loading hline rfl
      · rw [fail_eq_error himport]
        exact .located _
      · obtain ⟨inner, hinner, rfl⟩ := nested_eq_error himport
        obtain ⟨before, path, rest, output, last, hsplit, hbefore, hload | ⟨forest, hload, hfails⟩⟩ :=
          expandAll_eq_error hinner
        · exact .loading hline (isLoading_of_load hload)
        · obtain rfl := eq_nil_of_not_isEmpty hbelow
          have hresolves : env.Resolves line id between (before ++ path :: rest) :=
            ⟨arguments, pattern, hline, hpattern, hsplit ▸ hpaths⟩
          exact .enter (.file hresolves ⟨depth, output, hbefore⟩ hload) (hrun hfails)

theorem fails_of_expandCall {name : Text} {arguments : List Token}
    (hline : line.statement = .ok (.call name arguments)) (hname : name ≠ importName)
    (h : env.expandCall (env.expand depth) line below name arguments id scopes = some (.error e, after)) :
    env.Fails ⟨above, .cons line below next, id, scopes⟩ e := by
  rw [expandCall_apply] at h
  cases hmixin : scopes.mixin? id name with
  | none =>
    rw [hmixin] at h
    rw [fail_eq_error h]
    exact .located _
  | some mixin =>
    rw [hmixin, callMixin] at h
    split at h
    · rw [fail_eq_error h]
      exact .located _
    · rename_i hbelow
      rcases bind_eq_error h with hask | ⟨values, between, hask, hcall⟩
      · obtain ⟨cause, rfl⟩ := ask_eq_error hask
        exact .located cause
      · obtain ⟨hvalues, rfl⟩ := ask_eq_ok hask
        split at hcall
        · rw [fail_eq_error hcall]
          exact .located _
        · rename_i htakes
          obtain ⟨last, hinvoke, -⟩ := inScope_eq_some hcall
          rcases bind_eq_error hinvoke with hask | ⟨slots, start, hask, hbind⟩
          · obtain ⟨cause, rfl⟩ := ofCause_eq_error hask
            exact .located cause
          · obtain ⟨hslots, rfl⟩ := ofCause_eq_ok hask
            rcases bind_eq_error hbind with hbinding | ⟨done, bound, hbinding, hbody⟩
            · obtain ⟨cause, rfl | rfl⟩ := bind_eq_error_cases (binding_eq_error hbinding)
              · exact .located cause
              · exact .default cause hline hname hmixin
            · obtain ⟨inner, hinner, rfl⟩ := nested_eq_error hbody
              obtain rfl := eq_nil_of_not_isEmpty hbelow
              have hinvokes : env.Invokes line id between mixin bound := by
                refine ⟨name, arguments, values, slots, hline, hname, hmixin, hvalues, by simpa using htakes, ?_,
                  binding_eq_ok hbinding⟩
                cases hs : mixin.slots values with
                | error error => rw [hs] at hslots; cases hslots
                | ok found =>
                  rw [hs] at hslots
                  cases hslots
                  rfl
              exact .enter (.call hinvokes) (hrun hinner)

theorem fails_of_expandLine {inside : Nat → Expansion Output}
    (hinside : ∀ {id scopes e after}, inside id scopes = some (.error e, after) →
      env.Fails ⟨[], below, id, scopes⟩ e)
    (h : env.expandLine (env.expand depth) inside above line below id scopes = some (.error e, after)) :
    env.Fails ⟨above, .cons line below next, id, scopes⟩ e := by
  rw [expandLine_eq] at h
  match hline : line.statement with
  | .error error =>
    rw [hline] at h
    rw [fail_eq_error h]
    exact .located _
  | .ok (.comment text) =>
    rw [hline] at h
    exact .advance (.comment hline) (hinside h)
  | .ok (.literal text) =>
    rw [hline] at h
    rcases bind_eq_error h with hask | ⟨filled, between, hask, hblock⟩
    · obtain ⟨cause, rfl⟩ := ask_eq_error hask
      exact .located cause
    · obtain ⟨hfilled, rfl⟩ := ask_eq_ok hask
      split at hblock
      · cases hblock
      · rcases bind_eq_error hblock with hscope | ⟨body, last, -, hpure⟩
        · obtain ⟨last, hbody, -⟩ := inScope_eq_some hscope
          exact .advance (.block hline hfilled) (hinside hbody)
        · cases hpure
  | .ok (.assignment name value) =>
    rw [hline] at h
    simp only [assignment] at h
    split at h
    · rw [fail_eq_error h]
      exact .located _
    · rcases bind_eq_error h with hask | ⟨filled, between, -, hpure⟩
      · obtain ⟨cause, rfl⟩ := ask_eq_error hask
        exact .located cause
      · cases hpure
  | .ok (.declaration name arguments) =>
    rw [hline] at h
    rcases bind_eq_error h with hask | ⟨parameters, between, -, hpure⟩
    · obtain ⟨cause, rfl⟩ := ofCause_eq_error hask
      exact .located cause
    · cases hpure
  | .ok (.call name arguments) =>
    rw [hline] at h
    by_cases hname : name = importName
    · subst hname
      exact fails_of_expandImport hrun hline (by simpa using h)
    · simp only [hname, if_false] at h
      exact fails_of_expandCall hrun hline hname h

end

theorem fails_of_expandForest
    (hrun : ∀ {forest id scopes e after}, env.expand depth forest id scopes = some (.error e, after) →
      env.Fails ⟨[], forest, id, scopes⟩ e) {forest : Forest Line}
    (h : env.expandForest (env.expand depth) above forest id scopes = some (.error e, after)) :
    env.Fails ⟨above, forest, id, scopes⟩ e := by
  induction forest generalizing above id scopes after e with
  | nil => cases h
  | cons line below next ihBelow ihNext =>
    rcases bind_eq_error h with hline | ⟨here, between, hline, hrest⟩
    · exact fails_of_expandLine hrun ihBelow hline
    · rcases bind_eq_error hrest with hnext | ⟨rest, last, -, hpure⟩
      · exact .advance (.next ⟨depth, here, hline⟩) (ihNext hnext)
      · cases hpure

/-- However deeply calls and imports are nested, an expansion that fails does so in one of these ways. -/
theorem fails_of_expand {forest : Forest Line} (h : env.expand depth forest id scopes = some (.error e, after)) :
    env.Fails ⟨[], forest, id, scopes⟩ e := by
  induction depth generalizing forest id scopes after e with
  | zero => cases h
  | succ depth ih => exact fails_of_expandForest ih h

end Expansion

/-! ## Lines by their locations -/

/-- The line that starts at a location. -/
def FileSystem.line? (files : FileSystem) (location : Location) : Option Line :=
  match files.load location.file with
  | .ok forest => forest.preorder.find? (·.location = location)
  | .error _ => none

/-- No two lines of a file start at the same source line. -/
theorem Line.InOrder.find?_location {file : Text} {low high : Nat} {lines : List Line}
    (h : InOrder file low high lines) {line : Line} (hline : line ∈ lines) :
    lines.find? (·.location = line.location) = some line := by
  obtain ⟨before, after, rfl⟩ := List.append_of_mem hline
  have hbefore : ∀ other ∈ before, ¬other.location = line.location := fun other hother heq => by
    have hlt := (List.pairwise_append.mp h.pairwise).2.2 other hother line List.mem_cons_self
    rw [heq] at hlt
    exact Nat.lt_irrefl _ hlt
  rw [List.find?_append, List.find?_eq_none.mpr (by simpa using hbefore), List.find?_cons_of_pos (by simp)]
  rfl

theorem FileSystem.Holds.line?_eq {files : FileSystem} {line : Line} {below : Forest Line}
    (h : files.Holds line below) : files.line? line.location = some line := by
  obtain ⟨forest, hload, hhas⟩ := h
  obtain ⟨high, hordered⟩ := load_inOrder hload
  rw [line?, hload]
  exact hordered.find?_location hhas.mem_preorder

/-! ## What a trace tells -/

theorem Point.Sound.line?_eq {files : FileSystem} {p : Point} (hp : p.Sound files) {line : Line}
    (hline : line ∈ p.forest.preorder) : files.line? line.location = some line := by
  obtain ⟨below, hhas⟩ := Forest.exists_has hline
  exact (hp.forest line below hhas).line?_eq

namespace Environment

variable {env : Environment} {p q start : Point} {e : Error}

theorem Fails.isLoading_eq (h : env.Fails p e) : e.isLoading = false := by
  induction h with
  | located | loading | default | enter => rfl
  | advance _ _ ih => exact ih

theorem Advance.preorder_subset (h : env.Advance p q) :
    ∀ line ∈ q.forest.preorder, line ∈ p.forest.preorder := by
  intro line hline
  cases h with
  | next => exact List.mem_cons_of_mem _ (List.mem_append_right _ hline)
  | comment | block => exact List.mem_cons_of_mem _ (List.mem_append_left _ hline)

theorem Enter.mem_preorder {line : Line} (h : env.Enter line p q) : line ∈ p.forest.preorder := by
  cases h with
  | call | file => exact List.mem_cons_self

/-- An error starts at a line of the forest at hand. -/
theorem Fails.head (h : env.Fails p e) : ∃ line ∈ p.forest.preorder, e.trace.head? = some line.location := by
  induction h with
  | located | loading | default => exact ⟨_, List.mem_cons_self, rfl⟩
  | enter henter => exact ⟨_, henter.mem_preorder, rfl⟩
  | advance hadvance _ ih =>
    obtain ⟨line, hline, hhead⟩ := ih
    exact ⟨line, hadvance.preorder_subset line hline, hhead⟩

/-- Every location of a trace is that of a line. -/
theorem Fails.isSome_line? (h : env.Fails p e) (hp : p.Sound env.files) :
    ∀ location ∈ e.trace, (env.files.line? location).isSome := by
  induction h with
  | located cause =>
    rintro location (_ | ⟨_, ⟨⟩⟩)
    exact Option.isSome_of_eq_some (hp.line?_eq List.mem_cons_self)
  | loading _ hloading =>
    rw [Error.trace, Error.trace_of_isLoading hloading]
    rintro location (_ | ⟨_, ⟨⟩⟩)
    exact Option.isSome_of_eq_some (hp.line?_eq List.mem_cons_self)
  | default cause _ _ hmixin =>
    rintro location (_ | ⟨_, (_ | ⟨_, ⟨⟩⟩)⟩)
    · exact Option.isSome_of_eq_some (hp.line?_eq List.mem_cons_self)
    · exact Option.isSome_of_eq_some (hp.scopes.mixin hmixin).2.holds.line?_eq
  | enter henter _ ih =>
    rintro location (_ | ⟨_, hlocation⟩)
    · exact Option.isSome_of_eq_some (hp.line?_eq henter.mem_preorder)
    · exact ih (henter.sound hp) location hlocation
  | advance hadvance _ ih => exact ih (hadvance.sound hp)

/-- A call or import at `line` leads to an error inside of it, in an expansion that begins at `start`. The next
location on the way is in a file that the import resolves to, or it is the declaration of the called mixin or a
line below that. Only an import leads to a file that cannot be read. -/
def Leads (env : Environment) (start : Point) (line : Line) (inner : Error) : Prop :=
  ∃ name arguments, line.statement = .ok (.call name arguments) ∧
    (name = importName → ∀ location ∈ inner.trace.head?, ∃ above next id scopes paths,
      env.Reaches start ⟨above, .cons line .nil next, id, scopes⟩ ∧ env.Resolves line id scopes paths ∧
      location.file ∈ paths) ∧
    (name ≠ importName → inner.isLoading = false ∧
      ∀ location ∈ inner.trace.head?, ∃ declaration arguments below, env.files.Holds declaration below ∧
        declaration.location.file = location.file ∧ declaration.statement = .ok (.declaration name arguments) ∧
        (location = declaration.location ∨ location ∈ below.preorder.map Line.location))

/-- A mixin leads from its calls to its declaration and the lines below it. -/
theorem leads_mixin {line : Line} {name : Text} {arguments : List Token}
    (hline : line.statement = .ok (.call name arguments)) (hname : name ≠ importName) {mixin : Mixin}
    (hmixin : mixin.name = name ∧ mixin.Declared env.files) (hloading : e.isLoading = false)
    (hhead : ∀ location ∈ e.trace.head?, ∃ found ∈ mixin.declaration :: mixin.body.preorder,
      found.location = location) : env.Leads start line e := by
  obtain ⟨rfl, ⟨forest, hload, hhas⟩, arguments', hdeclaration⟩ := hmixin
  refine ⟨mixin.name, arguments, hline, fun heq => absurd heq hname, fun _ => ⟨hloading, ?_⟩⟩
  intro location hlocation
  obtain ⟨found, hfound, rfl⟩ := hhead location hlocation
  refine ⟨mixin.declaration, arguments', mixin.body, ⟨forest, hload, hhas⟩, ?_, hdeclaration, ?_⟩
  · have hmem : found ∈ forest.preorder := by
      rcases List.mem_cons.mp hfound with rfl | hbelow
      · exact hhas.mem_preorder
      · exact hhas.preorder_subset found hbelow
    exact (FileSystem.file_of_mem_load hload hmem).symm
  · exact (List.mem_cons.mp hfound).imp (congrArg Line.location) (List.mem_map_of_mem ·)

theorem Enter.leads {line : Line} (henter : env.Enter line p q) (hfails : env.Fails q e)
    (hreaches : env.Reaches start p) (hp : p.Sound env.files) : env.Leads start line e := by
  obtain ⟨found, hfound, hhead⟩ := hfails.head
  cases henter with
  | call hinvokes =>
    obtain ⟨name, arguments, -, -, hline, hname, hmixin, -⟩ := hinvokes
    refine leads_mixin hline hname (hp.scopes.mixin hmixin) hfails.isLoading_eq fun location hlocation => ?_
    rw [hhead] at hlocation
    exact ⟨found, List.mem_cons_of_mem _ hfound, Option.some.inj hlocation⟩
  | file hresolves _ hload =>
    obtain ⟨arguments, -, hline, -⟩ := id hresolves
    refine ⟨importName, arguments, hline, fun _ location hlocation => ?_, fun hne => absurd rfl hne⟩
    rw [hhead] at hlocation
    cases hlocation
    refine ⟨_, _, _, _, _, hreaches, hresolves, ?_⟩
    rw [FileSystem.file_of_mem_load hload hfound]
    exact List.mem_append_right _ List.mem_cons_self

/-- Every location around an error is that of a call or an import which leads to the error. -/
theorem Fails.leads (h : env.Fails p e) (hreaches : env.Reaches start p) (hstart : start.Sound env.files) :
    ∀ location inner, .nested location inner ∈ e.layers →
      ∃ line, env.files.line? location = some line ∧ env.Leads start line inner := by
  have hp := hreaches.sound hstart
  induction h with
  | located cause =>
    intro location inner hlayer
    cases List.mem_singleton.mp hlayer
  | loading hline hloading =>
    intro location inner hlayer
    rw [Error.layers, Error.layers_of_isLoading hloading, List.mem_cons, List.mem_singleton] at hlayer
    rcases hlayer with heq | rfl
    · cases heq
      refine ⟨_, hp.line?_eq List.mem_cons_self, importName, _, hline, fun _ location hlocation => ?_,
        fun hne => absurd rfl hne⟩
      rw [Error.trace_of_isLoading hloading] at hlocation
      cases hlocation
    · cases hloading
  | default cause hline hname hmixin =>
    intro location inner hlayer
    rcases List.mem_cons.mp hlayer with heq | hlayer
    · cases heq
      refine ⟨_, hp.line?_eq List.mem_cons_self, leads_mixin hline hname (hp.scopes.mixin hmixin) rfl ?_⟩
      rintro location ⟨⟩
      exact ⟨_, List.mem_cons_self, rfl⟩
    · cases List.mem_singleton.mp hlayer
  | @enter line p q e henter hfails ih =>
    intro location inner hlayer
    rw [Error.layers, List.mem_cons] at hlayer
    rcases hlayer with heq | hlayer
    · cases heq
      exact ⟨line, hp.line?_eq henter.mem_preorder, henter.leads hfails hreaches hp⟩
    · exact ih (hreaches.tail (.inr ⟨line, henter⟩)) (henter.sound hp) location inner hlayer
  | advance hadvance _ ih => exact ih (hreaches.tail (.inl hadvance)) (hadvance.sound hp)

end Environment

/-- A file that cannot be expanded either cannot be loaded, or its error is the trace of an expansion: every
location is that of a line, the outermost in the file itself, and every location around an error is that of a
call or an import which leads to the next one. -/
theorem expandFile_trace {env : Environment} {params : List (Text × Text)} {depth : Nat} {path : Text} {e : Error}
    (h : env.expandFile params depth path = some (.error e)) :
    (e.isLoading ∧ env.files.load path = .error e) ∨
      ∃ forest, env.files.load path = .ok forest ∧ e.isLoading = false ∧
        (∀ location ∈ e.trace, (env.files.line? location).isSome) ∧
        (∃ location, e.trace.head? = some location ∧ location.file = path) ∧
        ∀ location inner, .nested location inner ∈ e.layers → ∃ line, env.files.line? location = some line ∧
          env.Leads ⟨[], forest, Scopes.rootId, Scopes.ofParams params⟩ line inner := by
  rw [Environment.expandFile] at h
  cases hload : env.files.load path with
  | error e' =>
    rw [hload] at h
    cases h
    exact .inl ⟨Expansion.isLoading_of_load hload, rfl⟩
  | ok forest =>
    rw [hload] at h
    obtain ⟨⟨result, after⟩, hexpand, rfl⟩ := Option.map_eq_some_iff.mp h
    have hfails := Expansion.fails_of_expand hexpand
    have hsound : Point.Sound env.files ⟨[], forest, Scopes.rootId, Scopes.ofParams params⟩ :=
      ⟨FileSystem.holdsAll_load hload, .ofParams env.files params⟩
    obtain ⟨line, hline, hhead⟩ := hfails.head
    exact .inr ⟨forest, rfl, hfails.isLoading_eq, hfails.isSome_line? hsound,
      ⟨line.location, hhead, FileSystem.file_of_mem_load hload hline⟩, hfails.leads .refl hsound⟩

/-- An imported file that calls a mixin of its own, below whose declaration a variable is missing. -/
theorem expandFile_trace_import :
    let files : Files := [(['a'], "import \"g\"".toList), (['g'], "@m():\n  $x\nm()".toList)]
    let env : Environment := { files := files.system }
    let fault : Error := .located ⟨['g'], 2⟩ (.template (.unknownVariable ['x']))
    let start (forest : Forest Line) : Point := ⟨[], forest, Scopes.rootId, Scopes.ofParams []⟩
    env.expandFile [] 3 ['a'] = some (.error (.nested ⟨['a'], 1⟩ (.nested ⟨['g'], 3⟩ fault))) ∧
      ∃ forest, files.system.load ['a'] = .ok forest ∧
        (∃ line, files.system.line? ⟨['a'], 1⟩ = some line ∧
          env.Leads (start forest) line (.nested ⟨['g'], 3⟩ fault)) ∧
        ∃ line, files.system.line? ⟨['g'], 3⟩ = some line ∧ env.Leads (start forest) line fault := by
  intro files env fault start
  have h : env.expandFile [] 3 ['a'] = some (.error (.nested ⟨['a'], 1⟩ (.nested ⟨['g'], 3⟩ fault))) := by
    decide +kernel
  refine ⟨h, ?_⟩
  obtain ⟨hloading, -⟩ | ⟨forest, hload, -, -, -, hleads⟩ := expandFile_trace h
  · cases hloading
  · exact ⟨forest, hload, hleads _ _ List.mem_cons_self, hleads _ _ (.tail _ List.mem_cons_self)⟩

end Scl
