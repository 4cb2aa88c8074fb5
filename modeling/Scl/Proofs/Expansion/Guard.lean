import Scl.Proofs.Expansion.Steps

/-!
# Guarded expansion

Scopes are released at the end of a block or a call, and the mixins in them are gone. A guard sees these as well: the
expansion is the same, except that it fails in the place of setting a mixin that is not allowed.

* `Environment.guardedLine`, `Environment.guardedForest`, `Environment.guarded`: expansion under a guard;
* `expandLine_congr`: a line expands other forests only at points that a step leads to;
* `Environment.Invariant.guarded_eq`: a guard that allows the mixins of an invariant has nothing to stop.
-/

namespace Scl

/-- What mixins may be set. -/
structure Guard where
  allowed : Mixin → Bool
  /-- The error in the place of setting another. -/
  alarm : Error

open Expansion

namespace Guard

variable (guard : Guard)

/-- Sets a mixin of scope `id` if it is allowed. -/
def setMixin (id : Nat) (mixin : Mixin) : Expansion PUnit :=
  if guard.allowed mixin then modify (·.setMixin id mixin) else throw guard.alarm

def declare (above : List Line) (line : Line) (below : Forest Line) (name : Text) (arguments : List Token)
    (id : Nat) : Expansion Output := do
  let parameters ← ofCause line.location ((Parameter.declared arguments).mapError .declaration)
  guard.setMixin id (declared above line below name parameters id)
  pure .nil

end Guard

namespace Environment

/-- One line in scope `id`, as `expandLine`. -/
def guardedLine (env : Environment) (guard : Guard) (run : Expander) (inside : Nat → Expansion Output)
    (above : List Line) (line : Line) (below : Forest Line) (id : Nat) : Expansion Output :=
  match line.statement with
  | .ok (.declaration name arguments) => guard.declare above line below name arguments id
  | _ => env.expandLine run inside above line below id

/-- A forest in scope `id`, as `expandForest`. -/
def guardedForest (env : Environment) (guard : Guard) (run : Expander) (above : List Line) :
    Forest Line → Nat → Expansion Output
  | .nil, _ => pure .nil
  | .cons line below next, id => do
    let here ← env.guardedLine guard run (env.guardedForest guard run [] below) above line below id
    let rest ← env.guardedForest guard run (line :: above) next id
    pure (here ++ rest)

/-- A forest in a scope, as `expand`. -/
def guarded (env : Environment) (guard : Guard) : Nat → Expander
  | 0 => fun _ _ => exhausted
  | depth + 1 => env.guardedForest guard (env.guarded guard depth) []

end Environment

/-! ## What the expansion of a line depends on -/

section Congruence

variable {env : Environment} {run : Expander} {depth : Nat} {above : List Line} {line : Line} {below next : Forest Line}
  {id : Nat} {scopes : Scopes}

/-- `run` does the same as the expansion with the forests that a line calls or imports. -/
def Environment.AgreesIn (env : Environment) (depth : Nat) (run : Expander) (line : Line) (p : Point) : Prop :=
  ∀ forest id scopes, env.Enter line p ⟨[], forest, id, scopes⟩ →
    run forest id scopes = env.expand depth forest id scopes

/-- Files in the end of those that an import resolves to, after the ones before them. -/
theorem expandAll_congr (h : env.AgreesIn depth run line ⟨above, .cons line .nil next, id, scopes⟩)
    {before paths : List Text} (hresolves : env.Resolves line id scopes (before ++ paths)) {output : Output}
    {between : Scopes}
    (hbefore : env.files.expandAll (env.expand depth) id before scopes = some (.ok output, between)) :
    env.files.expandAll run id paths between = env.files.expandAll (env.expand depth) id paths between := by
  induction paths generalizing before output between with
  | nil => rfl
  | cons path rest ih =>
    cases hload : env.files.load path with
    | error e => rw [expandAll_error hload, expandAll_error hload]
    | ok forest =>
      have hfirst := h forest id between (.file hresolves ⟨depth, output, hbefore⟩ hload)
      rw [expandAll_cons hload, expandAll_cons hload, bind_apply, bind_apply, hfirst]
      match houtcome : env.expand depth forest id between with
      | none => rfl
      | some (.error e, after) => rfl
      | some (.ok first, middle) =>
        rw [List.append_cons] at hresolves
        simp only [bind_apply, ih hresolves (expandAll_snoc hbefore hload houtcome)]

theorem expandImport_congr (h : env.AgreesIn depth run line ⟨above, .cons line below next, id, scopes⟩)
    {arguments : List Token} (hline : line.statement = .ok (.call importName arguments)) :
    env.expandImport run line below arguments id scopes =
      env.expandImport (env.expand depth) line below arguments id scopes := by
  rw [expandImport_eq, expandImport_eq]
  split
  · rfl
  · rename_i hbelow
    obtain rfl := eq_nil_of_not_isEmpty hbelow
    rw [bind_apply, bind_apply, ask_apply]
    cases hpattern : scopes.importPattern id arguments with
    | error cause => rfl
    | ok pattern =>
      show importFiles env run id line pattern scopes = importFiles env (env.expand depth) id line pattern scopes
      rw [importFiles, importFiles]
      rcases hpaths : env.files.firstMatch (Path.candidates env.includePaths line.location.file pattern) with
        error | _ | ⟨path, others⟩
      · rfl
      · rfl
      · have hresolves : env.Resolves line id scopes ([] ++ path :: others) :=
          ⟨arguments, pattern, hline, hpattern, hpaths⟩
        have hall := expandAll_congr h hresolves rfl
        show nested line.location (env.files.expandAll run id (path :: others)) scopes =
          nested line.location (env.files.expandAll (env.expand depth) id (path :: others)) scopes
        rw [nested_apply, nested_apply, hall]

theorem expandCall_congr (h : env.AgreesIn depth run line ⟨above, .cons line below next, id, scopes⟩)
    {name : Text} {arguments : List Token} (hline : line.statement = .ok (.call name arguments))
    (hname : name ≠ importName) :
    env.expandCall run line below name arguments id scopes =
      env.expandCall (env.expand depth) line below name arguments id scopes := by
  rw [expandCall_apply, expandCall_apply]
  cases hmixin : scopes.mixin? id name with
  | none => rfl
  | some mixin =>
    rw [callMixin, callMixin]
    split
    · rfl
    · rename_i hbelow
      obtain rfl := eq_nil_of_not_isEmpty hbelow
      rw [bind_apply, bind_apply, ask_apply]
      cases hvalues : scopes.evaluate id (Argument.group arguments) with
      | error cause => rfl
      | ok values =>
        simp only [Except.mapError]
        split
        · rfl
        · rename_i htakes
          rw [inScope, inScope, invoke_apply, invoke_apply]
          cases hslots : mixin.slots values with
          | error e => rfl
          | ok slots =>
            cases hbound : Scopes.bind mixin line.location scopes.count slots
              (scopes.enter env.inheritance mixin.scope) with
            | error e => simp only [hbound]
            | ok bound =>
              have hinvokes : env.Invokes line id scopes mixin bound :=
                ⟨name, arguments, values, slots, hline, hname, hmixin, hvalues, by simpa using htakes, hslots, hbound⟩
              simp only [hbound, nested_apply, h mixin.body scopes.count bound (.call hinvokes)]

theorem expandLine_congr (h : env.AgreesIn depth run line ⟨above, .cons line below next, id, scopes⟩)
    {inside inside' : Nat → Expansion Output} (hinside : ∀ id' scopes',
      env.Advance ⟨above, .cons line below next, id, scopes⟩ ⟨[], below, id', scopes'⟩ →
        inside id' scopes' = inside' id' scopes') :
    env.expandLine run inside above line below id scopes =
      env.expandLine (env.expand depth) inside' above line below id scopes := by
  rw [expandLine_eq, expandLine_eq]
  match hline : line.statement with
  | .error e => rfl
  | .ok (.comment text) => exact hinside id scopes (.comment hline)
  | .ok (.literal text) =>
    show literal env.inheritance inside line below text id scopes =
      literal env.inheritance inside' line below text id scopes
    rw [literal, literal, bind_apply, bind_apply, ask_apply]
    cases hfilled : scopes.fill id text with
    | error cause => rfl
    | ok filled =>
      simp only [Except.mapError]
      split
      · rfl
      · rw [bind_apply, bind_apply, inScope, inScope, hinside _ _ (.block hline hfilled)]
  | .ok (.assignment name value) => rfl
  | .ok (.declaration name arguments) => rfl
  | .ok (.call name arguments) =>
    by_cases hname : name = importName
    · subst hname
      simpa using expandImport_congr h hline
    · simpa only [hname, if_false] using expandCall_congr h hline hname

end Congruence

/-! ## Guards with nothing to stop -/

theorem Guard.declare_eq {guard : Guard} {above : List Line} {line : Line} {below : Forest Line} {name : Text}
    {arguments : List Token} {id : Nat} (h : ∀ parameters, Parameter.declared arguments = .ok parameters →
      guard.allowed (declared above line below name parameters id)) :
    guard.declare above line below name arguments id = declaration above line below name arguments id := by
  rw [Guard.declare, declaration]
  cases hparameters : Parameter.declared arguments with
  | error e => rfl
  | ok parameters =>
    have hset : guard.setMixin id (declared above line below name parameters id) =
        modify (·.setMixin id (declared above line below name parameters id)) := if_pos (h parameters hparameters)
    simp only [Except.mapError, ofCause, pure_bind, hset]

namespace Environment

variable {env : Environment} {guard : Guard} {run : Expander} {depth : Nat} {above : List Line} {line : Line}
  {below next : Forest Line} {id : Nat} {scopes : Scopes}

theorem guardedLine_eq (hallowed : ∀ name arguments parameters,
      line.statement = .ok (.declaration name arguments) → Parameter.declared arguments = .ok parameters →
      guard.allowed (declared above line below name parameters id)) (inside : Nat → Expansion Output) :
    env.guardedLine guard run inside above line below id = env.expandLine run inside above line below id := by
  rw [guardedLine]
  split
  · rename_i name arguments hline
    rw [Guard.declare_eq fun parameters => hallowed name arguments parameters hline, expandLine_eq, hline]
  · rfl

namespace Invariant

variable {R : Point → Prop} {Q : Mixin → Prop}

theorem guardedForest_eq (h : env.Invariant R Q) (hallowed : ∀ mixin, Q mixin → guard.allowed mixin)
    (hrun : ∀ forest id scopes, R ⟨[], forest, id, scopes⟩ → scopes.Holding Q id →
      run forest id scopes = env.expand depth forest id scopes)
    {forest : Forest Line} (hpoint : R ⟨above, forest, id, scopes⟩) (hscopes : scopes.Holding Q id) :
    env.guardedForest guard run above forest id scopes =
      env.expandForest (env.expand depth) above forest id scopes := by
  induction forest generalizing above id scopes with
  | nil => rfl
  | cons line below next ihBelow ihNext =>
    have hstep : ∀ {q}, env.Step ⟨above, .cons line below next, id, scopes⟩ q → R q ∧ q.scopes.Holding Q q.id :=
      h.keeps hpoint hscopes
    have hline : env.guardedLine guard run (env.guardedForest guard run [] below) above line below id scopes =
        env.expandLine (env.expand depth) (env.expandForest (env.expand depth) [] below) above line below
          id scopes := by
      rw [guardedLine_eq fun _ _ _ hline hparameters => hallowed _ (h.declared hpoint hline hparameters)]
      have hagrees : env.AgreesIn depth run line ⟨above, .cons line below next, id, scopes⟩ := by
        intro forest id' scopes' henter
        obtain ⟨hpoint', hscopes'⟩ := hstep (.inr ⟨line, henter⟩)
        exact hrun forest id' scopes' hpoint' hscopes'
      refine expandLine_congr hagrees fun id' scopes' hadvance => ?_
      obtain ⟨hpoint', hscopes'⟩ := hstep (.inl hadvance)
      exact ihBelow hpoint' hscopes'
    rw [guardedForest, expandForest, bind_apply, bind_apply, hline]
    match hhere : env.expandLine (env.expand depth) (env.expandForest (env.expand depth) [] below) above line below
      id scopes with
    | none => rfl
    | some (.error e, after) => rfl
    | some (.ok here, between) =>
      obtain ⟨hpoint', hscopes'⟩ := hstep (.inl (.next ⟨depth, here, hhere⟩))
      simp only [bind_apply, ihNext hpoint' hscopes']

/-- An expansion sets only mixins of an invariant, whatever its outcome, and also in scopes that are gone at its end:
a guard that allows these changes nothing. -/
theorem guarded_eq (h : env.Invariant R Q) (hallowed : ∀ mixin, Q mixin → guard.allowed mixin) (depth : Nat)
    {forest : Forest Line} (hpoint : R ⟨[], forest, id, scopes⟩) (hscopes : scopes.Holding Q id) :
    env.guarded guard depth forest id scopes = env.expand depth forest id scopes := by
  induction depth generalizing forest id scopes with
  | zero => rfl
  | succ depth ih => exact h.guardedForest_eq hallowed (fun _ _ _ => ih) hpoint hscopes

end Invariant

end Environment

end Scl
