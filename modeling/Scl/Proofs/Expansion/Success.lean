import Mathlib.Data.List.Induction
import Scl.Proofs.Expansion.Depth
import Scl.Proofs.Expansion.Steps

/-!
# Expansions that succeed

A call that succeeds has the output of the mixin's body, an import that of its files one after the other, and a forest
that of its lines. Since the depth does not decide an outcome, where a step leads and what a point yields is unique.

* `Expansion.expandCall_eq_ok`, `Expansion.expandImport_eq_ok`: from a call or an import to what it enters;
* `Expansion.expandAll_induction`: what holds of the output of each file holds of the output of all;
* `Environment.Yields`: the output from a point on.
-/

namespace Scl

namespace Expansion

open Environment

variable {env : Environment} {depth : Nat} {run : Expander} {line : Line} {below : Forest Line} {id : Nat}
  {scopes after : Scopes} {output : Output}

/-! ## Calls and imports that succeed -/

theorem expandCall_eq_ok {name : Text} {arguments : List Token} (hline : line.statement = .ok (.call name arguments))
    (hname : name ≠ importName)
    (h : env.expandCall run line below name arguments id scopes = some (.ok output, after)) :
    below = .nil ∧ ∃ mixin bound last, env.Invokes line id scopes mixin bound ∧
      run mixin.body scopes.count bound = some (.ok output, last) := by
  rw [expandCall_apply] at h
  cases hmixin : scopes.mixin? id name with
  | none => rw [hmixin] at h; cases h
  | some mixin =>
    rw [hmixin, callMixin] at h
    split at h
    · cases h
    · rename_i hbelow
      obtain ⟨values, between, hask, hcall⟩ := bind_eq_ok h
      obtain ⟨hvalues, rfl⟩ := ask_eq_ok hask
      split at hcall
      · cases hcall
      · rename_i htakes
        obtain ⟨last, hinvoke, -⟩ := inScope_eq_some hcall
        obtain ⟨slots, start, hslots, hbind⟩ := bind_eq_ok hinvoke
        obtain ⟨hok, rfl⟩ := ofCause_eq_ok hslots
        obtain ⟨done, bound, hbinding, hbody⟩ := bind_eq_ok hbind
        have hinvokes : env.Invokes line id between mixin bound :=
          ⟨name, arguments, values, slots, hline, hname, hmixin, hvalues, by simpa using htakes,
            Except.mapError_eq_ok.mp hok, binding_eq_ok hbinding⟩
        exact ⟨eq_nil_of_not_isEmpty hbelow, mixin, bound, last, hinvokes, nested_eq_ok hbody⟩

theorem expandImport_eq_ok {arguments : List Token} (hline : line.statement = .ok (.call importName arguments))
    (h : env.expandImport run line below arguments id scopes = some (.ok output, after)) :
    below = .nil ∧ ∃ paths, env.Resolves line id scopes paths ∧
      env.files.expandAll run id paths scopes = some (.ok output, after) := by
  rw [expandImport_eq] at h
  split at h
  · cases h
  · rename_i hbelow
    obtain ⟨pattern, between, hask, hfiles⟩ := bind_eq_ok h
    obtain ⟨hpattern, rfl⟩ := ask_eq_ok hask
    rw [importFiles] at hfiles
    rcases hpaths : env.files.firstMatch (Path.candidates env.includePaths line.location.file pattern) with
      error | _ | ⟨path, others⟩ <;> rw [hpaths] at hfiles
    · cases hfiles
    · cases hfiles
    · exact ⟨eq_nil_of_not_isEmpty hbelow, _, ⟨arguments, pattern, hline, hpattern, hpaths⟩, nested_eq_ok hfiles⟩

/-- A property of outputs that can be appended holds of that of files, if it holds of each one's, which is expanded
after those before it. -/
theorem expandAll_induction {P : Output → Prop} (hnil : P .nil) (happend : ∀ {x y}, P x → P y → P (x ++ y))
    {paths : List Text}
    (hfile : ∀ {before path rest forest between output last}, paths = before ++ path :: rest →
      env.PassesAll before id scopes between → env.files.load path = .ok forest →
      env.expand depth forest id between = some (.ok output, last) → P output)
    (h : env.files.expandAll (env.expand depth) id paths scopes = some (.ok output, after)) : P output := by
  -- From the last file to the first, so that the files before each one are those that have passed.
  induction paths using List.reverseRecOn generalizing output after with
  | nil =>
    cases h
    exact hnil
  | append_singleton paths path ih =>
    rw [expandAll_append] at h
    obtain ⟨first, between, hfirst, hrest⟩ := bind_eq_ok h
    obtain ⟨others, last, hothers, hpure⟩ := bind_eq_ok hrest
    cases hpure
    refine happend (ih (fun {before _ rest _ _ _ _} hsplit => ?_) hfirst) ?_
    · exact @hfile before _ (rest ++ [path]) _ _ _ _ (by rw [hsplit, List.append_assoc]; rfl)
    · cases hload : env.files.load path with
      | error e =>
        rw [expandAll_error hload] at hothers
        cases hothers
      | ok forest =>
        rw [expandAll_cons hload] at hothers
        obtain ⟨output, middle, hrun, hnone⟩ := bind_eq_ok hothers
        cases hnone
        rw [Output.append_nil]
        exact hfile rfl ⟨depth, first, hfirst⟩ hload hrun

end Expansion

/-! ## Unique outcomes -/

namespace Environment

open Expansion

/-- The expansion from a point on succeeds with an output. -/
def Yields (env : Environment) (p : Point) (output : Output) : Prop :=
  ∃ depth after, env.expandForest (env.expand depth) p.above p.forest p.id p.scopes = some (.ok output, after)

variable {env : Environment} {p : Point} {line : Line} {id : Nat} {scopes : Scopes} {output : Output}

theorem Invokes.unique {mixin mixin' : Mixin} {bound bound' : Scopes} (h : env.Invokes line id scopes mixin bound)
    (h' : env.Invokes line id scopes mixin' bound') : mixin = mixin' ∧ bound = bound' := by
  obtain ⟨name, arguments, values, slots, hline, -, hmixin, hvalues, -, hslots, hbound⟩ := h
  obtain ⟨name', arguments', values', slots', hline', -, hmixin', hvalues', -, hslots', hbound'⟩ := h'
  cases hline.symm.trans hline'
  cases hmixin.symm.trans hmixin'
  cases hvalues.symm.trans hvalues'
  cases hslots.symm.trans hslots'
  cases hbound.symm.trans hbound'
  exact ⟨rfl, rfl⟩

theorem Resolves.unique {paths paths' : List Text} (h : env.Resolves line id scopes paths)
    (h' : env.Resolves line id scopes paths') : paths = paths' := by
  obtain ⟨arguments, pattern, hline, hpattern, hpaths⟩ := h
  obtain ⟨arguments', pattern', hline', hpattern', hpaths'⟩ := h'
  cases hline.symm.trans hline'
  cases hpattern.symm.trans hpattern'
  exact Except.ok.inj (hpaths.symm.trans hpaths')

theorem Passes.unique {above : List Line} {below : Forest Line} {after after' : Scopes}
    (h : env.Passes above line below id scopes after) (h' : env.Passes above line below id scopes after') :
    after = after' := by
  obtain ⟨depth, output, h⟩ := h
  obtain ⟨depth', output', h'⟩ := h'
  have hsettles : ∀ {depth depth'}, depth ≤ depth' → Settles
      (env.expandLine (env.expand depth) (env.expandForest (env.expand depth) [] below) above line below id)
      (env.expandLine (env.expand depth') (env.expandForest (env.expand depth') [] below) above line below id) := by
    intro depth depth' hle
    have hrun := settles_expand env hle
    exact settles_expandLine hrun (settles_expandForest hrun [] below) above line below id
  exact congrArg Prod.snd (outcome_unique hsettles h h')

theorem PassesAll.unique {paths : List Text} {after after' : Scopes} (h : env.PassesAll paths id scopes after)
    (h' : env.PassesAll paths id scopes after') : after = after' := by
  obtain ⟨depth, output, h⟩ := h
  obtain ⟨depth', output', h'⟩ := h'
  exact congrArg Prod.snd
    (outcome_unique (fun hle => settles_expandAll (settles_expand env hle) env.files id paths) h h')

namespace Yields

theorem unique {output' : Output} (h : env.Yields p output) (h' : env.Yields p output') : output = output' := by
  obtain ⟨depth, after, h⟩ := h
  obtain ⟨depth', after', h'⟩ := h'
  have houtcome := outcome_unique
    (fun hle => settles_expandForest (settles_expand env hle) p.above p.forest p.id) h h'
  exact Except.ok.inj (congrArg Prod.fst houtcome)

theorem of_expand {depth : Nat} {forest : Forest Line} {after : Scopes}
    (h : env.expand depth forest id scopes = some (.ok output, after)) :
    env.Yields ⟨[], forest, id, scopes⟩ output := by
  cases depth with
  | zero => cases h
  | succ depth => exact ⟨depth, after, h⟩

theorem cons_inv {above : List Line} {below next : Forest Line}
    (h : env.Yields ⟨above, .cons line below next, id, scopes⟩ output) :
    ∃ depth here after rest, env.expandLine (env.expand depth) (env.expandForest (env.expand depth) [] below) above
        line below id scopes = some (.ok here, after) ∧
      env.Yields ⟨line :: above, next, id, after⟩ rest ∧ output = here ++ rest := by
  obtain ⟨depth, last, h⟩ := h
  obtain ⟨here, after, hline, hrest⟩ := bind_eq_ok h
  obtain ⟨rest, last, hnext, hpure⟩ := bind_eq_ok hrest
  cases hpure
  exact ⟨depth, here, after, rest, hline, ⟨depth, last, hnext⟩, rfl⟩

end Yields

end Environment

end Scl
