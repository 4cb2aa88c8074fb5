import Scl.Proofs.Expansion.Parts

/-!
# Deeper expansions

How deeply calls and imports may be nested decides only whether an expansion has an outcome, not which one.

* `Settles`: one computation has the outcome of another, whenever that has any, with a rule for each way to put
  computations together;
* `settles_expand`: a deeper expansion has the outcomes of a shallower one;
* `outcome_unique`: so expansions at any two depths have the same outcome, if both have one.
-/

namespace Scl.Expansion

variable {α β : Type}

/-- If the first computation has an outcome, the second one has the same. -/
def Settles (x y : Expansion α) : Prop :=
  ∀ scopes outcome, x scopes = some outcome → y scopes = some outcome

namespace Settles

variable {x y : Expansion α}

theorem refl (x : Expansion α) : Settles x x :=
  fun _ _ h => h

theorem bind {f g : α → Expansion β} (h : Settles x y) (hfg : ∀ a, Settles (f a) (g a)) :
    Settles (x >>= f) (y >>= g) := by
  intro scopes outcome hbind
  rw [bind_apply] at hbind ⊢
  cases hx : x scopes with
  | none => rw [hx] at hbind; cases hbind
  | some pair =>
    rw [h scopes pair hx]
    rw [hx] at hbind
    obtain ⟨result, between⟩ := pair
    cases result with
    | ok a => exact hfg a between outcome hbind
    | error e => exact hbind

theorem ite {c : Prop} [Decidable c] {x' y' : Expansion α} (h : Settles x y) (h' : Settles x' y') :
    Settles (if c then x else x') (if c then y else y') := by
  split
  · exact h
  · exact h'

theorem nested (location : Location) (h : Settles x y) :
    Settles (nested location x) (Expansion.nested location y) := by
  intro scopes outcome hnested
  rw [nested_apply] at hnested ⊢
  cases hx : x scopes with
  | none => rw [hx] at hnested; cases hnested
  | some pair =>
    rw [h scopes pair hx]
    rw [hx] at hnested
    exact hnested

theorem inScope (inheritance : Inheritance) (parent : Nat) {body body' : Nat → Expansion α}
    (h : ∀ id, Settles (body id) (body' id)) :
    Settles (inScope inheritance parent body) (Expansion.inScope inheritance parent body') := by
  intro scopes outcome hscope
  rw [Expansion.inScope] at hscope ⊢
  cases hbody : body scopes.count (scopes.enter inheritance parent) with
  | none => rw [hbody] at hscope; cases hscope
  | some pair =>
    rw [h scopes.count _ pair hbody]
    rw [hbody] at hscope
    exact hscope

end Settles

/-! ## Lines and forests -/

variable {env : Environment} {run run' : Expander}

theorem settles_callMixin (hrun : ∀ forest id, Settles (run forest id) (run' forest id))
    (inheritance : Inheritance) (line : Line) (below : Forest Line) (name : Text) (arguments : List Token)
    (id : Nat) (mixin? : Option Mixin) :
    Settles (callMixin inheritance run line below name arguments id mixin?)
      (callMixin inheritance run' line below name arguments id mixin?) := by
  cases mixin? with
  | none => exact .refl _
  | some mixin =>
    refine .ite (.refl _) (.bind (.refl _) fun values => .ite (.refl _) (.inScope inheritance mixin.scope ?_))
    exact fun id => .bind (.refl _) fun slots => .bind (.refl _) fun _ =>
      .nested line.location (hrun mixin.body id)

theorem settles_expandAll (hrun : ∀ forest id, Settles (run forest id) (run' forest id)) (files : FileSystem)
    (id : Nat) (paths : List Text) : Settles (files.expandAll run id paths) (files.expandAll run' id paths) := by
  induction paths with
  | nil => exact .refl _
  | cons path rest ih =>
    exact .bind (.refl _) fun forest => .bind (hrun forest id) fun first => .bind ih fun others => .refl _

theorem settles_importFiles (hrun : ∀ forest id, Settles (run forest id) (run' forest id)) (id : Nat)
    (line : Line) (pattern : Text) :
    Settles (importFiles env run id line pattern) (importFiles env run' id line pattern) := by
  simp only [importFiles]
  split
  · exact .refl _
  · exact .refl _
  · exact .nested line.location (settles_expandAll hrun env.files id _)

theorem settles_expandLine (hrun : ∀ forest id, Settles (run forest id) (run' forest id))
    {inside inside' : Nat → Expansion Output} (hinside : ∀ id, Settles (inside id) (inside' id))
    (above : List Line) (line : Line) (below : Forest Line) (id : Nat) :
    Settles (env.expandLine run inside above line below id) (env.expandLine run' inside' above line below id) := by
  rw [expandLine_eq, expandLine_eq]
  cases line.statement with
  | error e => exact .refl _
  | ok statement =>
    cases statement with
    | comment text => exact hinside id
    | literal text =>
      refine .bind (.refl _) fun filled => .ite (.refl _) ?_
      exact .bind (.inScope env.inheritance id hinside) fun body => .refl _
    | assignment name value => exact .refl _
    | declaration name arguments => exact .refl _
    | call name arguments =>
      simp only [expandImport_eq, expandCall_eq]
      refine .ite (.ite (.refl _) (.bind (.refl _) fun pattern => settles_importFiles hrun id line pattern)) ?_
      exact .bind (.refl _) fun mixin? => settles_callMixin hrun env.inheritance line below name arguments id mixin?

theorem settles_expandForest (hrun : ∀ forest id, Settles (run forest id) (run' forest id)) (above : List Line)
    (forest : Forest Line) (id : Nat) :
    Settles (env.expandForest run above forest id) (env.expandForest run' above forest id) := by
  induction forest generalizing above id with
  | nil => exact .refl _
  | cons line below next ihBelow ihNext =>
    refine .bind (settles_expandLine hrun (ihBelow []) above line below id) fun here => ?_
    exact .bind (ihNext (line :: above) id) fun rest => .refl _

theorem settles_expand (env : Environment) {depth depth' : Nat} (hle : depth ≤ depth') (forest : Forest Line)
    (id : Nat) : Settles (env.expand depth forest id) (env.expand depth' forest id) := by
  induction depth generalizing depth' forest id with
  | zero => exact fun _ _ h => nomatch h
  | succ depth ih =>
    obtain ⟨deeper, rfl⟩ : ∃ deeper, depth' = deeper + 1 := ⟨depth' - 1, by omega⟩
    exact settles_expandForest (ih (Nat.le_of_succ_le_succ hle)) [] forest id

/-- Computations that settle at greater depths have at most one outcome. -/
theorem outcome_unique {x : Nat → Expansion α} (hx : ∀ {depth depth'}, depth ≤ depth' → Settles (x depth) (x depth'))
    {depth depth' : Nat} {scopes : Scopes} {outcome outcome' : Except Error α × Scopes}
    (h : x depth scopes = some outcome) (h' : x depth' scopes = some outcome') : outcome = outcome' := by
  have hmax := hx (Nat.le_max_left depth depth') scopes outcome h
  have hmax' := hx (Nat.le_max_right depth depth') scopes outcome' h'
  rw [hmax] at hmax'
  exact Option.some.inj hmax'

end Scl.Expansion
