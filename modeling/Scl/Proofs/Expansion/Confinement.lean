import Scl.Proofs.Expansion.Parts
import Scl.Proofs.Scope.Stack

/-!
# Expansion changes only the newest scope

A computation in a scope is `Confined` if, run while that scope is the newest one, it changes no other
scope and only adds to its own, whatever its outcome. A block or a call then leaves all scopes as they
were (`inScope_apply`), since the scope that it opens is released again.

* `Keeps`: a computation that keeps a property of the scopes, with a rule for each way to put computations
  together;
* `keeps_expandCall`: a call keeps every property, so it changes nothing;
* `confined_expand`: the expansion of a forest, at any depth of calls and imports, is confined.
-/

namespace Scl.Expansion

variable {α β : Type}

/-! ## Computations that keep a property of the scopes -/

/-- A computation after which a property of the scopes holds again, whatever the outcome. -/
def Keeps (I : Scopes → Prop) (x : Expansion α) : Prop :=
  ∀ scopes, I scopes → ∀ result after, x scopes = some (result, after) → I after

namespace Keeps

variable {I : Scopes → Prop}

theorem pure (a : α) : Keeps I (Pure.pure a : Expansion α) := by
  intro scopes hI result after h
  cases h
  exact hI

theorem bind {x : Expansion α} {f : α → Expansion β} (hx : Keeps I x) (hf : ∀ a, Keeps I (f a)) :
    Keeps I (x >>= f) := by
  intro scopes hI result after h
  rw [bind_apply] at h
  cases hr : x scopes with
  | none => rw [hr] at h; cases h
  | some pair =>
    obtain ⟨outcome, between⟩ := pair
    have hbetween := hx scopes hI outcome between hr
    rw [hr] at h
    cases outcome with
    | ok a => exact hf a between hbetween result after h
    | error e => cases h; exact hbetween

theorem throw (e : Error) : Keeps I (MonadExcept.throw e : Expansion α) := by
  intro scopes hI result after h
  cases h
  exact hI

theorem fail (location : Location) (cause : Cause) : Keeps I (fail location cause : Expansion α) :=
  throw _

theorem reading (read : Scopes → α) : Keeps I (reading read) := by
  intro scopes hI result after h
  cases h
  exact hI

theorem ofCause (location : Location) (x : Except Cause α) : Keeps I (ofCause location x) := by
  cases x with
  | ok a => exact pure a
  | error cause => exact fail location cause

/-- What follows a result may rely on where the result comes from. -/
theorem bind_ofCause {location : Location} {x : Except Cause α} {f : α → Expansion β}
    (h : ∀ a, x = .ok a → Keeps I (f a)) : Keeps I (Expansion.ofCause location x >>= f) := by
  cases x with
  | ok a => exact h a rfl
  | error cause => exact fail location cause

theorem ask (location : Location) (read : Scopes → Except Cause α) : Keeps I (ask location read) :=
  .bind (.reading read) fun x => .ofCause location x

theorem ite {c : Prop} [Decidable c] {x y : Expansion α} (hx : Keeps I x) (hy : Keeps I y) :
    Keeps I (if c then x else y) := by
  split
  · exact hx
  · exact hy

theorem ofExcept (x : Except Error α) : Keeps I (MonadExcept.ofExcept x : Expansion α) := by
  cases x with
  | ok a => exact pure a
  | error e => exact throw e

theorem nested (location : Location) {x : Expansion α} (hx : Keeps I x) : Keeps I (nested location x) := by
  intro scopes hI result after h
  rw [nested_apply] at h
  cases hr : x scopes with
  | none => rw [hr] at h; cases h
  | some pair =>
    obtain ⟨outcome, between⟩ := pair
    have hbetween := hx scopes hI outcome between hr
    rw [hr] at h
    cases outcome <;> cases h <;> exact hbetween

theorem modify {f : Scopes → Scopes} (hf : ∀ scopes, I scopes → I (f scopes)) :
    Keeps I (modify f : Expansion PUnit) := by
  intro scopes hI result after h
  cases h
  exact hf scopes hI

end Keeps

/-! ## Computations confined to the newest scope -/

/-- The scopes `older` with one more, which is `scope` or has grown from it. -/
def Above (older : Scopes) (scope : Scope) (scopes : Scopes) : Prop :=
  ∃ grown, scopes = older.push grown ∧ scope.Extends older.count grown

theorem Above.refl (older : Scopes) (scope : Scope) : Above older scope (older.push scope) :=
  ⟨scope, rfl, .refl _ _⟩

theorem Above.newest {older scopes : Scopes} {scope : Scope} (h : Above older scope scopes) :
    older.count + 1 = scopes.count := by
  obtain ⟨grown, rfl, -⟩ := h
  rfl

theorem Above.pos {older scopes : Scopes} {scope : Scope} (h : Above older scope scopes) :
    0 < scopes.count := by
  have := h.newest
  omega

theorem Above.setVariable {older scopes : Scopes} {scope : Scope} (h : Above older scope scopes)
    (name value : Text) : Above older scope (scopes.setVariable older.count name value) := by
  obtain ⟨grown, rfl, hgrown⟩ := h
  exact ⟨_, Scopes.setVariable_push .., hgrown.insertValue name value⟩

theorem Above.setMixin {older scopes : Scopes} {scope : Scope} (h : Above older scope scopes)
    {mixin : Mixin} (hm : mixin.scope = older.count) :
    Above older scope (scopes.setMixin older.count mixin) := by
  obtain ⟨grown, rfl, hgrown⟩ := h
  exact ⟨_, Scopes.setMixin_push .., hgrown.insertMixin hm⟩

/-- A computation in a scope that changes nothing but that scope, as long as it is the newest one, and
there only adds bindings. -/
def Confined (body : Nat → Expansion α) : Prop :=
  ∀ older scope, Keeps (Above older scope) (body older.count)

/-- A confined computation in a scope of its own leaves the scopes as they were. -/
theorem inScope_apply {body : Nat → Expansion α} (hb : Confined body) (inheritance : Inheritance)
    (parent : Nat) {scopes : Scopes} (h : 0 < scopes.count) :
    inScope inheritance parent body scopes =
      (body scopes.count (scopes.enter inheritance parent)).map fun (result, _) => (result, scopes) := by
  rw [inScope]
  cases hr : body scopes.count (scopes.enter inheritance parent) with
  | none => rfl
  | some pair =>
    obtain ⟨result, after⟩ := pair
    obtain ⟨grown, rfl, -⟩ := hb scopes _ _ (.refl scopes _) result after hr
    simp only [Option.map_some, Scopes.release_push grown h]

theorem keeps_inScope {I : Scopes → Prop} (hI : ∀ scopes, I scopes → 0 < scopes.count)
    {body : Nat → Expansion α} (hb : Confined body) (inheritance : Inheritance) (parent : Nat) :
    Keeps I (inScope inheritance parent body) := by
  intro scopes hscopes result after h
  rw [inScope_apply hb inheritance parent (hI scopes hscopes), Option.map_eq_some_iff] at h
  obtain ⟨pair, -, heq⟩ := h
  cases heq
  exact hscopes

/-! ## Lines -/

theorem Above.bind {older : Scopes} {scope : Scope} {mixin : Mixin} {location : Location}
    {slots : List Slot} {scopes bound : Scopes} (h : Above older scope scopes)
    (hbound : Scopes.bind mixin location older.count slots scopes = .ok bound) :
    Above older scope bound := by
  induction slots generalizing scopes with
  | nil =>
    cases hbound
    exact h
  | cons slot rest ih =>
    rw [bind_cons] at hbound
    cases hvalue : slotValue mixin location older.count scopes slot with
    | error e => rw [hvalue] at hbound; cases hbound
    | ok value =>
      rw [hvalue] at hbound
      exact ih (h.setVariable slot.1.name value) hbound

theorem confined_binding (mixin : Mixin) (location : Location) (slots : List Slot) :
    Confined (binding mixin location · slots) := by
  intro older scope scopes hscopes result after h
  simp only [binding_apply] at h
  cases hb : Scopes.bind mixin location older.count slots scopes with
  | ok bound =>
    rw [hb] at h
    cases h
    exact hscopes.bind hb
  | error e =>
    rw [hb] at h
    cases h
    exact hscopes

variable {run : Expander}

theorem confined_invoke (hrun : ∀ forest, Confined (run forest)) (location : Location) (mixin : Mixin)
    (values : Values) : Confined (invoke run location mixin values) :=
  fun older scope =>
    .bind (.ofCause location _) fun slots =>
      .bind (confined_binding mixin location slots older scope) fun _ =>
        .nested location (hrun mixin.body older scope)

/-- A call changes no scope at all. -/
theorem keeps_expandCall (hrun : ∀ forest, Confined (run forest)) {I : Scopes → Prop}
    (hI : ∀ scopes, I scopes → 0 < scopes.count) (env : Environment) (line : Line) (below : Forest Line)
    (name : Text) (arguments : List Token) (id : Nat) :
    Keeps I (env.expandCall run line below name arguments id) := by
  rw [expandCall_eq]
  refine .bind (.reading _) fun mixin? => ?_
  cases mixin? with
  | none => exact .fail line.location _
  | some mixin =>
    refine .ite (.fail line.location _) (.bind (.ask line.location _) fun values => ?_)
    refine .ite (.fail line.location _) ?_
    exact keeps_inScope hI (confined_invoke hrun line.location mixin values) env.inheritance mixin.scope

theorem confined_expandAll (hrun : ∀ forest, Confined (run forest)) (files : FileSystem)
    (paths : List Text) : Confined fun id => files.expandAll run id paths := by
  intro older scope
  induction paths with
  | nil => exact .pure Output.nil
  | cons path rest ih =>
    refine .bind (.ofExcept _) fun forest => .bind (hrun forest older scope) fun first => ?_
    exact .bind ih fun others => .pure (first ++ others)

theorem confined_expandImport (hrun : ∀ forest, Confined (run forest)) (env : Environment) (line : Line)
    (below : Forest Line) (arguments : List Token) :
    Confined (env.expandImport run line below arguments) := by
  intro older scope
  rw [expandImport_eq]
  refine .ite (.fail line.location _) (.bind (.ask line.location _) fun pattern => ?_)
  rw [importFiles]
  split
  · exact .throw _
  · exact .fail line.location _
  · exact .nested line.location (confined_expandAll hrun env.files _ older scope)

/-- A literal changes no scope at all, whether it opens a block or not. -/
theorem keeps_literal {I : Scopes → Prop} (hI : ∀ scopes, I scopes → 0 < scopes.count)
    {inside : Nat → Expansion Output} (hinside : Confined inside) (inheritance : Inheritance) (line : Line)
    (below : Forest Line) (text : Text) (id : Nat) :
    Keeps I (literal inheritance inside line below text id) := by
  refine .bind (.ask line.location _) fun text => .ite (.pure (Output.leaf text)) ?_
  exact .bind (keeps_inScope hI hinside inheritance id) fun body => .pure (Output.block text body .nil)

theorem confined_assignment (line : Line) (below : Forest Line) (name value : Text) :
    Confined (assignment line below name value) := by
  intro older scope
  refine .ite (.fail line.location _) (.bind (.ask line.location _) fun value => ?_)
  exact .bind (.modify fun scopes h => h.setVariable name value) fun _ => .pure _

theorem confined_declaration (above : List Line) (line : Line) (below : Forest Line) (name : Text)
    (arguments : List Token) : Confined (declaration above line below name arguments) := by
  intro older scope
  refine .bind (.ofCause line.location _) fun parameters => ?_
  exact .bind (.modify fun scopes h => h.setMixin rfl) fun _ => .pure Output.nil

theorem confined_expandLine (hrun : ∀ forest, Confined (run forest)) {inside : Nat → Expansion Output}
    (hinside : Confined inside) (env : Environment) (above : List Line) (line : Line)
    (below : Forest Line) : Confined (env.expandLine run inside above line below) := by
  intro older scope
  have hpos : ∀ scopes, Above older scope scopes → 0 < scopes.count := fun _ => Above.pos
  rw [expandLine_eq]
  split
  · exact .fail line.location _
  · exact hinside older scope
  · exact keeps_literal hpos hinside env.inheritance line below _ older.count
  · exact confined_assignment line below _ _ older scope
  · exact confined_declaration above line below _ _ older scope
  · refine .ite (confined_expandImport hrun env line below _ older scope) ?_
    exact keeps_expandCall hrun hpos env line below _ _ older.count

theorem confined_expandForest (hrun : ∀ forest, Confined (run forest)) (env : Environment)
    (above : List Line) (forest : Forest Line) : Confined (env.expandForest run above forest) := by
  induction forest generalizing above with
  | nil => exact fun older scope => .pure Output.nil
  | cons line below next ihBelow ihNext =>
    intro older scope
    refine .bind (confined_expandLine hrun (ihBelow []) env above line below older scope) fun here => ?_
    exact .bind (ihNext (line :: above) older scope) fun rest => .pure (here ++ rest)

/-- The expansion of a forest changes only its own scope, however deeply calls and imports are nested. -/
theorem confined_expand (env : Environment) (depth : Nat) (forest : Forest Line) :
    Confined (env.expand depth forest) := by
  induction depth generalizing forest with
  | zero => exact fun older scope scopes _ result after h => nomatch h
  | succ depth ih => exact confined_expandForest ih env [] forest

end Scl.Expansion
