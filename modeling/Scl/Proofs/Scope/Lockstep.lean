import Mathlib.Data.List.Forall2
import Scl.Proofs.Expansion.Parts

/-!
# Scopes in lockstep

Two stacks of scopes of the same numbers, parents and values, whose mixins differ in nothing that a call can
notice but their bodies, and those are related by `alike`. What can be read off them is the same, and the same
changes keep them so:

* `Scopes.Lockstep.fill_eq`, `evaluate_eq`, `importPattern_eq`: the same values;
* `Scopes.Lockstep.enter`, `release`, `setVariable`, `setMixin`, `bind`: the same changes.
-/

namespace Scl

variable {alike : Forest Line → Forest Line → Prop}

/-- Mixins that differ in where they stand, and in bodies that are related. -/
structure Mixin.SameCall (alike : Forest Line → Forest Line → Prop) (mixin other : Mixin) : Prop where
  name : mixin.name = other.name
  parameters : mixin.parameters = other.parameters
  scope : mixin.scope = other.scope
  body : alike mixin.body other.body

/-- Scopes with the same parent and values, and mixins of the same calls. -/
structure Scope.Lockstep (alike : Forest Line → Forest Line → Prop) (scope other : Scope) : Prop where
  parent : scope.parent? = other.parent?
  values : scope.values = other.values
  mixins : List.Forall₂ (fun bound bound' => bound.1 = bound'.1 ∧ bound.2.SameCall alike bound'.2)
    scope.mixins other.mixins

namespace Scope.Lockstep

variable {scope other : Scope}

theorem child (h : Scope.Lockstep alike scope other) (inheritance : Inheritance) (id : Nat) :
    Scope.Lockstep alike (scope.child inheritance id) (other.child inheritance id) := by
  cases inheritance with
  | copied => exact ⟨rfl, h.values, h.mixins⟩
  | linked => exact ⟨rfl, rfl, .nil⟩

theorem find?_mixins (h : Scope.Lockstep alike scope other) (name : Text) :
    Option.Rel (Mixin.SameCall alike) (scope.mixins.find? name) (other.mixins.find? name) := by
  have hmixins := h.mixins
  generalize scope.mixins = mixins at hmixins
  generalize other.mixins = mixins' at hmixins
  induction hmixins with
  | nil => exact .none
  | cons hbound _ ih =>
    simp only [Bindings.find?, hbound.1]
    split
    · exact .some hbound.2
    · exact ih

end Scope.Lockstep

namespace Scopes

/-- Stacks of scopes in lockstep. -/
inductive Lockstep (alike : Forest Line → Forest Line → Prop) : Scopes → Scopes → Prop
  | empty : Lockstep alike .empty .empty
  | push {s t : Scopes} {scope other : Scope} : Lockstep alike s t → scope.Lockstep alike other →
    Lockstep alike (s.push scope) (t.push other)

namespace Lockstep

variable {s t : Scopes}

theorem refl (halike : ∀ forest, alike forest forest) (s : Scopes) : Lockstep alike s s := by
  induction s with
  | empty => exact .empty
  | push older scope ih =>
    exact .push ih ⟨rfl, rfl, List.forall₂_same.mpr fun bound _ => ⟨rfl, rfl, rfl, rfl, halike bound.2.body⟩⟩

theorem count_eq (h : Lockstep alike s t) : s.count = t.count := by
  induction h with
  | empty => rfl
  | push _ _ ih => exact congrArg (· + 1) ih

/-! ## Lookups -/

theorem look {α : Type} {R : α → α → Prop} (find : Scope → Option α)
    (hfind : ∀ {scope other}, Scope.Lockstep alike scope other → Option.Rel R (find scope) (find other))
    (h : Lockstep alike s t) (id : Nat) : Option.Rel R (s.look find id) (t.look find id) := by
  induction h generalizing id with
  | empty => exact .none
  | @push s t scope other holder hscope ih =>
    rw [look_push, look_push, holder.count_eq, hscope.parent]
    split
    · have hfound := hfind hscope
      generalize find scope = first at hfound
      generalize find other = second at hfound
      cases hfound with
      | some hrel => exact .some hrel
      | none =>
        cases other.parent? with
        | some parent => exact ih parent
        | none => exact .none
    · exact ih id

theorem value?_eq (h : Lockstep alike s t) (id : Nat) : s.value? id = t.value? id := by
  funext name
  have hlook : Option.Rel Eq (s.value? id name) (t.value? id name) := by
    refine h.look (·.values.find? name) (fun {scope other} hscope => ?_) id
    rw [hscope.values]
    cases other.values.find? name with
    | none => exact .none
    | some value => exact .some rfl
  generalize s.value? id name = first at hlook
  generalize t.value? id name = second at hlook
  cases hlook with
  | none => rfl
  | some heq => rw [heq]

theorem mixin? (h : Lockstep alike s t) (id : Nat) (name : Text) :
    Option.Rel (Mixin.SameCall alike) (s.mixin? id name) (t.mixin? id name) :=
  h.look (·.mixins.find? name) (fun hscope => hscope.find?_mixins name) id

/-! ## Changes -/

theorem modify (h : Lockstep alike s t) {f g : Scope → Scope} (id : Nat)
    (hfg : ∀ scope other, Scope.Lockstep alike scope other → Scope.Lockstep alike (f scope) (g other)) :
    Lockstep alike (s.modify f id) (t.modify g id) := by
  induction h with
  | empty => exact .empty
  | push holder hscope ih =>
    rw [modify_push, modify_push, holder.count_eq]
    split
    · exact .push holder (hfg _ _ hscope)
    · exact .push ih hscope

theorem setVariable (h : Lockstep alike s t) (id : Nat) (name value : Text) :
    Lockstep alike (s.setVariable id name value) (t.setVariable id name value) := by
  refine h.modify id fun scope other hscope => ⟨hscope.parent, ?_, hscope.mixins⟩
  rw [hscope.values]

theorem setMixin (h : Lockstep alike s t) (id : Nat) {mixin other : Mixin} (hmixin : mixin.SameCall alike other) :
    Lockstep alike (s.setMixin id mixin) (t.setMixin id other) :=
  h.modify id fun _ _ hscope => ⟨hscope.parent, hscope.values, .cons ⟨hmixin.name, hmixin⟩ hscope.mixins⟩

theorem enter (h : Lockstep alike s t) (inheritance : Inheritance) (id : Nat) :
    Lockstep alike (s.enter inheritance id) (t.enter inheritance id) := by
  refine .push h (Scope.Lockstep.child ?_ inheritance id)
  have hscope : Option.Rel (Scope.Lockstep alike) (s.scope? id) (t.scope? id) := h.look some .some id
  generalize s.scope? id = first at hscope
  generalize t.scope? id = second at hscope
  cases hscope with
  | none => exact ⟨rfl, rfl, .nil⟩
  | some hrel => exact hrel

theorem iff_forall₂ : Lockstep alike s t ↔ List.Forall₂ (Scope.Lockstep alike) s.stack t.stack := by
  constructor
  · intro h
    induction h with
    | empty => exact .nil
    | push _ hscope ih => exact .cons hscope ih
  · intro h
    induction s generalizing t with
    | empty =>
      cases t using push_induction with
      | empty => exact .empty
      | push => cases h
    | push older scope ih =>
      cases t using push_induction with
      | empty => cases h
      | push =>
        obtain ⟨hscope, holder⟩ := List.forall₂_cons.mp h
        exact .push (ih holder) hscope

theorem release (h : Lockstep alike s t) (id : Nat) : Lockstep alike (s.release id) (t.release id) := by
  rw [Scopes.release, Scopes.release]
  split
  · exact h
  · rw [iff_forall₂]
    show List.Forall₂ _ (s.stack.drop (s.count - id)) (t.stack.drop (t.count - id))
    rw [h.count_eq]
    exact List.forall₂_drop _ (iff_forall₂.mp h)

/-! ## Values -/

theorem fill_eq (h : Lockstep alike s t) (id : Nat) (text : Text) : s.fill id text = t.fill id text := by
  rw [fill, fill, h.value?_eq id]

theorem declared_eq (h : Lockstep alike s t) (id : Nat) (name : Text) :
    s.declared id name = t.declared id name := by
  rw [declared, declared, h.value?_eq id]

theorem evaluate_eq (h : Lockstep alike s t) (id : Nat) (arguments : List Argument) :
    s.evaluate id arguments = t.evaluate id arguments := by
  induction arguments with
  | nil => rfl
  | cons argument rest ih =>
    cases argument with
    | named name value => simp only [evaluate, h.fill_eq id, ih]
    | single token => simp only [evaluate, h.fill_eq id, h.declared_eq id, ih]

theorem importPattern_eq (h : Lockstep alike s t) (id : Nat) (arguments : List Token) :
    s.importPattern id arguments = t.importPattern id arguments := by
  unfold importPattern
  split
  · rw [h.fill_eq id, h.declared_eq id]
  · rfl

theorem slotValue_eq_ok (h : Lockstep alike s t) {mixin : Mixin} {location : Location} {id : Nat} {slot : Slot}
    {value : Text} (hvalue : Expansion.slotValue mixin location id s slot = .ok value) (other : Mixin)
    (location' : Location) : Expansion.slotValue other location' id t slot = .ok value := by
  obtain ⟨⟨name, default?⟩, given?⟩ := slot
  match given?, default? with
  | some given, _ => exact hvalue
  | none, none => cases hvalue
  | none, some default =>
    simp only [Expansion.slotValue, h.fill_eq id] at hvalue ⊢
    cases hfill : t.fill id default with
    | error cause => rw [hfill] at hvalue; cases hvalue
    | ok filled =>
      rw [hfill] at hvalue
      exact hvalue

/-- Parameters that can be bound on one side can be bound on the other, wherever mixin and call stand. -/
theorem bind (h : Lockstep alike s t) {mixin : Mixin} {location : Location} {id : Nat} {slots : List Slot}
    {bound : Scopes} (hbind : Scopes.bind mixin location id slots s = .ok bound) (other : Mixin)
    (location' : Location) :
    ∃ bound', Scopes.bind other location' id slots t = .ok bound' ∧ Lockstep alike bound bound' := by
  induction slots generalizing s t with
  | nil =>
    cases hbind
    exact ⟨t, rfl, h⟩
  | cons slot rest ih =>
    rw [Expansion.bind_cons] at hbind
    cases hvalue : Expansion.slotValue mixin location id s slot with
    | error e => rw [hvalue] at hbind; cases hbind
    | ok value =>
      rw [hvalue] at hbind
      rw [Expansion.bind_cons, h.slotValue_eq_ok hvalue other location']
      exact ih (h.setVariable id slot.1.name value) hbind

end Lockstep

end Scopes

end Scl
