import Scl.Scope.Basic

/-!
# Lookups on a stack of scopes

What a lookup sees after each operation on a stack, when only the newest scope is ever changed:

* `look_eq_bind`: a lookup is one step to a scope and then one to its parent, which is older;
* `value?_enter`, `mixin?_enter`: a new scope sees what its parent sees, whatever it starts with;
* `value?_setVariable`, `mixin?_setMixin`: a binding in the newest scope shows in no other scope.

Two notions for statements about stacks: `Scopes.Ordered`, by which everything that a scope refers to is
older than it, and `Scope.Extends`, by which a scope has gained bindings and lost none. Every operation
keeps the order (`Ordered.enter`, `Ordered.setVariable`, `Ordered.setMixin`).
-/

namespace Scl

/-- Scopes with the same parent that bind the same names to the same things. -/
structure Scope.Same (scope other : Scope) : Prop where
  parent : scope.parent? = other.parent?
  value (name : Text) : scope.values.find? name = other.values.find? name
  mixin (name : Text) : scope.mixins.find? name = other.mixins.find? name

/-- What assignments and declarations can make of scope number `id`: it keeps its parent and every name
that it binds, and a mixin that it did not bind before was declared in it. -/
structure Scope.Extends (id : Nat) (scope grown : Scope) : Prop where
  parent : grown.parent? = scope.parent?
  value (name : Text) : (scope.values.find? name).isSome → (grown.values.find? name).isSome
  mixin (name : Text) : (scope.mixins.find? name).isSome → (grown.mixins.find? name).isSome
  declared (name : Text) (mixin : Mixin) :
    grown.mixins.find? name = some mixin → scope.mixins.find? name = some mixin ∨ mixin.scope = id

namespace Scope.Extends

variable {id : Nat} {scope grown : Scope}

theorem refl (id : Nat) (scope : Scope) : scope.Extends id scope :=
  ⟨rfl, fun _ h => h, fun _ h => h, fun _ _ h => .inl h⟩

theorem insertValue (h : scope.Extends id grown) (name value : Text) :
    scope.Extends id { grown with values := grown.values.insert name value } := by
  refine ⟨h.parent, fun other hother => ?_, h.mixin, h.declared⟩
  rw [Bindings.find?_insert]
  split
  · rfl
  · exact h.value other hother

theorem insertMixin (h : scope.Extends id grown) {mixin : Mixin} (hm : mixin.scope = id) :
    scope.Extends id { grown with mixins := grown.mixins.insert mixin.name mixin } := by
  refine ⟨h.parent, h.value, fun other hother => ?_, fun other found hfound => ?_⟩
  · rw [Bindings.find?_insert]
    split
    · rfl
    · exact h.mixin other hother
  · rw [Bindings.find?_insert] at hfound
    split at hfound
    · cases hfound
      exact .inr hm
    · exact h.declared other found hfound

end Scope.Extends

namespace Scopes

/-- Everything that a scope refers to is there before it: its parent is older, and a mixin that it binds
was declared in it or in an older scope. -/
structure Ordered (scopes : Scopes) : Prop where
  parent {id parent : Nat} {scope : Scope} :
    scopes.scope? id = some scope → scope.parent? = some parent → parent < id
  mixin {id : Nat} {scope : Scope} {name : Text} {mixin : Mixin} :
    scopes.scope? id = some scope → scope.mixins.find? name = some mixin → mixin.scope ≤ id

/-! ## Stacks with a newest scope -/

theorem count_push (older : Scopes) (scope : Scope) : (older.push scope).count = older.count + 1 :=
  rfl

theorem eq_push_of_pos {scopes : Scopes} (h : 0 < scopes.count) :
    ∃ (older : Scopes) (scope : Scope), scopes = older.push scope := by
  induction scopes with
  | empty => exact absurd h (Nat.lt_irrefl 0)
  | push older scope => exact ⟨older, scope, rfl⟩

theorem eq_push_of_newest {scopes : Scopes} {id : Nat} (h : id + 1 = scopes.count) :
    ∃ (older : Scopes) (scope : Scope), scopes = older.push scope ∧ id = older.count := by
  have hpos : 0 < scopes.count := by omega
  obtain ⟨older, scope, rfl⟩ := eq_push_of_pos hpos
  rw [count_push] at h
  exact ⟨older, scope, rfl, by omega⟩

theorem setVariable_push (older : Scopes) (scope : Scope) (name value : Text) :
    (older.push scope).setVariable older.count name value =
      older.push { scope with values := scope.values.insert name value } := by
  rw [setVariable, modify_push, if_pos rfl]

theorem setMixin_push (older : Scopes) (scope : Scope) (mixin : Mixin) :
    (older.push scope).setMixin older.count mixin =
      older.push { scope with mixins := scope.mixins.insert mixin.name mixin } := by
  rw [setMixin, modify_push, if_pos rfl]

theorem release_push {older : Scopes} (scope : Scope) (h : 0 < older.count) :
    (older.push scope).release older.count = older := by
  rw [release, if_neg (Nat.ne_of_gt h)]
  apply ext
  simp [push]

/-! ## One step of a lookup -/

section

variable {α : Type} (find : Scope → Option α)

theorem look_eq_none_of_le {scopes : Scopes} {id : Nat} (h : scopes.count ≤ id) :
    scopes.look find id = none := by
  induction scopes with
  | empty => rfl
  | push older scope ih =>
    rw [count_push] at h
    rw [look_push, if_neg (by omega)]
    exact ih (by omega)

theorem scope?_push (older : Scopes) (scope : Scope) (id : Nat) :
    (older.push scope).scope? id = if id = older.count then some scope else older.scope? id :=
  look_push some older scope id

theorem lt_count_of_look {scopes : Scopes} {id : Nat} {found : α} (h : scopes.look find id = some found) :
    id < scopes.count := by
  refine Nat.lt_of_not_le fun hle => ?_
  rw [look_eq_none_of_le find hle] at h
  cases h

theorem lt_count_of_scope? {scopes : Scopes} {id : Nat} {scope : Scope}
    (h : scopes.scope? id = some scope) : id < scopes.count :=
  lt_count_of_look some h

theorem look_push_newest (older : Scopes) (scope : Scope) :
    (older.push scope).look find older.count = (find scope).or (scope.parent?.bind (older.look find)) := by
  rw [look_push, if_pos rfl]
  cases find scope with
  | some found => rfl
  | none => cases scope.parent? <;> rfl

theorem look_push_of_ne {older : Scopes} (scope : Scope) {id : Nat} (h : id ≠ older.count) :
    (older.push scope).look find id = older.look find id := by
  rw [look_push, if_neg h]

/-- A lookup from a scope finds something there, or goes on from the scope's parent if that is older. -/
theorem look_eq_bind (scopes : Scopes) (id : Nat) :
    scopes.look find id = (scopes.scope? id).bind fun scope =>
      (find scope).or (scope.parent?.bind fun parent =>
        if parent < id then scopes.look find parent else none) := by
  induction scopes with
  | empty => rfl
  | push older scope ih =>
    rw [scope?_push]
    by_cases h : id = older.count
    · subst h
      rw [look_push_newest, if_pos rfl, Option.bind_some]
      refine congrArg (Option.or (find scope)) (Option.bind_congr fun parent _ => ?_)
      split
      · rw [look_push_of_ne find scope (by omega)]
      · exact look_eq_none_of_le find (by omega)
    · rw [look_push_of_ne find scope h, if_neg h, ih]
      refine Option.bind_congr fun found hfound => ?_
      have hid := lt_count_of_scope? hfound
      refine congrArg (Option.or (find found)) (Option.bind_congr fun parent _ => ?_)
      split
      · rw [look_push_of_ne find scope (by omega)]
      · rfl

/-- What a scope binds itself is found from it. -/
theorem look_of_scope? {scopes : Scopes} {id : Nat} {scope : Scope} {found : α}
    (h : scopes.scope? id = some scope) (hfound : find scope = some found) :
    scopes.look find id = some found := by
  rw [look_eq_bind, h, Option.bind_some, hfound, Option.some_or]

/-- A new scope sees what its parent sees, if `find` looks at nothing but what a scope binds. -/
theorem look_enter (inheritance : Inheritance) (scopes : Scopes) (parent id : Nat)
    (hcopied : ∀ scope : Scope, find { scope with parent? := some parent } = find scope)
    (hlinked : find { parent? := some parent } = none) :
    (scopes.enter inheritance parent).look find id =
      if id = scopes.count then scopes.look find parent else scopes.look find id := by
  by_cases h : id = scopes.count
  · subst h
    rw [enter, look_push_newest, if_pos rfl]
    cases inheritance with
    | linked =>
      show (find { parent? := some parent }).or (scopes.look find parent) = _
      rw [hlinked, Option.none_or]
    | copied =>
      show (find { (scopes.scope? parent).getD {} with parent? := some parent }).or
        (scopes.look find parent) = _
      rw [hcopied]
      cases hfound : find ((scopes.scope? parent).getD {}) with
      | none => rfl
      | some found =>
        cases hscope : scopes.scope? parent with
        | none =>
          rw [hscope, Option.getD_none, ← hcopied, hlinked] at hfound
          cases hfound
        | some scope =>
          rw [hscope, Option.getD_some] at hfound
          rw [look_of_scope? find hscope hfound, Option.some_or]
  · rw [enter, look_push_of_ne find _ h, if_neg h]

end

/-! ## What scopes see after each operation -/

theorem count_enter (inheritance : Inheritance) (scopes : Scopes) (parent : Nat) :
    (scopes.enter inheritance parent).count = scopes.count + 1 :=
  rfl

theorem value?_enter (inheritance : Inheritance) (scopes : Scopes) (parent id : Nat) (name : Text) :
    (scopes.enter inheritance parent).value? id name =
      if id = scopes.count then scopes.value? parent name else scopes.value? id name :=
  look_enter _ inheritance scopes parent id (fun _ => rfl) rfl

theorem mixin?_enter (inheritance : Inheritance) (scopes : Scopes) (parent id : Nat) (name : Text) :
    (scopes.enter inheritance parent).mixin? id name =
      if id = scopes.count then scopes.mixin? parent name else scopes.mixin? id name :=
  look_enter _ inheritance scopes parent id (fun _ => rfl) rfl

section

variable {scopes : Scopes} {newest : Nat}

theorem value?_setVariable (h : newest + 1 = scopes.count) (bound value : Text) (id : Nat) (name : Text) :
    (scopes.setVariable newest bound value).value? id name =
      if id = newest ∧ bound = name then some value else scopes.value? id name := by
  obtain ⟨older, scope, rfl, rfl⟩ := eq_push_of_newest h
  rw [setVariable_push]
  by_cases hid : id = older.count
  · subst hid
    simp only [value?, look_push_newest, Bindings.find?_insert, true_and]
    split
    · rw [Option.some_or]
    · rfl
  · rw [value?, look_push_of_ne _ _ hid, if_neg (fun hc => hid hc.1), value?, look_push_of_ne _ _ hid]

theorem mixin?_setVariable (h : newest + 1 = scopes.count) (bound value : Text) (id : Nat) (name : Text) :
    (scopes.setVariable newest bound value).mixin? id name = scopes.mixin? id name := by
  obtain ⟨older, scope, rfl, rfl⟩ := eq_push_of_newest h
  rw [setVariable_push]
  rfl

theorem value?_setMixin (h : newest + 1 = scopes.count) (mixin : Mixin) (id : Nat) (name : Text) :
    (scopes.setMixin newest mixin).value? id name = scopes.value? id name := by
  obtain ⟨older, scope, rfl, rfl⟩ := eq_push_of_newest h
  rw [setMixin_push]
  rfl

theorem mixin?_setMixin (h : newest + 1 = scopes.count) (mixin : Mixin) (id : Nat) (name : Text) :
    (scopes.setMixin newest mixin).mixin? id name =
      if id = newest ∧ mixin.name = name then some mixin else scopes.mixin? id name := by
  obtain ⟨older, scope, rfl, rfl⟩ := eq_push_of_newest h
  rw [setMixin_push]
  by_cases hid : id = older.count
  · subst hid
    simp only [mixin?, look_push_newest, Bindings.find?_insert, true_and]
    split
    · rw [Option.some_or]
    · rfl
  · rw [mixin?, look_push_of_ne _ _ hid, if_neg (fun hc => hid hc.1), mixin?, look_push_of_ne _ _ hid]

end

/-! ## Order -/

theorem ordered_empty : empty.Ordered :=
  ⟨nofun, nofun⟩

theorem ordered_push_iff {older : Scopes} {scope : Scope} :
    (older.push scope).Ordered ↔ older.Ordered ∧
      (∀ parent, scope.parent? = some parent → parent < older.count) ∧
      ∀ name mixin, scope.mixins.find? name = some mixin → mixin.scope ≤ older.count := by
  have newest : (older.push scope).scope? older.count = some scope := by rw [scope?_push, if_pos rfl]
  constructor
  · intro h
    have old : ∀ {id found}, older.scope? id = some found → (older.push scope).scope? id = some found := by
      intro id found hfound
      have := lt_count_of_scope? hfound
      rw [scope?_push, if_neg (by omega), hfound]
    exact ⟨⟨fun hid => h.parent (old hid), fun hid => h.mixin (old hid)⟩, fun _ => h.parent newest,
      fun _ _ => h.mixin newest⟩
  · rintro ⟨hold, hparent, hmixin⟩
    constructor
    · intro id parent found hfound
      rw [scope?_push] at hfound
      split at hfound
      · rename_i hid
        cases hfound
        exact hid ▸ hparent parent
      · exact hold.parent hfound
    · intro id found name mixin hfound
      rw [scope?_push] at hfound
      split at hfound
      · rename_i hid
        cases hfound
        exact hid ▸ hmixin name mixin
      · exact hold.mixin hfound

theorem Ordered.push_extends {older : Scopes} {scope grown : Scope} (h : (older.push scope).Ordered)
    (hgrown : scope.Extends older.count grown) : (older.push grown).Ordered := by
  rw [ordered_push_iff] at h ⊢
  obtain ⟨hold, hparent, hmixin⟩ := h
  refine ⟨hold, fun parent hp => hparent parent (hgrown.parent ▸ hp), fun name mixin hm => ?_⟩
  rcases hgrown.declared name mixin hm with hm | hm
  · exact hmixin name mixin hm
  · exact Nat.le_of_eq hm

theorem ordered_initial : initial.Ordered :=
  ordered_push_iff.mpr ⟨ordered_empty, nofun, nofun⟩

theorem Ordered.enter {scopes : Scopes} (h : scopes.Ordered) (inheritance : Inheritance) {parent : Nat}
    (hparent : parent < scopes.count) : (scopes.enter inheritance parent).Ordered := by
  refine ordered_push_iff.mpr ⟨h, fun above habove => ?_, fun name mixin hmixin => ?_⟩
  · cases inheritance <;> cases habove <;> exact hparent
  · cases inheritance with
    | linked => cases hmixin
    | copied =>
      cases hscope : scopes.scope? parent with
      | none =>
        rw [hscope] at hmixin
        cases hmixin
      | some scope =>
        rw [hscope] at hmixin
        have hle := h.mixin hscope hmixin
        omega

theorem Ordered.setVariable {scopes : Scopes} (h : scopes.Ordered) {newest : Nat}
    (hnewest : newest + 1 = scopes.count) (name value : Text) :
    (scopes.setVariable newest name value).Ordered := by
  obtain ⟨older, scope, rfl, rfl⟩ := eq_push_of_newest hnewest
  rw [setVariable_push]
  exact h.push_extends ((Scope.Extends.refl _ scope).insertValue name value)

theorem Ordered.setMixin {scopes : Scopes} (h : scopes.Ordered) {newest : Nat}
    (hnewest : newest + 1 = scopes.count) {mixin : Mixin} (hmixin : mixin.scope = newest) :
    (scopes.setMixin newest mixin).Ordered := by
  obtain ⟨older, scope, rfl, rfl⟩ := eq_push_of_newest hnewest
  rw [setMixin_push]
  exact h.push_extends ((Scope.Extends.refl _ scope).insertMixin hmixin)

/-- A mixin that is seen from a scope was declared in that scope or in an older one. -/
theorem Ordered.mixin?_scope_le {scopes : Scopes} (h : scopes.Ordered) {id : Nat} {name : Text}
    {mixin : Mixin} (hfound : scopes.mixin? id name = some mixin) : mixin.scope ≤ id := by
  induction id using Nat.strongRecOn with
  | ind id ih =>
    rw [mixin?, look_eq_bind] at hfound
    obtain ⟨scope, hscope, hfound⟩ := Option.bind_eq_some_iff.mp hfound
    rcases Option.or_eq_some_iff.mp hfound with hown | ⟨-, hfound⟩
    · exact h.mixin hscope hown
    · obtain ⟨parent, -, hfound⟩ := Option.bind_eq_some_iff.mp hfound
      split at hfound
      · rename_i hlt
        have hle := ih parent hlt hfound
        omega
      · cases hfound

end Scopes

end Scl
