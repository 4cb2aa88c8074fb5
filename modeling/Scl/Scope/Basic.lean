import Scl.Mixin.Basic
import Scl.Scope.Bindings

/-!
# Scopes

A scope binds variables and mixins and hangs below the scope it was opened from. The scopes of a run form
a stack; a scope's number is the count of the scopes below it on the stack, so that releasing a scope,
which drops it and everything opened since, leaves the other numbers as they were. Number 0 is the root
and is never dropped.

A lookup goes from a scope to its parent and on to the root. What a new scope starts with is a matter of
`Inheritance`: a copy of what its parent binds, or nothing.

* `look`: a lookup, and `chain`, the scopes that it may go through;
* `push_induction`: a stack is empty or has one more scope than another;
* `look_eq_findSome?`: a lookup gives what is found first along the chain;
* `release_enter`: opening a scope and releasing it changes nothing.
-/

namespace Scl

structure Scope where
  parent? : Option Nat := none
  /-- The values of the variables. -/
  values : Bindings Text := []
  mixins : Bindings Mixin := []
  deriving DecidableEq, Repr

/-- What an opened scope binds at first. -/
inductive Inheritance where
  /-- What its parent binds at that time. -/
  | copied
  /-- Nothing; everything is found through the parent. -/
  | linked
  deriving DecidableEq, Repr

/-- A scope below scope number `parent`, which is `scope`. -/
def Scope.child (scope : Scope) (inheritance : Inheritance) (parent : Nat) : Scope :=
  match inheritance with
  | .copied => { scope with parent? := some parent }
  | .linked => { parent? := some parent }

/-- A stack of scopes, the newest one first, which knows how many they are. -/
structure Scopes where
  stack : List Scope
  count : Nat
  count_eq : count = stack.length := by rfl
  deriving DecidableEq, Repr

namespace Scopes

/-- No scope at all. -/
def empty : Scopes where
  stack := []
  count := 0

/-- One more scope, whose number is the count of the others. -/
def push (scopes : Scopes) (scope : Scope) : Scopes where
  stack := scope :: scopes.stack
  count := scopes.count + 1
  count_eq := congrArg (· + 1) scopes.count_eq

/-- The root alone. -/
def initial : Scopes :=
  empty.push {}

/-- The number of the root. -/
abbrev rootId : Nat := 0

def contains (scopes : Scopes) (id : Nat) : Bool :=
  id < scopes.count

/-- `look` on a stack of `count` scopes. -/
def lookFrom {α : Type} (find : Scope → Option α) : Nat → List Scope → Nat → Option α
  | count + 1, scope :: older, id =>
    if id = count then
      match find scope, scope.parent? with
      | some found, _ => some found
      | none, some parent => lookFrom find count older parent
      | none, none => none
    else lookFrom find count older id
  | _, _, _ => none

/-- What `find` finds in the scope with a number or, failing that, in its parent and so on to the root.
A parent is looked for among the older scopes. -/
def look {α : Type} (find : Scope → Option α) (scopes : Scopes) (id : Nat) : Option α :=
  lookFrom find scopes.count scopes.stack id

/-- The scope with a number. -/
def scope? (scopes : Scopes) (id : Nat) : Option Scope :=
  scopes.look some id

/-- Opens a scope below scope `id`. -/
def enter (inheritance : Inheritance) (scopes : Scopes) (id : Nat) : Scopes :=
  scopes.push (((scopes.scope? id).getD {}).child inheritance id)

/-- Drops scope `id` and every scope opened after it, unless it is the root. -/
def release (scopes : Scopes) (id : Nat) : Scopes :=
  if id = rootId then scopes
  else
    { stack := scopes.stack.drop (scopes.count - id)
      count := min id scopes.count
      count_eq := by rw [List.length_drop, ← scopes.count_eq]; omega }

/-- `modify` on a stack of `count` scopes. -/
def modifyFrom (f : Scope → Scope) : Nat → List Scope → Nat → List Scope
  | count + 1, scope :: older, id =>
    if id = count then f scope :: older else scope :: modifyFrom f count older id
  | _, scopes, _ => scopes

theorem length_modifyFrom (f : Scope → Scope) (count : Nat) (stack : List Scope) (id : Nat) :
    (modifyFrom f count stack id).length = stack.length := by
  induction stack generalizing count with
  | nil => cases count <;> rfl
  | cons scope older ih =>
    cases count with
    | zero => rfl
    | succ count =>
      rw [modifyFrom]
      split
      · rfl
      · exact congrArg (· + 1) (ih count)

/-- Changes the scope with a number. -/
def modify (f : Scope → Scope) (scopes : Scopes) (id : Nat) : Scopes where
  stack := modifyFrom f scopes.count scopes.stack id
  count := scopes.count
  count_eq := scopes.count_eq.trans (length_modifyFrom ..).symm

def setVariable (scopes : Scopes) (id : Nat) (name value : Text) : Scopes :=
  scopes.modify (fun scope => { scope with values := scope.values.insert name value }) id

def setMixin (scopes : Scopes) (id : Nat) (mixin : Mixin) : Scopes :=
  scopes.modify (fun scope => { scope with mixins := scope.mixins.insert mixin.name mixin }) id

/-- The value of a variable as seen from scope `id`. -/
def value? (scopes : Scopes) (id : Nat) (name : Text) : Option Text :=
  scopes.look (·.values.find? name) id

/-- The mixin of a name as seen from scope `id`. -/
def mixin? (scopes : Scopes) (id : Nat) (name : Text) : Option Mixin :=
  scopes.look (·.mixins.find? name) id

/-- `chain` on a stack of `count` scopes. -/
def chainFrom : Nat → List Scope → Nat → List Scope
  | count + 1, scope :: older, id =>
    if id = count then
      scope :: match scope.parent? with
        | some parent => chainFrom count older parent
        | none => []
    else chainFrom count older id
  | _, _, _ => []

/-- The scope with a number, its parent and so on to the root. -/
def chain (scopes : Scopes) (id : Nat) : List Scope :=
  chainFrom scopes.count scopes.stack id

/-! ## Stacks seen from the newest scope -/

/-- Stacks of the same scopes are equal. -/
theorem ext {scopes others : Scopes} (h : scopes.stack = others.stack) : scopes = others := by
  obtain ⟨stack, _, rfl⟩ := scopes
  obtain ⟨_, _, rfl⟩ := others
  cases h
  rfl

@[induction_eliminator]
theorem push_induction {motive : Scopes → Prop} (empty : motive empty)
    (push : ∀ (older : Scopes) (scope : Scope), motive older → motive (older.push scope))
    (scopes : Scopes) : motive scopes := by
  obtain ⟨stack, _, rfl⟩ := scopes
  induction stack with
  | nil => exact empty
  | cons scope older ih => exact push ⟨older, _, rfl⟩ scope ih

theorem look_push {α : Type} (find : Scope → Option α) (older : Scopes) (scope : Scope) (id : Nat) :
    (older.push scope).look find id =
      if id = older.count then
        match find scope, scope.parent? with
        | some found, _ => some found
        | none, some parent => older.look find parent
        | none, none => none
      else older.look find id :=
  rfl

theorem chain_push (older : Scopes) (scope : Scope) (id : Nat) :
    (older.push scope).chain id =
      if id = older.count then
        scope :: match scope.parent? with
          | some parent => older.chain parent
          | none => []
      else older.chain id :=
  rfl

theorem look_eq_findSome? {α : Type} (find : Scope → Option α) (scopes : Scopes) (id : Nat) :
    scopes.look find id = (scopes.chain id).findSome? find := by
  induction scopes generalizing id with
  | empty => rfl
  | push older scope ih =>
    rw [look_push, chain_push]
    split
    · rw [List.findSome?_cons]
      cases find scope with
      | some found => rfl
      | none =>
        cases scope.parent? with
        | some parent => exact ih parent
        | none => rfl
    · exact ih id

theorem modify_push (f : Scope → Scope) (older : Scopes) (scope : Scope) (id : Nat) :
    (older.push scope).modify f id =
      if id = older.count then older.push (f scope) else (older.modify f id).push scope := by
  apply ext
  rw [apply_ite stack]
  rfl

/-- Releasing the scope opened last takes its opening back. -/
theorem release_enter (inheritance : Inheritance) (scopes : Scopes) (id : Nat) (h : 0 < scopes.count) :
    (scopes.enter inheritance id).release scopes.count = scopes := by
  rw [release, if_neg (Nat.ne_of_gt h)]
  apply ext
  simp [enter, push]

end Scopes

end Scl
