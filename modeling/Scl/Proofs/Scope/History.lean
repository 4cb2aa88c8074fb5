import Mathlib.Data.List.Induction
import Scl.Proofs.Scope.Stack
import Scl.Scope.Request

/-!
# The history of scopes

Numbers of scopes are given out again as soon as their scopes are released, while a mixin keeps the number of
the scope where it was declared and is copied into other scopes with it. Whatever requests are made, such a
number never comes to stand for another scope:

* `Rooted`: every scope hangs below an older one, down to the root, so a lookup goes from scope to scope and
  ends (`Rooted.looks`);
* `perform_cases`: what a request can do to the scopes;
* `Holds`: the way of a mixin from the scope where it was bound into other scopes;
* `exists_holds`: every mixin that a scope binds came there in this way;
* `Holds.standing`: all along the way, the scope where it was bound has been there.
-/

namespace Scl.Scopes

variable {scopes : Scopes} {id : Nat} {name : Text}

/-! ## Scopes by their numbers -/

theorem exists_scope? (h : id < scopes.count) : ∃ scope, scopes.scope? id = some scope := by
  induction scopes with
  | empty => exact absurd h (Nat.not_lt_zero id)
  | push older scope ih =>
    rw [scope?_push]
    split
    · exact ⟨scope, rfl⟩
    · rw [count_push] at h
      exact ih (by omega)

theorem scope?_enter (inheritance : Inheritance) (scopes : Scopes) (parent id : Nat) :
    (scopes.enter inheritance parent).scope? id =
      if id = scopes.count then some (((scopes.scope? parent).getD {}).child inheritance parent)
      else scopes.scope? id :=
  scope?_push scopes _ id

theorem count_release (scopes : Scopes) (id : Nat) :
    (scopes.release id).count = if id = rootId then scopes.count else min id scopes.count := by
  rw [release]
  split <;> rfl

theorem release_eq_self (h : id = rootId ∨ scopes.count ≤ id) : scopes.release id = scopes := by
  rw [release]
  split
  · rfl
  · apply ext
    have hle : scopes.count ≤ id := by omega
    simp [hle]

theorem release_push_of_le {older : Scopes} (scope : Scope) (hpos : id ≠ rootId) (hle : id ≤ older.count) :
    (older.push scope).release id = older.release id := by
  rw [release, release, if_neg hpos, if_neg hpos]
  apply ext
  show (scope :: older.stack).drop (older.count + 1 - id) = older.stack.drop (older.count - id)
  rw [show older.count + 1 - id = older.count - id + 1 by omega, List.drop_succ_cons]

/-- A scope that is left after a release is what it was. -/
theorem scope?_release {other : Nat} (h : other < (scopes.release id).count) :
    (scopes.release id).scope? other = scopes.scope? other := by
  induction scopes with
  | empty => rw [release_eq_self (.inr (Nat.zero_le id))]
  | push older scope ih =>
    by_cases hself : id = rootId ∨ (older.push scope).count ≤ id
    · rw [release_eq_self hself]
    · rw [count_push] at hself
      have hrelease : (older.push scope).release id = older.release id :=
        release_push_of_le scope (by omega) (by omega)
      rw [hrelease] at h ⊢
      rw [ih h, scope?_push, if_neg]
      rw [count_release] at h
      split at h <;> omega

theorem scope?_modify (f : Scope → Scope) (scopes : Scopes) (id other : Nat) :
    (scopes.modify f id).scope? other =
      if other = id then (scopes.scope? other).map f else scopes.scope? other := by
  induction scopes with
  | empty =>
    show none = if other = id then Option.map f none else none
    split <;> rfl
  | push older scope ih =>
    rw [modify_push]
    by_cases hid : id = older.count
    · rw [if_pos hid, scope?_push, scope?_push, hid]
      split <;> rfl
    · rw [if_neg hid, scope?_push, scope?_push, ih]
      show (if other = older.count then _ else _) = _
      by_cases hother : other = older.count
      · rw [if_pos hother, if_pos hother, if_neg (by omega)]
      · rw [if_neg hother, if_neg hother]

/-! ## Mixins that scopes bind themselves -/

/-- The mixin that a scope binds itself, whether it was declared there or copied. -/
def bound? (scopes : Scopes) (id : Nat) (name : Text) : Option Mixin :=
  (scopes.scope? id).bind (·.mixins.find? name)

theorem lt_count_of_bound? {mixin : Mixin} (h : scopes.bound? id name = some mixin) : id < scopes.count := by
  obtain ⟨scope, hscope, -⟩ := Option.bind_eq_some_iff.mp h
  exact lt_count_of_scope? hscope

theorem bound?_initial (id : Nat) (name : Text) : initial.bound? id name = none := by
  rw [bound?, initial, scope?_push]
  split <;> rfl

theorem bound?_enter (scopes : Scopes) (parent id : Nat) (name : Text) :
    (scopes.enter .copied parent).bound? id name =
      if id = scopes.count then scopes.bound? parent name else scopes.bound? id name := by
  rw [bound?, scope?_enter]
  split
  · rw [bound?]
    cases scopes.scope? parent <;> rfl
  · rfl

theorem bound?_release {other : Nat} (h : other < (scopes.release id).count) (name : Text) :
    (scopes.release id).bound? other name = scopes.bound? other name := by
  rw [bound?, scope?_release h, bound?]

theorem bound?_setVariable (scopes : Scopes) (id : Nat) (bound value : Text) (other : Nat) (name : Text) :
    (scopes.setVariable id bound value).bound? other name = scopes.bound? other name := by
  rw [bound?, setVariable, scope?_modify, bound?]
  split
  · cases scopes.scope? other <;> rfl
  · rfl

theorem bound?_setMixin (h : id < scopes.count) (mixin : Mixin) (other : Nat) (name : Text) :
    (scopes.setMixin id mixin).bound? other name =
      if other = id ∧ mixin.name = name then some mixin else scopes.bound? other name := by
  rw [bound?, setMixin, scope?_modify, bound?]
  by_cases hother : other = id
  · subst hother
    obtain ⟨scope, hscope⟩ := exists_scope? h
    rw [if_pos rfl, hscope]
    simp only [Option.map_some, Option.bind_some, Bindings.find?_insert, true_and]
  · rw [if_neg hother, if_neg fun hc => hother hc.1]

/-! ## What a request can do -/

/-- A request that binds a mixin `name` in scope `id`. -/
def Request.Binds (request : Request) (id : Nat) (name : Text) : Prop :=
  ∃ mixin, request = .setMixin id mixin ∧ mixin.name = name

/-- The scopes after a request, by what the request does. -/
inductive Change (scopes : Scopes) : Request → Scopes → Prop
  | none {request : Request} : (∀ id name, request.Binds id name → scopes.count ≤ id) →
    Change scopes request scopes
  | enter {id : Nat} : id < scopes.count → Change scopes (.enter id) (scopes.enter .copied id)
  | release (id : Nat) : Change scopes (.release id) (scopes.release id)
  | setVariable (id : Nat) (name value : Text) :
    Change scopes (.setVariable id name value) (scopes.setVariable id name value)
  | setMixin {id : Nat} (mixin : Mixin) : id < scopes.count →
    Change scopes (.setMixin id mixin) (scopes.setMixin id { mixin with scope := id })

theorem guarded_of_lt (h : id < scopes.count) (result : Answer × Scopes) : scopes.guarded id result = result :=
  if_pos (decide_eq_true h)

theorem guarded_of_le (h : scopes.count ≤ id) (result : Answer × Scopes) :
    scopes.guarded id result = (.noSuchScope, scopes) :=
  if_neg fun hcontains => Nat.not_lt.mpr h (of_decide_eq_true hcontains)

/-- A request that asks for something changes nothing, whether the scope is there or not. -/
theorem guarded_answer (scopes : Scopes) (id : Nat) (answer : Answer) :
    (scopes.guarded id (answer, scopes)).2 = scopes := by
  rw [guarded]
  split <;> rfl

theorem Change.unchanged {request : Request} (h : ∀ id mixin, request ≠ .setMixin id mixin) :
    scopes.Change request scopes :=
  .none fun id _ ⟨mixin, heq, _⟩ => absurd heq (h id mixin)

theorem perform_cases (scopes : Scopes) (request : Request) :
    scopes.Change request (scopes.perform request).2 := by
  match request with
  | .enter id =>
    rw [perform]
    rcases Nat.lt_or_ge id scopes.count with hlt | hge
    · rw [guarded_of_lt hlt]
      exact .enter hlt
    · rw [guarded_of_le hge]
      exact .unchanged nofun
  | .release id => exact .release id
  | .setVariable id name value =>
    rw [perform]
    rcases Nat.lt_or_ge id scopes.count with hlt | hge
    · rw [guarded_of_lt hlt]
      exact .setVariable id name value
    · rw [guarded_of_le hge]
      exact .unchanged nofun
  | .setMixin id mixin =>
    rw [perform]
    rcases Nat.lt_or_ge id scopes.count with hlt | hge
    · rw [guarded_of_lt hlt]
      exact .setMixin mixin hlt
    · rw [guarded_of_le hge]
      refine .none fun other name hbinds => ?_
      obtain ⟨_, heq, -⟩ := hbinds
      cases heq
      exact hge
  | .parent id | .variable id name | .mixin id name =>
    rw [perform, guarded_answer]
    exact .unchanged nofun
  | .fill id text =>
    have hscopes : (scopes.perform (.fill id text)).2 = scopes := by
      simp only [perform]
      split
      · rfl
      · exact guarded_answer scopes id _
    rw [hscopes]
    exact .unchanged nofun

/-! ## Lookups -/

/-- The root is there and has no parent, and every other scope hangs below an older one. -/
structure Rooted (scopes : Scopes) : Prop where
  root : ∃ scope, scopes.scope? rootId = some scope ∧ scope.parent? = none
  below {id : Nat} {scope : Scope} : scopes.scope? id = some scope → id ≠ rootId →
    ∃ parent < id, scope.parent? = some parent

/-- A lookup that goes from scope `id` to its parent and on, meets only scopes that are there, and comes to an
end. -/
inductive Looks {α : Type} (find : Scope → Option α) (scopes : Scopes) : Nat → Option α → Prop
  | found {id : Nat} {scope : Scope} {a : α} : scopes.scope? id = some scope → find scope = some a →
    Looks find scopes id (some a)
  | outward {id parent : Nat} {scope : Scope} {result : Option α} : scopes.scope? id = some scope →
    find scope = none → scope.parent? = some parent → Looks find scopes parent result →
    Looks find scopes id result
  | missing {id : Nat} {scope : Scope} : scopes.scope? id = some scope → find scope = none →
    scope.parent? = none → Looks find scopes id none

theorem Rooted.looks {α : Type} (h : scopes.Rooted) (find : Scope → Option α) (hid : id < scopes.count) :
    Looks find scopes id (scopes.look find id) := by
  induction id using Nat.strongRecOn with
  | ind id ih =>
    obtain ⟨scope, hscope⟩ := exists_scope? hid
    rw [look_eq_bind, hscope, Option.bind_some]
    cases hfind : find scope with
    | some a => exact .found hscope hfind
    | none =>
      rw [Option.none_or]
      by_cases hroot : id = rootId
      · obtain ⟨root, hroot', hparent⟩ := h.root
        rw [hroot, hroot'] at hscope
        cases hscope
        rw [hparent]
        exact .missing (hroot ▸ hroot') hfind hparent
      · obtain ⟨parent, hlt, hparent⟩ := h.below hscope hroot
        rw [hparent, Option.bind_some, if_pos hlt]
        exact .outward hscope hfind hparent (ih parent hlt (by omega))

theorem rooted_initial : initial.Rooted := by
  refine ⟨⟨{}, rfl, rfl⟩, fun {id scope} hscope hid => ?_⟩
  have hlt : id < 1 := lt_count_of_scope? hscope
  exact absurd (Nat.lt_one_iff.mp hlt) hid

theorem Rooted.modify (h : scopes.Rooted) (f : Scope → Scope) (hf : ∀ scope, (f scope).parent? = scope.parent?)
    (id : Nat) : (scopes.modify f id).Rooted := by
  have hparent : ∀ {other scope}, (scopes.modify f id).scope? other = some scope →
      ∃ old, scopes.scope? other = some old ∧ scope.parent? = old.parent? := by
    intro other scope hscope
    rw [scope?_modify] at hscope
    split at hscope
    · obtain ⟨old, hold, rfl⟩ := Option.map_eq_some_iff.mp hscope
      exact ⟨old, hold, hf old⟩
    · exact ⟨scope, hscope, rfl⟩
  constructor
  · obtain ⟨root, hroot, hnone⟩ := h.root
    have hcount : rootId < scopes.count := lt_count_of_scope? hroot
    obtain ⟨scope, hscope⟩ : ∃ scope, (scopes.modify f id).scope? rootId = some scope := exists_scope? hcount
    obtain ⟨old, hold, heq⟩ := hparent hscope
    rw [hroot] at hold
    cases hold
    exact ⟨scope, hscope, heq.trans hnone⟩
  · intro other scope hscope hother
    obtain ⟨old, hold, heq⟩ := hparent hscope
    rw [heq]
    exact h.below hold hother

/-- One request keeps every scope below an older one. -/
theorem Rooted.perform (h : scopes.Rooted) (request : Request) : (scopes.perform request).2.Rooted := by
  have hpos : rootId < scopes.count := by
    obtain ⟨root, hroot, -⟩ := h.root
    exact lt_count_of_scope? hroot
  generalize hafter : (scopes.perform request).2 = after
  have hchange := hafter ▸ perform_cases scopes request
  cases hchange with
  | none _ => exact h
  | @enter parent hparent =>
    constructor
    · rw [scope?_enter, if_neg (Nat.ne_of_lt hpos)]
      exact h.root
    · intro id scope hscope hid
      rw [scope?_enter] at hscope
      split at hscope
      · rename_i hnewest
        cases hscope
        exact ⟨parent, hnewest ▸ hparent, rfl⟩
      · exact h.below hscope hid
  | release id =>
    have hleft : rootId < (scopes.release id).count := by
      rw [count_release]
      split
      · exact hpos
      · rename_i hroot
        exact Nat.lt_min.mpr ⟨Nat.pos_of_ne_zero hroot, hpos⟩
    constructor
    · rw [scope?_release hleft]
      exact h.root
    · intro other scope hscope hother
      rw [scope?_release (lt_count_of_scope? hscope)] at hscope
      exact h.below hscope hother
  | setVariable id name value =>
    refine h.modify _ ?_ id
    exact fun _ => rfl
  | @setMixin id mixin _ =>
    refine h.modify _ ?_ id
    exact fun _ => rfl

/-! ## Histories -/

/-- The scopes after a sequence of requests, from the root alone. -/
def ofRequests (requests : List Request) : Scopes :=
  requests.foldl (fun scopes request => (scopes.perform request).2) .initial

theorem ofRequests_concat (requests : List Request) (request : Request) :
    ofRequests (requests ++ [request]) = ((ofRequests requests).perform request).2 := by
  rw [ofRequests, List.foldl_append]
  rfl

theorem rooted_ofRequests (requests : List Request) : (ofRequests requests).Rooted := by
  induction requests using List.reverseRecOn with
  | nil => exact rooted_initial
  | append_singleton requests request ih =>
    rw [ofRequests_concat]
    exact ih.perform request

section

variable (earlier : List Request) (declaring : Nat) (mixin : Mixin)

/-- The scopes after the requests `earlier`, one that binds `mixin` in scope `declaring`, and those `later`. -/
def since (later : List Request) : Scopes :=
  ofRequests (earlier ++ .setMixin declaring mixin :: later)

/-- After the requests `later`, scope `id` holds the mixin that was bound in scope `declaring` before them: it
is that scope, or was opened below a scope that held the mixin then; and it has been there since, without
another mixin of that name. -/
inductive Holds : List Request → Nat → Prop
  | bound : declaring < (ofRequests earlier).count → Holds [] declaring
  | kept {later : List Request} {request : Request} {id : Nat} : Holds later id →
    id < (since earlier declaring mixin (later ++ [request])).count → ¬request.Binds id mixin.name →
    Holds (later ++ [request]) id
  | copied {later : List Request} {id : Nat} : Holds later id →
    Holds (later ++ [.enter id]) (since earlier declaring mixin later).count

/-- Scope `declaring` has been there at every moment since, so no request has released it, and its number has
not been given to another scope. -/
def Standing (later : List Request) : Prop :=
  ∀ between, between <+: later → declaring < (since earlier declaring mixin between).count

variable {earlier declaring mixin} {later : List Request}

theorem since_concat (request : Request) :
    since earlier declaring mixin (later ++ [request]) =
      ((since earlier declaring mixin later).perform request).2 := by
  rw [since, since, ← ofRequests_concat, List.append_assoc, List.cons_append]

theorem since_nil :
    since earlier declaring mixin [] = ((ofRequests earlier).perform (.setMixin declaring mixin)).2 := by
  rw [since, ofRequests_concat]

/-- A scope that holds a mixin binds it, and is no older than the scope where it was bound. -/
theorem Holds.bound? (h : Holds earlier declaring mixin later id) :
    (since earlier declaring mixin later).bound? id mixin.name = some { mixin with scope := declaring } ∧
      declaring ≤ id := by
  induction h with
  | bound hlt =>
    rw [since_nil, perform, guarded_of_lt hlt, bound?_setMixin hlt, if_pos ⟨rfl, rfl⟩]
    exact ⟨rfl, Nat.le_refl _⟩
  | @kept later request id _ hlt hbinds ih =>
    refine ⟨?_, ih.2⟩
    rw [since_concat] at hlt ⊢
    rw [← ih.1]
    generalize since earlier declaring mixin later = scopes at hlt ih ⊢
    generalize hafter : (scopes.perform request).2 = after at hlt ⊢
    have hchange := hafter ▸ perform_cases scopes request
    have hid := lt_count_of_bound? ih.1
    cases hchange with
    | none _ => rfl
    | enter _ => rw [bound?_enter, if_neg (Nat.ne_of_lt hid)]
    | release other => rw [bound?_release hlt]
    | setVariable other name value => rw [bound?_setVariable]
    | setMixin other hother =>
      rw [bound?_setMixin hother, if_neg]
      rintro ⟨rfl, hname⟩
      exact hbinds ⟨other, rfl, hname⟩
  | @copied later id _ ih =>
    have hid := lt_count_of_bound? ih.1
    rw [since_concat, perform, guarded_of_lt hid, bound?_enter, if_pos rfl]
    exact ⟨ih.1, Nat.le_of_lt (Nat.lt_of_le_of_lt ih.2 hid)⟩

theorem Holds.lt_count (h : Holds earlier declaring mixin later id) :
    declaring < (since earlier declaring mixin later).count :=
  Nat.lt_of_le_of_lt h.bound?.2 (lt_count_of_bound? h.bound?.1)

theorem Standing.concat {request : Request} (h : Standing earlier declaring mixin later)
    (hlt : declaring < (since earlier declaring mixin (later ++ [request])).count) :
    Standing earlier declaring mixin (later ++ [request]) := by
  intro between hbetween
  rcases List.prefix_concat_iff.mp hbetween with rfl | hprefix
  · exact hlt
  · exact h between hprefix

/-- As long as any scope holds a mixin, the scope where it was bound is there. -/
theorem Holds.standing (h : Holds earlier declaring mixin later id) : Standing earlier declaring mixin later := by
  have hlast := h.lt_count
  induction h with
  | bound hlt =>
    intro between hbetween
    rw [List.prefix_nil.mp hbetween]
    exact hlast
  | kept holds hlt hbinds ih => exact (ih holds.lt_count).concat hlast
  | copied holds ih => exact (ih holds.lt_count).concat hlast

end

/-- Every mixin that a scope binds was bound by a request, in the scope whose number it has, and was held by
scopes from then on. -/
theorem exists_holds {requests : List Request} {mixin : Mixin}
    (h : (ofRequests requests).bound? id name = some mixin) :
    ∃ earlier set later, requests = earlier ++ .setMixin mixin.scope set :: later ∧
      mixin = { set with scope := mixin.scope } ∧ mixin.name = name ∧ Holds earlier mixin.scope set later id := by
  induction requests using List.reverseRecOn generalizing id with
  | nil =>
    rw [ofRequests, List.foldl_nil, bound?_initial] at h
    cases h
  | append_singleton requests request ih =>
    -- A mixin that was there before is still held, unless the request has dropped or replaced it.
    have hkept : (ofRequests requests).bound? id name = some mixin → ¬request.Binds id name →
        ∃ earlier set later, requests ++ [request] = earlier ++ .setMixin mixin.scope set :: later ∧
          mixin = { set with scope := mixin.scope } ∧ mixin.name = name ∧
          Holds earlier mixin.scope set later id := by
      intro hbound hbinds
      obtain ⟨earlier, set, later, rfl, hmixin, hname, hholds⟩ := ih hbound
      have hset : set.name = name := (congrArg Mixin.name hmixin).symm.trans hname
      refine ⟨earlier, set, later ++ [request], by simp, hmixin, hname, .kept hholds ?_ (hset ▸ hbinds)⟩
      rw [since_concat, since, ← ofRequests_concat]
      exact lt_count_of_bound? h
    rw [ofRequests_concat] at h
    generalize hafter : ((ofRequests requests).perform request).2 = after at h
    have hchange := hafter ▸ perform_cases (ofRequests requests) request
    cases hchange with
    | none hbinds =>
      refine hkept h fun hbound => ?_
      exact Nat.not_lt.mpr (hbinds id name hbound) (lt_count_of_bound? h)
    | @enter parent hparent =>
      rw [bound?_enter] at h
      split at h
      · rename_i hid
        subst hid
        obtain ⟨earlier, set, later, rfl, hmixin, hname, hholds⟩ := ih h
        exact ⟨earlier, set, later ++ [.enter parent], by simp, hmixin, hname, .copied hholds⟩
      · exact hkept h fun ⟨_, heq, _⟩ => nomatch heq
    | release other =>
      have hid := lt_count_of_bound? h
      rw [bound?_release hid] at h
      exact hkept h fun ⟨_, heq, _⟩ => nomatch heq
    | setVariable other bound value =>
      rw [bound?_setVariable] at h
      exact hkept h fun ⟨_, heq, _⟩ => nomatch heq
    | @setMixin other set hother =>
      rw [bound?_setMixin hother] at h
      split at h
      · rename_i hset
        obtain ⟨rfl, hname⟩ := hset
        cases h
        exact ⟨requests, set, [], rfl, rfl, hname, .bound hother⟩
      · rename_i hset
        refine hkept h ?_
        rintro ⟨_, heq, hname⟩
        cases heq
        exact hset ⟨rfl, hname⟩

/-- After any requests, with numbers of scopes that may not be there any more: the root has no parent and every
other scope hangs below an older one; a lookup from any scope meets only scopes that are there, and ends; every
mixin that a scope binds was bound by a request in the scope whose number it has; and every scope that holds a
mixin bound by some request binds it with that number, which is no greater than its own and has stood for the
same scope ever since. -/
theorem ofRequests_standing (requests : List Request) :
    (ofRequests requests).Rooted ∧
      (∀ {α : Type} (find : Scope → Option α) (id : Nat), id < (ofRequests requests).count →
        Looks find (ofRequests requests) id ((ofRequests requests).look find id)) ∧
      (∀ id name mixin, (ofRequests requests).bound? id name = some mixin →
        ∃ earlier set later, requests = earlier ++ .setMixin mixin.scope set :: later ∧
          mixin = { set with scope := mixin.scope } ∧ mixin.name = name ∧
          Holds earlier mixin.scope set later id) ∧
      ∀ earlier declaring set later id, requests = earlier ++ .setMixin declaring set :: later →
        Holds earlier declaring set later id →
        (ofRequests requests).bound? id set.name = some { set with scope := declaring } ∧ declaring ≤ id ∧
          Standing earlier declaring set later := by
  have hrooted := rooted_ofRequests requests
  refine ⟨hrooted, fun find id hid => hrooted.looks find hid, fun id name mixin h => exists_holds h, ?_⟩
  rintro earlier declaring set later id rfl hholds
  exact ⟨hholds.bound?.1, hholds.bound?.2, hholds.standing⟩

/-- A mixin bound in scope 1 after that number has been given out twice, and copied into scope 2. The same
mixin was bound in the first scope 1 and copied from there, too. -/
theorem ofRequests_standing_reopened :
    let mixin : Mixin :=
      { name := ['m'], declaration := ⟨⟨['f'], 1⟩, 0, ['@', 'm', ':']⟩, body := .nil, parameters := [],
        doc? := none, scope := 0 }
    let earlier : List Request := [.enter 0, .setMixin 1 mixin, .enter 1, .release 1, .enter 0]
    let later : List Request := [.enter 1, .release 7]
    Holds earlier 1 mixin later 2 ∧
      (ofRequests (earlier ++ .setMixin 1 mixin :: later)).bound? 2 ['m'] = some { mixin with scope := 1 } ∧
      Standing earlier 1 mixin later := by
  intro mixin earlier later
  have hcopied : Holds earlier 1 mixin [.enter 1] 2 := .copied (.bound (by decide))
  have hholds : Holds earlier 1 mixin later 2 := .kept hcopied (by decide) nofun
  obtain ⟨hbound, -, hstanding⟩ := (ofRequests_standing _).2.2.2 earlier 1 mixin later 2 rfl hholds
  exact ⟨hholds, hbound, hstanding⟩

end Scl.Scopes
