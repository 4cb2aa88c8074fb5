import Scl.Proofs.Expansion.Parts

/-!
# How computations end

From the outcome of a computation to the outcomes of its parts, for success and for failure.
-/

namespace Scl

theorem Except.mapError_eq_ok {ε ε' α : Type} {x : Except ε α} {f : ε → ε'} {a : α} :
    x.mapError f = .ok a ↔ x = .ok a := by
  cases x with
  | ok b => exact ⟨fun h => congrArg Except.ok (Except.ok.inj h), fun h => congrArg Except.ok (Except.ok.inj h)⟩
  | error e => exact ⟨nofun, nofun⟩

theorem Except.bind_eq_ok_iff {ε α β : Type} {x : Except ε α} {f : α → Except ε β} {b : β} :
    x >>= f = .ok b ↔ ∃ a, x = .ok a ∧ f a = .ok b := by
  cases x with
  | ok a =>
    refine ⟨fun h => ⟨a, rfl, h⟩, ?_⟩
    rintro ⟨a', heq, h⟩
    cases heq
    exact h
  | error e => exact ⟨nofun, fun ⟨_, h, _⟩ => nomatch h⟩

namespace Expansion

variable {α β : Type} {scopes after : Scopes} {e : Error} {location : Location}

theorem bind_eq_ok {first : Expansion α} {rest : α → Expansion β} {b : β}
    (h : (first >>= rest) scopes = some (.ok b, after)) :
    ∃ a between, first scopes = some (.ok a, between) ∧ rest a between = some (.ok b, after) := by
  rw [bind_apply] at h
  match hfirst : first scopes with
  | none => rw [hfirst] at h; cases h
  | some (.error e, between) => rw [hfirst] at h; cases h
  | some (.ok a, between) =>
    rw [hfirst] at h
    exact ⟨a, between, rfl, h⟩

theorem bind_eq_error {first : Expansion α} {rest : α → Expansion β}
    (h : (first >>= rest) scopes = some (.error e, after)) :
    first scopes = some (.error e, after) ∨
      ∃ a between, first scopes = some (.ok a, between) ∧ rest a between = some (.error e, after) := by
  rw [bind_apply] at h
  match hfirst : first scopes with
  | none => rw [hfirst] at h; cases h
  | some (.error e, between) =>
    rw [hfirst] at h
    cases h
    exact .inl rfl
  | some (.ok a, between) =>
    rw [hfirst] at h
    exact .inr ⟨a, between, rfl, h⟩

theorem bind_eq_some {first : Expansion α} {rest : α → Expansion β} {result : Except Error β}
    (h : (first >>= rest) scopes = some (result, after)) :
    (∃ e, first scopes = some (.error e, after)) ∨
      ∃ a between, first scopes = some (.ok a, between) ∧ rest a between = some (result, after) := by
  cases result with
  | ok b => exact .inr (bind_eq_ok h)
  | error e => exact (bind_eq_error h).imp_left fun hfirst => ⟨e, hfirst⟩

theorem fail_eq_error {cause : Cause} (h : (fail location cause : Expansion α) scopes = some (.error e, after)) :
    e = .located location cause := by
  cases h
  rfl

theorem ofCause_eq_error {x : Except Cause α} (h : ofCause location x scopes = some (.error e, after)) :
    ∃ cause, e = .located location cause := by
  cases x with
  | ok a => cases h
  | error cause => exact ⟨cause, fail_eq_error h⟩

theorem ofCause_eq_ok {x : Except Cause α} {a : α} (h : ofCause location x scopes = some (.ok a, after)) :
    x = .ok a ∧ after = scopes := by
  cases x with
  | ok b =>
    cases h
    exact ⟨rfl, rfl⟩
  | error cause => cases h

theorem ask_eq_error {read : Scopes → Except Cause α} (h : ask location read scopes = some (.error e, after)) :
    ∃ cause, e = .located location cause := by
  rw [ask_apply] at h
  cases hread : read scopes with
  | ok a => rw [hread] at h; cases h
  | error cause =>
    rw [hread] at h
    cases h
    exact ⟨cause, rfl⟩

theorem ask_eq_ok {read : Scopes → Except Cause α} {a : α} (h : ask location read scopes = some (.ok a, after)) :
    read scopes = .ok a ∧ after = scopes := by
  rw [ask_apply] at h
  cases hread : read scopes with
  | ok b =>
    rw [hread] at h
    cases h
    exact ⟨rfl, rfl⟩
  | error cause => rw [hread] at h; cases h

theorem nested_eq_error {body : Expansion α} (h : nested location body scopes = some (.error e, after)) :
    ∃ inner, body scopes = some (.error inner, after) ∧ e = .nested location inner := by
  rw [nested_apply] at h
  match hbody : body scopes with
  | none => rw [hbody] at h; cases h
  | some (.ok a, between) => rw [hbody] at h; cases h
  | some (.error inner, between) =>
    rw [hbody] at h
    cases h
    exact ⟨inner, rfl, rfl⟩

theorem nested_eq_ok {body : Expansion α} {a : α} (h : nested location body scopes = some (.ok a, after)) :
    body scopes = some (.ok a, after) := by
  rw [nested_apply] at h
  match hbody : body scopes with
  | none => rw [hbody] at h; cases h
  | some (.error inner, between) => rw [hbody] at h; cases h
  | some (.ok b, between) =>
    rw [hbody] at h
    exact h

theorem inScope_eq_some {inheritance : Inheritance} {parent : Nat} {body : Nat → Expansion α}
    {result : Except Error α} (h : inScope inheritance parent body scopes = some (result, after)) :
    ∃ inner, body scopes.count (scopes.enter inheritance parent) = some (result, inner) ∧
      after = inner.release scopes.count := by
  rw [inScope] at h
  cases hbody : body scopes.count (scopes.enter inheritance parent) with
  | none => rw [hbody] at h; cases h
  | some pair =>
    rw [hbody] at h
    cases h
    exact ⟨_, rfl, rfl⟩

theorem binding_eq_error {mixin : Mixin} {id : Nat} {slots : List Slot}
    (h : binding mixin location id slots scopes = some (.error e, after)) :
    Scopes.bind mixin location id slots scopes = .error e := by
  rw [binding_apply] at h
  cases hbind : Scopes.bind mixin location id slots scopes with
  | ok bound => rw [hbind] at h; cases h
  | error inner =>
    rw [hbind] at h
    cases h
    rfl

theorem binding_eq_ok {mixin : Mixin} {id : Nat} {slots : List Slot} {done : PUnit}
    (h : binding mixin location id slots scopes = some (.ok done, after)) :
    Scopes.bind mixin location id slots scopes = .ok after := by
  rw [binding_apply] at h
  cases hbind : Scopes.bind mixin location id slots scopes with
  | ok bound =>
    rw [hbind] at h
    cases h
    rfl
  | error inner => rw [hbind] at h; cases h

theorem eq_nil_of_not_isEmpty {forest : Forest Line} (h : ¬(!forest.isEmpty) = true) : forest = .nil := by
  cases forest with
  | nil => rfl
  | cons => exact absurd rfl h

/-! ## Files -/

theorem load_of_scan {files : FileSystem} {path source : Text} {forest : Forest Line}
    (hread : files.read path = .ok source) (hscan : Line.scan path source = .ok forest) :
    files.load path = .ok forest := by
  rw [FileSystem.load, hread]
  simp only [hscan]

theorem expandAll_cons {files : FileSystem} {path : Text} {forest : Forest Line}
    (hload : files.load path = .ok forest) (run : Expander) (id : Nat) (rest : List Text) :
    files.expandAll run id (path :: rest) =
      run forest id >>= fun first => files.expandAll run id rest >>= fun others => pure (first ++ others) := by
  rw [FileSystem.expandAll, hload]
  rfl

theorem expandAll_error {files : FileSystem} {path : Text} (hload : files.load path = .error e) (run : Expander)
    (id : Nat) (rest : List Text) (scopes : Scopes) :
    files.expandAll run id (path :: rest) scopes = some (.error e, scopes) := by
  rw [FileSystem.expandAll, hload]
  rfl

theorem expandAll_append (files : FileSystem) (run : Expander) (id : Nat) (before rest : List Text) :
    files.expandAll run id (before ++ rest) =
      files.expandAll run id before >>= fun first => files.expandAll run id rest >>= fun others =>
        pure (first ++ others) := by
  induction before with
  | nil =>
    show files.expandAll run id rest = files.expandAll run id rest >>= pure
    rw [bind_pure]
  | cons path before ih =>
    simp only [List.cons_append, FileSystem.expandAll, ih, bind_assoc, pure_bind, Output.append_assoc]

theorem expandAll_snoc {files : FileSystem} {run : Expander} {id : Nat} {before : List Text} {between middle : Scopes}
    {output first : Output} {path : Text} {forest : Forest Line}
    (hbefore : files.expandAll run id before scopes = some (.ok output, between))
    (hload : files.load path = .ok forest) (hfirst : run forest id between = some (.ok first, middle)) :
    files.expandAll run id (before ++ [path]) scopes = some (.ok (output ++ (first ++ .nil)), middle) := by
  rw [expandAll_append, bind_apply, hbefore]
  simp only [bind_apply, expandAll_cons hload, hfirst]
  rfl

/-! ## Parameters -/

/-- A property that assignments in the new scope keep holds when all parameters are bound. -/
theorem bind_keeps {I : Scopes → Prop} {mixin : Mixin} {id : Nat}
    (hI : ∀ scopes name value, I scopes → I (scopes.setVariable id name value)) {slots : List Slot}
    {bound : Scopes} (hscopes : I scopes) (h : Scopes.bind mixin location id slots scopes = .ok bound) :
    I bound := by
  induction slots generalizing scopes with
  | nil =>
    cases h
    exact hscopes
  | cons slot rest ih =>
    rw [bind_cons] at h
    cases hvalue : slotValue mixin location id scopes slot with
    | error e => rw [hvalue] at h; cases h
    | ok value =>
      rw [hvalue] at h
      exact ih (hI scopes slot.1.name value hscopes) h

/-- Binding fails at the call, or inside of it at the declaration, where a default cannot be filled in. -/
theorem bind_eq_error_cases {mixin : Mixin} {id : Nat} {slots : List Slot}
    (h : Scopes.bind mixin location id slots scopes = .error e) :
    ∃ cause, e = .located location cause ∨
      e = .nested location (.located mixin.declaration.location cause) := by
  induction slots generalizing scopes with
  | nil => cases h
  | cons slot rest ih =>
    rw [bind_cons] at h
    cases hvalue : slotValue mixin location id scopes slot with
    | ok value =>
      rw [hvalue] at h
      exact ih h
    | error inner =>
      rw [hvalue] at h
      cases h
      obtain ⟨⟨name, default?⟩, given?⟩ := slot
      match given?, default? with
      | some value, _ => cases hvalue
      | none, none =>
        cases hvalue
        exact ⟨_, .inl rfl⟩
      | none, some default =>
        simp only [slotValue] at hvalue
        cases hfill : scopes.fill id default with
        | ok value => rw [hfill] at hvalue; cases hvalue
        | error cause =>
          rw [hfill] at hvalue
          cases hvalue
          exact ⟨cause, .inr rfl⟩

end Expansion

end Scl
