import Mathlib.Data.List.Perm.Subperm
import Scl.Proofs.Expansion.Outcome
import Scl.Proofs.Statement.Parameters

/-!
# Parameters and what a call gives them

The values of a call go to the parameters of a mixin by position and by name. Every parameter ends up in a
slot, with the value that it was given or with none.

* `Slot.assignAll_eq_ok_iff`: when values can be given by name, and what the slots are then;
* `Values.Fits`: the values of a call fit some parameters;
* `Values.Binds`: what the parameters get, defaults included, one after the other;
* `Values.Fits.takes`: a call whose values fit has a number of values that the mixin takes;
* `Mixin.slots_eq_ok_iff`: when the values of a call go to parameters, and which to which.
-/

namespace Scl

/-! ## Values by name -/

namespace Bindings

variable {α : Type} {bindings : Bindings α} {name : Text}

theorem find?_eq_none_iff : bindings.find? name = none ↔ name ∉ bindings.map Prod.fst := by
  induction bindings with
  | nil => exact iff_of_true rfl List.not_mem_nil
  | cons binding older ih =>
    obtain ⟨bound, value⟩ := binding
    rw [find?, List.map_cons, List.mem_cons, not_or]
    split
    · rename_i heq
      exact iff_of_false nofun fun h => h.1 heq.symm
    · rename_i hne
      rw [ih]
      exact ⟨fun h => ⟨Ne.symm hne, h⟩, fun h => h.2⟩

/-- Where no name is bound twice, what a name is bound to is what is listed with it. -/
theorem find?_eq_some_iff {value : α} (h : (bindings.map Prod.fst).Nodup) :
    bindings.find? name = some value ↔ (name, value) ∈ bindings := by
  induction bindings with
  | nil => exact iff_of_false nofun List.not_mem_nil
  | cons binding older ih =>
    obtain ⟨bound, first⟩ := binding
    rw [List.map_cons, List.nodup_cons] at h
    rw [find?, List.mem_cons, Prod.mk.injEq]
    split
    · rename_i heq
      subst heq
      have hnot : (bound, value) ∉ older := fun hmem => h.1 (List.mem_map.mpr ⟨_, hmem, rfl⟩)
      simp only [Option.some.injEq, true_and, hnot, or_false]
      exact eq_comm
    · rename_i hne
      rw [ih h.2]
      exact ⟨.inr, fun hmem => hmem.resolve_left fun heq => hne heq.1.symm⟩

end Bindings

/-! ## Slots -/

namespace Slot

variable {mixin name value : Text} {slots slots' : List Slot}

/-- The slot with a value found by name, if it has none yet. -/
def fillIn (named : Bindings Text) (slot : Slot) : Slot :=
  (slot.1, slot.2.or (named.find? slot.1.name))

/-- The parameter of that name is there and has no value yet. -/
def Free (slots : List Slot) (name : Text) : Prop :=
  ∃ parameter : Parameter, parameter.name = name ∧ (parameter, none) ∈ slots

theorem fillIn_of_ne {slot : Slot} (h : slot.1.name ≠ name) (value : Text) :
    fillIn [(name, value)] slot = slot := by
  rw [fillIn, Bindings.find?, if_neg (Ne.symm h), Bindings.find?, Option.or_none]

theorem names_fillIn (named : Bindings Text) (slots : List Slot) :
    (slots.map (fillIn named)).map (·.1.name) = slots.map (·.1.name) := by
  rw [List.map_map]
  rfl

/-- Values by name may be filled in one after the other. -/
theorem fillIn_cons (name value : Text) (rest : Bindings Text) (slot : Slot) :
    fillIn ((name, value) :: rest) slot = fillIn rest (fillIn [(name, value)] slot) := by
  refine Prod.ext rfl ?_
  simp only [fillIn, Bindings.find?]
  split
  · rw [Option.or_assoc, Option.some_or]
  · rw [Option.or_none]

/-- One value by name takes up one slot. -/
theorem free_fillIn {other : Text} :
    Free (slots.map (fillIn [(name, value)])) other ↔ other ≠ name ∧ Free slots other := by
  constructor
  · rintro ⟨parameter, rfl, hmem⟩
    obtain ⟨slot, hslot, heq⟩ := List.mem_map.mp hmem
    obtain ⟨rfl, hnone⟩ := Prod.mk.inj heq
    rw [Option.or_eq_none_iff, Bindings.find?_eq_none_iff] at hnone
    refine ⟨fun h => hnone.2 (by rw [h]; exact List.mem_cons_self), slot.1, rfl, ?_⟩
    rw [← hnone.1]
    exact hslot
  · rintro ⟨hne, parameter, rfl, hmem⟩
    refine ⟨parameter, rfl, List.mem_map.mpr ⟨_, hmem, ?_⟩⟩
    exact fillIn_of_ne hne value

theorem map_fillIn_of_notMem (h : name ∉ slots.map (·.1.name)) (value : Text) :
    slots.map (fillIn [(name, value)]) = slots := by
  refine (List.map_congr_left fun slot hslot => ?_).trans (List.map_id slots)
  exact fillIn_of_ne (fun heq => h (List.mem_map.mpr ⟨slot, hslot, heq⟩)) value

section

variable {parameter : Parameter} {given? : Option Text} {rest : List Slot}

theorem free_cons_of_ne (h : parameter.name ≠ name) : Free ((parameter, given?) :: rest) name ↔ Free rest name := by
  refine exists_congr fun other => and_congr_right fun hname => ?_
  rw [List.mem_cons]
  refine or_iff_right fun hfirst => h ?_
  cases hfirst
  exact hname

theorem assign_cons_of_ne (h : parameter.name ≠ name) :
    assign mixin name value ((parameter, given?) :: rest) =
      assign mixin name value rest >>= fun others => .ok ((parameter, given?) :: others) := by
  cases given? <;> exact if_neg h

end

/-- A value can be given to a parameter without one, and all other slots stay as they are. -/
theorem assign_eq_ok_iff (h : (slots.map (·.1.name)).Nodup) :
    assign mixin name value slots = .ok slots' ↔
      Free slots name ∧ slots.map (fillIn [(name, value)]) = slots' := by
  induction slots generalizing slots' with
  | nil => exact iff_of_false nofun fun ⟨⟨_, _, hmem⟩, _⟩ => List.not_mem_nil hmem
  | cons slot rest ih =>
    obtain ⟨parameter, given?⟩ := slot
    rw [List.map_cons, List.nodup_cons] at h
    by_cases heq : parameter.name = name
    · -- The slot is this one, and since names differ it is no other.
      subst heq
      rw [List.map_cons, map_fillIn_of_notMem h.1]
      cases given? with
      | none =>
        have hfree : Free ((parameter, none) :: rest) parameter.name := ⟨parameter, rfl, List.mem_cons_self⟩
        rw [assign, if_pos rfl, fillIn, Bindings.find?, if_pos rfl, Option.none_or, Except.ok.injEq]
        exact ⟨fun hslots => ⟨hfree, hslots⟩, fun hslots => hslots.2⟩
      | some old =>
        rw [assign, if_pos rfl]
        refine iff_of_false nofun fun ⟨⟨other, hname, hmem⟩, _⟩ => ?_
        rcases List.mem_cons.mp hmem with heq | hmem
        · cases heq
        · exact h.1 (hname ▸ List.mem_map_of_mem hmem)
    · rw [assign_cons_of_ne heq, Except.bind_eq_ok_iff, free_cons_of_ne heq, List.map_cons, fillIn_of_ne heq]
      constructor
      · rintro ⟨others, hothers, hslots⟩
        obtain ⟨hname, rfl⟩ := (ih h.2).mp hothers
        exact ⟨hname, Except.ok.inj hslots⟩
      · rintro ⟨hname, rfl⟩
        exact ⟨_, (ih h.2).mpr ⟨hname, rfl⟩, rfl⟩

/-- Values can be given by name if the names differ and are those of parameters without a value. -/
theorem assignAll_eq_ok_iff {named : List (Text × Text)} (h : (slots.map (·.1.name)).Nodup) :
    assignAll mixin named slots = .ok slots' ↔
      (named.map Prod.fst).Nodup ∧ (∀ name ∈ named.map Prod.fst, Free slots name) ∧
        slots.map (fillIn named) = slots' := by
  induction named generalizing slots with
  | nil =>
    have hmap : slots.map (fillIn []) = slots := by
      refine (List.map_congr_left fun slot _ => ?_).trans (List.map_id slots)
      rw [fillIn, Bindings.find?, Option.or_none]
      rfl
    rw [hmap, assignAll, Except.ok.injEq]
    exact ⟨fun hslots => ⟨.nil, fun _ hname => absurd hname List.not_mem_nil, hslots⟩, fun hslots => hslots.2.2⟩
  | cons first rest ih =>
    obtain ⟨name, value⟩ := first
    have hfill : slots.map (fillIn ((name, value) :: rest)) =
        (slots.map (fillIn [(name, value)])).map (fillIn rest) := by
      rw [List.map_map]
      exact List.map_congr_left fun slot _ => fillIn_cons name value rest slot
    have hnames : ((slots.map (fillIn [(name, value)])).map (·.1.name)).Nodup := by
      rw [names_fillIn]
      exact h
    rw [assignAll, Except.bind_eq_ok_iff, hfill, List.map_cons, List.nodup_cons, List.forall_mem_cons]
    constructor
    · rintro ⟨between, hassign, hrest⟩
      obtain ⟨hname, rfl⟩ := (assign_eq_ok_iff h).mp hassign
      obtain ⟨hnodup, hfree, hslots⟩ := (ih hnames).mp hrest
      refine ⟨⟨fun hmem => ?_, hnodup⟩, ⟨hname, fun other hother => ?_⟩, hslots⟩
      · exact (free_fillIn.mp (hfree name hmem)).1 rfl
      · exact (free_fillIn.mp (hfree other hother)).2
    · rintro ⟨⟨hnew, hnodup⟩, ⟨hname, hfree⟩, hslots⟩
      refine ⟨_, (assign_eq_ok_iff h).mpr ⟨hname, rfl⟩, (ih hnames).mpr ⟨hnodup, ?_, hslots⟩⟩
      intro other hother
      exact free_fillIn.mpr ⟨fun heq => hnew (heq ▸ hother), hfree other hother⟩

theorem names_positional (parameters : List Parameter) (values : List Text) :
    (positional parameters values).map (·.1.name) = parameters.map (·.name) := by
  fun_induction positional parameters values with
  | case1 => rfl
  | case2 parameter rest ih => exact congrArg (parameter.name :: ·) ih
  | case3 parameter rest value values ih => exact congrArg (parameter.name :: ·) ih

theorem mem_positional_none {parameter : Parameter} (parameters : List Parameter) (values : List Text) :
    (parameter, none) ∈ positional parameters values ↔ parameter ∈ parameters.drop values.length := by
  fun_induction positional parameters values with
  | case1 => rw [List.drop_nil]; exact iff_of_false List.not_mem_nil List.not_mem_nil
  | case2 first rest ih =>
    rw [List.length_nil, List.drop_zero] at ih ⊢
    rw [List.mem_cons, List.mem_cons, ih, Prod.mk.injEq]
    simp only [and_true]
  | case3 first rest value values ih =>
    rw [List.length_cons, List.drop_succ_cons, ← ih, List.mem_cons, Prod.mk.injEq]
    simp only [reduceCtorEq, and_false, false_or]

/-- The parameters without a value by position are those after the values. -/
theorem free_positional {parameters : List Parameter} {values : List Text} :
    Free (positional parameters values) name ↔
      name ∈ (parameters.drop values.length).map (·.name) := by
  simp only [Free, mem_positional_none, List.mem_map, and_comm]

end Slot

/-! ## Values and parameters -/

namespace Values

/-- The value that a call gives the parameter at a position. -/
def given? (values : Values) (index : Nat) (parameter : Parameter) : Option Text :=
  values.positional[index]?.or (Bindings.find? values.named parameter.name)

/-- The parameters from a position on, with the values that a call gives them. -/
def slots (values : Values) : Nat → List Parameter → List Slot
  | _, [] => []
  | index, parameter :: rest => (parameter, values.given? index parameter) :: values.slots (index + 1) rest

theorem map_fillIn_positional (values : Values) (index : Nat) (parameters : List Parameter) :
    (Slot.positional parameters (values.positional.drop index)).map (Slot.fillIn values.named) =
      values.slots index parameters := by
  induction parameters generalizing index with
  | nil => rfl
  | cons parameter rest ih =>
    rw [slots, ← ih (index + 1), given?, ← List.head?_drop, ← List.drop_drop]
    cases values.positional.drop index <;> rfl

/-- The values of a call fit some parameters: there are no more values by position than parameters; no name is
given twice; each name is that of a parameter which has no value by position; and each of these that has no
default is named. -/
structure Fits (values : Values) (parameters : List Parameter) : Prop where
  few : values.positional.length ≤ parameters.length
  once : (values.named.map Prod.fst).Nodup
  known : ∀ name ∈ values.named.map Prod.fst,
    name ∈ (parameters.drop values.positional.length).map (·.name)
  enough : ∀ parameter ∈ parameters.drop values.positional.length, parameter.default? = none →
    parameter.name ∈ values.named.map Prod.fst

/-- What the parameter at a position gets: the value at that position, else the value of its name, else its
default, filled in with what is seen. -/
inductive Gives (values : Values) (seen : Text → Option Text) (index : Nat) (parameter : Parameter) :
    Text → Prop
  | positional {value : Text} : values.positional[index]? = some value → Gives values seen index parameter value
  | named {value : Text} : values.positional.length ≤ index → (parameter.name, value) ∈ values.named →
    Gives values seen index parameter value
  | default {default value : Text} : values.positional.length ≤ index →
    parameter.name ∉ values.named.map Prod.fst → parameter.default? = some default →
    (Template.ofText default).fill seen = .ok value → Gives values seen index parameter value

/-- What the parameters from a position on get, one after the other: each sees those before it. -/
inductive Binds (values : Values) : Nat → (Text → Option Text) → List Parameter → Bindings Text → Prop
  | nil (index : Nat) (seen : Text → Option Text) : Binds values index seen [] []
  | cons {index : Nat} {seen : Text → Option Text} {parameter : Parameter} {value : Text}
    {rest : List Parameter} {bindings : Bindings Text} : values.Gives seen index parameter value →
    Binds values (index + 1) (fun name => if parameter.name = name then some value else seen name) rest
      bindings →
    Binds values index seen (parameter :: rest) ((parameter.name, value) :: bindings)

variable {values : Values} {parameters : List Parameter}

theorem given?_eq_none_iff {index : Nat} {parameter : Parameter} :
    values.given? index parameter = none ↔
      values.positional.length ≤ index ∧ parameter.name ∉ values.named.map Prod.fst := by
  rw [given?, Option.or_eq_none_iff, List.getElem?_eq_none_iff, Bindings.find?_eq_none_iff]

theorem given?_eq_some_iff (honce : (values.named.map Prod.fst).Nodup) {index : Nat} {parameter : Parameter}
    {value : Text} :
    values.given? index parameter = some value ↔ values.positional[index]? = some value ∨
      values.positional.length ≤ index ∧ (parameter.name, value) ∈ values.named := by
  rw [given?, Option.or_eq_some_iff, List.getElem?_eq_none_iff, Bindings.find?_eq_some_iff honce]

/-- A parameter gets what the call gives it or, failing that, its default. -/
theorem gives_iff (honce : (values.named.map Prod.fst).Nodup) {seen : Text → Option Text} {index : Nat}
    {parameter : Parameter} {value : Text} :
    values.Gives seen index parameter value ↔ values.given? index parameter = some value ∨
      values.given? index parameter = none ∧ ∃ default, parameter.default? = some default ∧
        (Template.ofText default).fill seen = .ok value := by
  rw [given?_eq_some_iff honce, given?_eq_none_iff]
  constructor
  · intro h
    cases h with
    | positional hvalue => exact .inl (.inl hvalue)
    | named hle hmem => exact .inl (.inr ⟨hle, hmem⟩)
    | default hle hnot hdefault hfill => exact .inr ⟨⟨hle, hnot⟩, _, hdefault, hfill⟩
  · rintro ((hvalue | ⟨hle, hmem⟩) | ⟨⟨hle, hnot⟩, default, hdefault, hfill⟩)
    · exact .positional hvalue
    · exact .named hle hmem
    · exact .default hle hnot hdefault hfill

theorem Fits.named_le (h : values.Fits parameters) :
    values.named.length ≤ parameters.length - values.positional.length := by
  have hlength := (h.once.subperm h.known).length_le
  rwa [List.length_map, List.length_map, List.length_drop] at hlength

/-- There are at least as many names as parameters that need one. -/
theorem Fits.required_le (h : values.Fits parameters) (hnodup : (parameters.map (·.name)).Nodup) :
    Parameter.required (parameters.drop values.positional.length) ≤ values.named.length := by
  let needed := (parameters.drop values.positional.length).filter (·.default?.isNone)
  have hsub : needed.Sublist parameters := List.filter_sublist.trans (List.drop_sublist ..)
  have hmem : needed.map (·.name) ⊆ values.named.map Prod.fst := fun name hname => by
    obtain ⟨parameter, hparameter, rfl⟩ := List.mem_map.mp hname
    obtain ⟨hdrop, hdefault⟩ := List.mem_filter.mp hparameter
    exact h.enough parameter hdrop (Option.isNone_iff_eq_none.mp hdefault)
  have hlength := ((hnodup.sublist (hsub.map _)).subperm hmem).length_le
  rwa [List.length_map, List.length_map, ← List.countP_eq_length_filter] at hlength

/-- A call whose values fit is not turned away for their number. -/
theorem Fits.takes {mixin : Mixin} (h : values.Fits mixin.parameters)
    (hnodup : (mixin.parameters.map (·.name)).Nodup) : mixin.takes values.count := by
  have hfew := h.few
  have hnamed := h.named_le
  have hrequired := h.required_le hnodup
  have hfirst : Parameter.required (mixin.parameters.take values.positional.length) ≤
      values.positional.length :=
    Nat.le_trans List.countP_le_length (List.length_take_le _ _)
  have hall : mixin.required = Parameter.required (mixin.parameters.take values.positional.length) +
      Parameter.required (mixin.parameters.drop values.positional.length) := by
    rw [Parameter.required, Parameter.required, ← List.countP_append, List.take_append_drop]
    rfl
  rw [Mixin.takes, Bool.and_eq_true, decide_eq_true_eq, decide_eq_true_eq, Values.count]
  omega

theorem Binds.names {index : Nat} {seen : Text → Option Text} {bindings : Bindings Text}
    (h : values.Binds index seen parameters bindings) :
    bindings.map Prod.fst = parameters.map (·.name) := by
  induction h with
  | nil index seen => rfl
  | @cons index seen parameter value rest bindings hgives hrest ih => exact congrArg (parameter.name :: ·) ih

theorem Binds.exists_gives {index : Nat} {seen : Text → Option Text} {bindings : Bindings Text}
    (h : values.Binds index seen parameters bindings) {offset : Nat} {parameter : Parameter}
    (hparameter : parameters[offset]? = some parameter) :
    ∃ seen value, values.Gives seen (index + offset) parameter value := by
  induction h generalizing offset with
  | nil index seen => cases hparameter
  | @cons index seen first value rest bindings hgives hrest ih =>
    cases offset with
    | zero =>
      cases hparameter
      exact ⟨seen, value, hgives⟩
    | succ offset =>
      rw [show index + (offset + 1) = index + 1 + offset by omega]
      exact ih hparameter

/-- A parameter that gets a value though it has no default has been given one. -/
theorem Binds.enough {seen : Text → Option Text} {bindings : Bindings Text}
    (h : values.Binds 0 seen parameters bindings) :
    ∀ parameter ∈ parameters.drop values.positional.length, parameter.default? = none →
      parameter.name ∈ values.named.map Prod.fst := by
  intro parameter hparameter hdefault
  obtain ⟨offset, hoffset⟩ := List.mem_iff_getElem?.mp hparameter
  rw [List.getElem?_drop] at hoffset
  obtain ⟨seen, value, hgives⟩ := h.exists_gives hoffset
  cases hgives with
  | positional hvalue =>
    rw [List.getElem?_eq_none (by omega)] at hvalue
    cases hvalue
  | named _ hmem => exact List.mem_map_of_mem hmem
  | default _ _ hsome _ =>
    rw [hdefault] at hsome
    cases hsome

end Values

/-- The values that a call gives by position and by name go to parameters that differ. -/
theorem Mixin.slots_eq_ok_iff {mixin : Mixin} (hnodup : (mixin.parameters.map (·.name)).Nodup) {values : Values}
    {slots : List Slot} :
    mixin.slots values = .ok slots ↔
      (values.named.map Prod.fst).Nodup ∧
        (∀ name ∈ values.named.map Prod.fst,
          name ∈ (mixin.parameters.drop values.positional.length).map (·.name)) ∧
        values.slots 0 mixin.parameters = slots := by
  rw [Mixin.slots, Slot.assignAll_eq_ok_iff (by rwa [Slot.names_positional]),
    ← values.map_fillIn_positional 0 mixin.parameters, List.drop_zero]
  simp only [Slot.free_positional]

end Scl
