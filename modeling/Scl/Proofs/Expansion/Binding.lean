import Mathlib.Data.List.Forall2
import Mathlib.Data.List.Perm.Basic
import Scl.Proofs.Expansion.Slots
import Scl.Proofs.Scope.Stack

/-!
# Which calls run the body of their mixin

A call runs the body of its mixin if its values fit the parameters (`Values.Fits`) and every default that is
needed can be filled in (`Values.Binds`). The order in which values are given by name does not matter.

* `Scopes.bind_eq_ok_iff`: parameters become variables if each of them gets a value;
* `Scopes.value?_setVariables`: what the new scope sees then;
* `Scopes.evaluate_rearranged`: arguments in another order have the same values;
* `Expansion.visits_iff`: a call runs the body where its parameters are bound;
* `expandCall_visits_iff`: so it does under these conditions, in that scope, and otherwise fails.
-/

namespace Scl

/-! ## Parameters as variables -/

namespace Scopes

/-- Sets variables of scope `id`, in the order given. -/
def setVariables (scopes : Scopes) (id : Nat) (bindings : Bindings Text) : Scopes :=
  bindings.foldl (fun scopes (name, value) => scopes.setVariable id name value) scopes

variable {scopes bound : Scopes} {id : Nat}

theorem fill_eq_ok_iff {text filled : Text} :
    scopes.fill id text = .ok filled ↔ (Template.ofText text).fill (scopes.value? id) = .ok filled := by
  rw [fill]
  cases (Template.ofText text).fill (scopes.value? id) with
  | ok output => simp only [Except.ok.injEq]
  | error failure => exact iff_of_false nofun nofun

theorem slotValue_eq_ok_iff {mixin : Mixin} {location : Location} {values : Values}
    (honce : (values.named.map Prod.fst).Nodup) {index : Nat} {parameter : Parameter} {value : Text} :
    Expansion.slotValue mixin location id scopes (parameter, values.given? index parameter) = .ok value ↔
      values.Gives (scopes.value? id) index parameter value := by
  obtain ⟨name, default?⟩ := parameter
  rw [Values.gives_iff honce]
  cases values.given? index ⟨name, default?⟩ with
  | some given =>
    rw [Expansion.slotValue, Except.ok.injEq, Option.some.injEq]
    constructor
    · exact .inl
    · rintro (heq | ⟨hnone, -⟩)
      · exact heq
      · cases hnone
  | none =>
    cases default? with
    | none =>
      rw [Expansion.slotValue]
      constructor
      · intro h
        cases h
      · rintro (hsome | ⟨-, _, hsome, -⟩)
        · cases hsome
        · cases hsome
    | some default =>
      rw [Expansion.slotValue, Except.mapError_eq_ok, fill_eq_ok_iff]
      constructor
      · exact fun hfill => .inr ⟨rfl, default, rfl, hfill⟩
      · rintro (hsome | ⟨-, _, hsome, hfill⟩)
        · cases hsome
        · cases hsome
          exact hfill

/-- Parameters become variables one after the other, if each of them gets a value. -/
theorem bind_eq_ok_iff {mixin : Mixin} {location : Location} {values : Values}
    (honce : (values.named.map Prod.fst).Nodup) (hnewest : id + 1 = scopes.count) {index : Nat}
    {parameters : List Parameter} :
    Scopes.bind mixin location id (values.slots index parameters) scopes = .ok bound ↔
      ∃ bindings, values.Binds index (scopes.value? id) parameters bindings ∧
        scopes.setVariables id bindings = bound := by
  induction parameters generalizing index scopes with
  | nil =>
    rw [Values.slots, Scopes.bind, Except.ok.injEq]
    constructor
    · intro h
      exact ⟨[], .nil index _, h⟩
    · rintro ⟨bindings, hbinds, h⟩
      cases hbinds
      exact h
  | cons parameter rest ih =>
    have hcount : ∀ value, id + 1 = (scopes.setVariable id parameter.name value).count := fun _ => hnewest
    have hseen : ∀ value, (scopes.setVariable id parameter.name value).value? id =
        fun name => if parameter.name = name then some value else scopes.value? id name := fun value => by
      funext name
      rw [value?_setVariable hnewest]
      simp only [true_and]
    rw [Values.slots, Expansion.bind_cons, Except.bind_eq_ok_iff]
    constructor
    · rintro ⟨value, hvalue, hrest⟩
      obtain ⟨bindings, hbinds, hbound⟩ := (ih (hcount value)).mp hrest
      rw [hseen] at hbinds
      exact ⟨_, .cons ((slotValue_eq_ok_iff honce).mp hvalue) hbinds, hbound⟩
    · rintro ⟨_, hbinds, hbound⟩
      cases hbinds with
      | @cons _ _ _ value _ bindings hgives hbinds =>
        rw [← hseen] at hbinds
        refine ⟨value, (slotValue_eq_ok_iff honce).mpr hgives, ?_⟩
        exact (ih (hcount value)).mpr ⟨bindings, hbinds, hbound⟩

theorem value?_setVariables (hnewest : id + 1 = scopes.count) {bindings : Bindings Text}
    (hnodup : (bindings.map Prod.fst).Nodup) (name : Text) :
    (scopes.setVariables id bindings).value? id name = (bindings.find? name).or (scopes.value? id name) := by
  induction bindings generalizing scopes with
  | nil => rfl
  | cons binding rest ih =>
    obtain ⟨first, value⟩ := binding
    rw [List.map_cons, List.nodup_cons] at hnodup
    have hrest : ((scopes.setVariable id first value).setVariables id rest).value? id name =
        (Bindings.find? rest name).or ((scopes.setVariable id first value).value? id name) :=
      ih hnewest hnodup.2
    rw [value?_setVariable hnewest] at hrest
    refine hrest.trans ?_
    rw [Bindings.find?]
    simp only [true_and]
    split
    · rename_i heq
      rw [Bindings.find?_eq_none_iff.mpr (heq ▸ hnodup.1), Option.none_or, Option.some_or]
    · rfl

theorem mixin?_setVariables (hnewest : id + 1 = scopes.count) (bindings : Bindings Text) (other : Nat)
    (name : Text) : (scopes.setVariables id bindings).mixin? other name = scopes.mixin? other name := by
  induction bindings generalizing scopes with
  | nil => rfl
  | cons binding rest ih =>
    have hrest : ((scopes.setVariable id binding.1 binding.2).setVariables id rest).mixin? other name =
        (scopes.setVariable id binding.1 binding.2).mixin? other name := ih hnewest
    exact hrest.trans (mixin?_setVariable hnewest _ _ other name)

end Scopes

/-! ## Arguments in another order -/

/-- Values that differ at most in the order of those by name. -/
structure Values.Rearranged (values others : Values) : Prop where
  positional : values.positional = others.positional
  named : values.named.Perm others.named

namespace Values.Rearranged

variable {values others : Values} {parameters : List Parameter}

theorem symm (h : values.Rearranged others) : others.Rearranged values :=
  ⟨h.positional.symm, h.named.symm⟩

theorem fits (h : values.Rearranged others) (hfits : values.Fits parameters) : others.Fits parameters := by
  have hnames := h.named.map Prod.fst
  have hmem : ∀ name, name ∈ values.named.map Prod.fst ↔ name ∈ others.named.map Prod.fst := fun _ =>
    hnames.mem_iff
  obtain ⟨hfew, honce, hknown, henough⟩ := hfits
  simp only [h.positional, hmem] at hfew hknown henough
  exact ⟨hfew, hnames.nodup honce, hknown, henough⟩

theorem gives (h : values.Rearranged others) {seen : Text → Option Text} {index : Nat} {parameter : Parameter}
    {value : Text} (hgives : values.Gives seen index parameter value) :
    others.Gives seen index parameter value := by
  cases hgives with
  | positional hvalue => exact .positional (h.positional ▸ hvalue)
  | named hle hmem => exact .named (h.positional ▸ hle) (h.named.mem_iff.mp hmem)
  | default hle hnot hdefault hfill =>
    exact .default (h.positional ▸ hle) (mt (h.named.map Prod.fst).mem_iff.mpr hnot) hdefault hfill

theorem binds (h : values.Rearranged others) {seen : Text → Option Text} {index : Nat}
    {bindings : Bindings Text} (hbinds : values.Binds index seen parameters bindings) :
    others.Binds index seen parameters bindings := by
  induction hbinds with
  | nil index seen => exact .nil index seen
  | cons hgives _ ih => exact .cons (h.gives hgives) ih

end Values.Rearranged

namespace Argument

def isNamed : Argument → Bool
  | single _ => false
  | named .. => true

/-- The same arguments, in an order where those by position stay in line and those by name are anywhere. -/
structure Rearranged (arguments others : List Argument) : Prop where
  positional : arguments.filter (!·.isNamed) = others.filter (!·.isNamed)
  named : (arguments.filter (·.isNamed)).Perm (others.filter (·.isNamed))

end Argument

namespace Scopes

variable {scopes : Scopes} {id : Nat} {arguments others : List Argument} {values : Values}

/-- The value of an argument by position. -/
def tokenValue (scopes : Scopes) (id : Nat) (token : Token) : Except Cause Text :=
  match token.kind with
  | .literal => scopes.fill id token.text
  | .variable => scopes.declared id token.text
  | _ => .error (.token (.unknownToken token.text))

/-- An argument by position has that value. -/
def Single (scopes : Scopes) (id : Nat) (argument : Argument) (value : Text) : Prop :=
  ∃ token, argument = .single token ∧ scopes.tokenValue id token = .ok value

/-- An argument by name gives that value to that name. -/
def Named (scopes : Scopes) (id : Nat) (argument : Argument) (binding : Text × Text) : Prop :=
  ∃ text, argument = .named binding.1 text ∧ scopes.fill id text = .ok binding.2

/-- Each argument is evaluated on its own. -/
theorem evaluate_eq_ok_iff :
    scopes.evaluate id arguments = .ok values ↔
      List.Forall₂ (scopes.Single id) (arguments.filter (!·.isNamed)) values.positional ∧
        List.Forall₂ (scopes.Named id) (arguments.filter (·.isNamed)) values.named := by
  induction arguments generalizing values with
  | nil =>
    obtain ⟨positional, named⟩ := values
    rw [evaluate, List.filter_nil, List.filter_nil, List.forall₂_nil_left_iff, List.forall₂_nil_left_iff,
      Except.ok.injEq, Values.mk.injEq]
    exact ⟨fun h => ⟨h.1.symm, h.2.symm⟩, fun h => ⟨h.1.symm, h.2.symm⟩⟩
  | cons argument rest ih =>
    cases argument with
    | named name text =>
      rw [List.filter_cons_of_neg Bool.false_ne_true, List.filter_cons_of_pos rfl, List.forall₂_cons_left_iff,
        evaluate, Except.bind_eq_ok_iff]
      constructor
      · rintro ⟨value, hvalue, hrest⟩
        obtain ⟨others, hothers, heq⟩ := Except.bind_eq_ok_iff.mp hrest
        obtain ⟨hpositional, hnamed⟩ := ih.mp hothers
        cases heq
        exact ⟨hpositional, _, _, ⟨text, rfl, hvalue⟩, hnamed, rfl⟩
      · rintro ⟨hpositional, ⟨_, value⟩, named, ⟨_, heq, hvalue⟩, hnamed, hvalues⟩
        cases heq
        refine ⟨value, hvalue, Except.bind_eq_ok_iff.mpr ⟨⟨values.positional, named⟩, ih.mpr ?_, ?_⟩⟩
        · exact ⟨hpositional, hnamed⟩
        · rw [← hvalues]
          rfl
    | single token =>
      have hevaluate : scopes.evaluate id (.single token :: rest) =
          scopes.tokenValue id token >>= fun value => scopes.evaluate id rest >>= fun values =>
            .ok { values with positional := value :: values.positional } := by
        obtain ⟨kind, text, location⟩ := token
        cases kind <;> rfl
      rw [List.filter_cons_of_pos rfl, List.filter_cons_of_neg Bool.false_ne_true, List.forall₂_cons_left_iff,
        hevaluate, Except.bind_eq_ok_iff]
      constructor
      · rintro ⟨value, hvalue, hrest⟩
        obtain ⟨others, hothers, heq⟩ := Except.bind_eq_ok_iff.mp hrest
        obtain ⟨hpositional, hnamed⟩ := ih.mp hothers
        cases heq
        exact ⟨⟨_, _, ⟨token, rfl, hvalue⟩, hpositional, rfl⟩, hnamed⟩
      · rintro ⟨⟨value, positional, ⟨_, heq, hvalue⟩, hpositional, hvalues⟩, hnamed⟩
        cases heq
        refine ⟨value, hvalue, Except.bind_eq_ok_iff.mpr ⟨⟨positional, values.named⟩, ih.mpr ?_, ?_⟩⟩
        · exact ⟨hpositional, hnamed⟩
        · rw [← hvalues]

theorem evaluate_rearranged (h : Argument.Rearranged arguments others)
    (hvalues : scopes.evaluate id arguments = .ok values) :
    ∃ values', scopes.evaluate id others = .ok values' ∧ values.Rearranged values' := by
  obtain ⟨hpositional, hnamed⟩ := evaluate_eq_ok_iff.mp hvalues
  obtain ⟨named, hothers, hperm⟩ := List.perm_comp_forall₂ h.named.symm hnamed
  rw [h.positional] at hpositional
  exact ⟨⟨values.positional, named⟩, evaluate_eq_ok_iff.mpr ⟨hpositional, hothers⟩, rfl, hperm.symm⟩

end Scopes

/-! ## Calls -/

namespace Expansion

/-- A call runs a body in the scopes `opened`, of which it releases the newest one afterwards, and ends as the
body does. -/
def Visits (call : Expander → Expansion Output) (location : Location) (body : Forest Line)
    (scopes opened : Scopes) : Prop :=
  ∀ run, call run scopes = (nested location (run body scopes.count) opened).map fun (result, after) =>
    (result, after.release scopes.count)

/-- A call fails without running anything, and leaves the scopes as they are. -/
def Refuses (call : Expander → Expansion Output) (scopes : Scopes) : Prop :=
  ∃ e, ∀ run, call run scopes = some (.error e, scopes)

variable {call : Expander → Expansion Output} {location : Location} {body : Forest Line}
  {scopes opened opened' : Scopes}

/-- A body that has no result in one particular case tells whether it is run there. -/
theorem Visits.unique (h : Visits call location body scopes opened)
    (h' : Visits call location body scopes opened') : opened = opened' := by
  by_contra hne
  let run : Expander := fun _ _ start => if start = opened then none else some (.ok .nil, start)
  have hfirst := h run
  have hsecond := h' run
  rw [nested_apply, show run body scopes.count opened = none from if_pos rfl] at hfirst
  rw [nested_apply, show run body scopes.count opened' = some (.ok .nil, opened') from if_neg (Ne.symm hne),
    hfirst] at hsecond
  cases hsecond

theorem Visits.not_refuses (h : Visits call location body scopes opened) : ¬Refuses call scopes := by
  rintro ⟨e, hfails⟩
  have hnone := h fun _ _ _ => none
  rw [nested_apply, hfails] at hnone
  cases hnone

section

variable {env : Environment} {line : Line} {name : Text} {arguments : List Token} {id : Nat} {mixin : Mixin}
  {values : Values}

/-- A call binds the parameters of its mixin, which leaves the scopes `bound`. -/
def Bound (env : Environment) (location : Location) (mixin : Mixin) (values : Values) (scopes bound : Scopes) :
    Prop :=
  mixin.takes values.count ∧ ∃ slots, mixin.slots values = .ok slots ∧
    Scopes.bind mixin location scopes.count slots (scopes.enter env.inheritance mixin.scope) = .ok bound

theorem expandCall_eq_inScope (run : Expander) (hmixin : scopes.mixin? id name = some mixin)
    (hvalues : scopes.evaluate id (Argument.group arguments) = .ok values) :
    env.expandCall run line .nil name arguments id scopes =
      if mixin.takes values.count then
        inScope env.inheritance mixin.scope (invoke run line.location mixin values) scopes
      else some (.error (.located line.location (.resolution (.wrongArity name mixin.required values.count))),
        scopes) := by
  rw [expandCall_apply, hmixin, callMixin, if_neg (by decide), bind_apply, ask_apply, hvalues]
  show (if (!mixin.takes values.count) = true then fail line.location _ else inScope _ _ _) scopes = _
  cases mixin.takes values.count <;> rfl

theorem Bound.visits {bound : Scopes} (h : Bound env line.location mixin values scopes bound)
    (hmixin : scopes.mixin? id name = some mixin)
    (hvalues : scopes.evaluate id (Argument.group arguments) = .ok values) :
    Visits (fun run => env.expandCall run line .nil name arguments id) line.location mixin.body scopes
      bound := by
  obtain ⟨htakes, slots, hslots, hbind⟩ := h
  intro run
  show env.expandCall run line .nil name arguments id scopes = _
  rw [expandCall_eq_inScope run hmixin hvalues, if_pos htakes, inScope, invoke_apply, hslots]
  simp only [hbind]
  cases nested line.location (run mixin.body scopes.count) bound <;> rfl

theorem refuses_of_not_bound (h : ∀ bound, ¬Bound env line.location mixin values scopes bound)
    (hmixin : scopes.mixin? id name = some mixin)
    (hvalues : scopes.evaluate id (Argument.group arguments) = .ok values) :
    Refuses (fun run => env.expandCall run line .nil name arguments id) scopes := by
  have hpos : 0 < scopes.count := Nat.lt_of_le_of_lt (Nat.zero_le id) (Scopes.lt_count_of_look _ hmixin)
  have hrelease := Scopes.release_enter env.inheritance scopes mixin.scope hpos
  rw [Refuses]
  simp only [expandCall_eq_inScope _ hmixin hvalues]
  by_cases htakes : mixin.takes values.count
  · simp only [if_pos htakes, inScope, invoke_apply]
    cases hslots : mixin.slots values with
    | error e => exact ⟨_, fun _ => congrArg (fun after => some (_, after)) hrelease⟩
    | ok slots =>
      cases hbind : Scopes.bind mixin line.location scopes.count slots
          (scopes.enter env.inheritance mixin.scope) with
      | error e =>
        refine ⟨e, fun _ => ?_⟩
        simp only [hbind, hrelease]
      | ok bound => exact absurd ⟨htakes, slots, hslots, hbind⟩ (h bound)
  · simp only [if_neg htakes]
    exact ⟨_, fun _ => rfl⟩

theorem refuses_iff (hmixin : scopes.mixin? id name = some mixin)
    (hvalues : scopes.evaluate id (Argument.group arguments) = .ok values) :
    Refuses (fun run => env.expandCall run line .nil name arguments id) scopes ↔ ∀ opened,
      ¬Visits (fun run => env.expandCall run line .nil name arguments id) line.location mixin.body scopes
        opened :=
  ⟨fun h _ hvisits => hvisits.not_refuses h,
    fun h => refuses_of_not_bound (fun bound hbound => h bound (hbound.visits hmixin hvalues)) hmixin hvalues⟩

theorem bound_iff {bound : Scopes} (hnodup : (mixin.parameters.map (·.name)).Nodup) :
    Bound env location mixin values scopes bound ↔
      ∃ bindings, values.Fits mixin.parameters ∧
        values.Binds 0 (scopes.value? mixin.scope) mixin.parameters bindings ∧
        (scopes.enter env.inheritance mixin.scope).setVariables scopes.count bindings = bound := by
  have hseen : (scopes.enter env.inheritance mixin.scope).value? scopes.count = scopes.value? mixin.scope := by
    funext name
    rw [Scopes.value?_enter, if_pos rfl]
  constructor
  · rintro ⟨htakes, slots, hslots, hbind⟩
    obtain ⟨honce, hknown, rfl⟩ := (Mixin.slots_eq_ok_iff hnodup).mp hslots
    obtain ⟨bindings, hbinds, hbound⟩ := (Scopes.bind_eq_ok_iff honce rfl).mp hbind
    rw [hseen] at hbinds
    have hfew : values.positional.length ≤ mixin.parameters.length := by
      rw [Mixin.takes, Bool.and_eq_true, decide_eq_true_eq, decide_eq_true_eq, Values.count] at htakes
      omega
    exact ⟨bindings, ⟨hfew, honce, hknown, hbinds.enough⟩, hbinds, hbound⟩
  · rintro ⟨bindings, hfits, hbinds, hbound⟩
    rw [← hseen] at hbinds
    exact ⟨hfits.takes hnodup, _, (Mixin.slots_eq_ok_iff hnodup).mpr ⟨hfits.once, hfits.known, rfl⟩,
      (Scopes.bind_eq_ok_iff hfits.once rfl).mpr ⟨bindings, hbinds, hbound⟩⟩

/-- A call runs the body of its mixin if its values fit the parameters and each parameter gets a value, and
where the parameters are bound to these. -/
theorem visits_iff (hmixin : scopes.mixin? id name = some mixin)
    (hnodup : (mixin.parameters.map (·.name)).Nodup)
    (hvalues : scopes.evaluate id (Argument.group arguments) = .ok values) :
    Visits (fun run => env.expandCall run line .nil name arguments id) line.location mixin.body scopes opened ↔
      ∃ bindings, values.Fits mixin.parameters ∧
        values.Binds 0 (scopes.value? mixin.scope) mixin.parameters bindings ∧
        (scopes.enter env.inheritance mixin.scope).setVariables scopes.count bindings = opened := by
  refine Iff.trans ⟨fun h => ?_, fun h => h.visits hmixin hvalues⟩ (bound_iff hnodup)
  have hbound : ∃ bound, Bound env line.location mixin values scopes bound := by
    by_contra hnone
    exact h.not_refuses (refuses_of_not_bound (not_exists.mp hnone) hmixin hvalues)
  obtain ⟨bound, hbound⟩ := hbound
  rw [h.unique (hbound.visits hmixin hvalues)]
  exact hbound

end

end Expansion

open Expansion

/-- Which calls run the body of their mixin, and in what scopes. The values of the call have to fit the
parameters, and the defaults of those left over have to fill in, each with the bindings of the parameters
before it on top of what the scope of the mixin sees. The body then runs in a new scope below that one, in
which the parameters have these values; otherwise the call fails. Arguments by name may stand in any order
and anywhere between the others. -/
theorem expandCall_visits_iff (env : Environment) (line : Line) (name : Text) {arguments tokens : List Token}
    {id : Nat} {scopes : Scopes} {mixin : Mixin} {values : Values}
    (hmixin : scopes.mixin? id name = some mixin)
    (hparameters : Parameter.declared tokens = .ok mixin.parameters)
    (hvalues : scopes.evaluate id (Argument.group arguments) = .ok values) :
    let call (arguments : List Token) (run : Expander) := env.expandCall run line .nil name arguments id
    let visits (arguments : List Token) := Visits (call arguments) line.location mixin.body scopes
    let opened := (scopes.enter env.inheritance mixin.scope).setVariables scopes.count
    (∀ after, visits arguments after ↔ ∃ bindings, values.Fits mixin.parameters ∧
      values.Binds 0 (scopes.value? mixin.scope) mixin.parameters bindings ∧ opened bindings = after) ∧
    (Refuses (call arguments) scopes ↔ ∀ after, ¬visits arguments after) ∧
    (∀ bindings, values.Binds 0 (scopes.value? mixin.scope) mixin.parameters bindings → ∀ name,
      (opened bindings).value? scopes.count name =
          (bindings.find? name).or (scopes.value? mixin.scope name) ∧
        (opened bindings).mixin? scopes.count name = scopes.mixin? mixin.scope name) ∧
    (∀ others, Argument.Rearranged (Argument.group arguments) (Argument.group others) →
      (∀ after, visits others after ↔ visits arguments after) ∧
        (Refuses (call others) scopes ↔ Refuses (call arguments) scopes)) := by
  intro call visits opened
  have hnodup := Parameter.nodup_declared hparameters
  refine ⟨fun after => ?_, refuses_iff hmixin hvalues, fun bindings hbinds name => ?_, fun others hothers => ?_⟩
  · exact visits_iff hmixin hnodup hvalues
  · have hnames : (bindings.map Prod.fst).Nodup := by
      rw [hbinds.names]
      exact hnodup
    constructor
    · rw [Scopes.value?_setVariables rfl hnames, Scopes.value?_enter, if_pos rfl]
    · rw [Scopes.mixin?_setVariables rfl, Scopes.mixin?_enter, if_pos rfl]
  · obtain ⟨values', hvalues', hsame⟩ := Scopes.evaluate_rearranged hothers hvalues
    have hvisits : ∀ after, visits others after ↔ visits arguments after := fun after => by
      refine (visits_iff hmixin hnodup hvalues').trans (Iff.trans ?_ (visits_iff hmixin hnodup hvalues).symm)
      refine exists_congr fun bindings => and_congr ?_ (and_congr_left fun _ => ?_)
      · exact ⟨hsame.symm.fits, hsame.fits⟩
      · exact ⟨hsame.symm.binds, hsame.binds⟩
    refine ⟨hvisits, (refuses_iff hmixin hvalues').trans (Iff.trans ?_ (refuses_iff hmixin hvalues).symm)⟩
    exact forall_congr' fun after => not_congr (hvisits after)

/-- A call with an argument by name in front of the one by position. The default of `b` stands before `d` and
refers to the variable of that name outside. -/
theorem expandCall_visits_iff_defaults :
    let place : Location := ⟨['f'], 5⟩
    let tokens : List Token :=
      [⟨.variable, ['a'], place⟩, ⟨.assignment, ['b'], place⟩, ⟨.literal, "[$d]".toList, place⟩,
        ⟨.assignment, ['c'], place⟩, ⟨.literal, "[$b]".toList, place⟩, ⟨.assignment, ['d'], place⟩,
        ⟨.literal, ['9'], place⟩]
    let mixin : Mixin :=
      { name := ['m']
        declaration := ⟨⟨['f'], 2⟩, 0, "@m($a, $b=[$d], $c=[$b], $d=9)".toList⟩
        body := .cons ⟨⟨['f'], 3⟩, 2, "$c".toList⟩ .nil .nil
        parameters :=
          [⟨['a'], none⟩, ⟨['b'], some "[$d]".toList⟩, ⟨['c'], some "[$b]".toList⟩, ⟨['d'], some ['9']⟩]
        doc? := none
        scope := 0 }
    let scopes := (Scopes.initial.setVariable 0 ['d'] ['7']).setMixin 0 mixin
    let call : Line := ⟨place, 0, "m(1, $d=4)".toList⟩
    let written : List Token :=
      [⟨.literal, ['1'], place⟩, ⟨.assignment, ['d'], place⟩, ⟨.literal, ['4'], place⟩]
    let others : List Token :=
      [⟨.assignment, ['d'], place⟩, ⟨.literal, ['4'], place⟩, ⟨.literal, ['1'], place⟩]
    let values : Values := { positional := [['1']], named := [(['d'], ['4'])] }
    let bindings : Bindings Text :=
      [(['a'], ['1']), (['b'], "[7]".toList), (['c'], "[[7]]".toList), (['d'], ['4'])]
    let env : Environment := { files := Files.system [] }
    scopes.mixin? 0 ['m'] = some mixin ∧ Parameter.declared tokens = .ok mixin.parameters ∧
      scopes.evaluate 0 (Argument.group written) = .ok values ∧
      Visits (fun run => env.expandCall run call .nil ['m'] others 0) place mixin.body scopes
        ((scopes.enter .copied 0).setVariables 1 bindings) := by
  intro place tokens mixin scopes call written others values bindings env
  have hparameters : Parameter.declared tokens = .ok mixin.parameters := by decide +kernel
  have hvalues : scopes.evaluate 0 (Argument.group written) = .ok values := by decide +kernel
  have hfits : values.Fits mixin.parameters := ⟨by decide, by decide, by decide, by decide⟩
  have hbinds : values.Binds 0 (scopes.value? 0) mixin.parameters bindings := by
    refine .cons (.positional rfl) (.cons (.default (by decide) (by decide) rfl (by decide +kernel))
      (.cons (.default (by decide) (by decide) rfl (by decide +kernel)) (.cons (.named ?_ ?_) (.nil _ _))))
    · decide
    · decide
  obtain ⟨hvisits, -, -, hrearranged⟩ := expandCall_visits_iff env call ['m'] rfl hparameters hvalues
  refine ⟨rfl, hparameters, hvalues, ?_⟩
  exact ((hrearranged others ⟨rfl, .refl _⟩).1 _).mpr ((hvisits _).mpr ⟨bindings, hfits, hbinds, rfl⟩)

end Scl
