import Mathlib.Data.List.Basic
import Scl.Proofs.Expansion.Relation

/-!
# Expansions in step

Two expansions of the same lines may number their scopes differently, start new scopes differently, and
have more or less around them. They stay in step as long as the scopes that they work in see the same.

A link says which scope of the first expansion corresponds to which of the second. `Scopes.Matched` says
that linked scopes see the same variables, and mixins that are alike: same parameters, corresponding
bodies, and declared in scopes that are linked again. Nothing is asked of scopes that are not linked.
`Scopes.InStep` adds that both expansions are at work in their newest scopes, which are linked.

* `Scopes.Matched.enter`: scopes opened below linked scopes may be linked;
* `Scopes.InStep.setVariable`, `Scopes.InStep.setMixin`: the same binding on both sides;
* `follows_callMixin`: calls of mixins that are alike, from any scopes, with the same values;
* `follows_expand`: the same forest in two environments.

A comparison may be lenient (see `Follows`): the second expansion then may see more variables and find
more files than the first.
-/

namespace Scl

variable {lenient : Prop} {alike : Forest Line → Forest Line → Prop} {link : Nat → Nat → Prop}

/-- What the first lookup finds, the second one finds too; only a lenient comparison lets it find more. -/
def Sees (lenient : Prop) (first second : Option Text) : Prop :=
  first = second ∨ lenient ∧ first = none

/-- Mixins that a call cannot tell apart, when `alike` relates their bodies and `link` the scopes where
they were declared. -/
structure Mixin.Alike (alike : Forest Line → Forest Line → Prop) (link : Nat → Nat → Prop)
    (mixin other : Mixin) : Prop where
  name : mixin.name = other.name
  parameters : mixin.parameters = other.parameters
  location : mixin.declaration.location = other.declaration.location
  body : alike mixin.body other.body
  scope : link mixin.scope other.scope

theorem Mixin.Alike.mono {link' : Nat → Nat → Prop} {mixin other : Mixin} (h : mixin.Alike alike link other)
    (hlink : ∀ i j, link i j → link' i j) : mixin.Alike alike link' other :=
  ⟨h.name, h.parameters, h.location, h.body, hlink _ _ h.scope⟩

theorem Mixin.Alike.mono_option {link' : Nat → Nat → Prop} {mixin? other? : Option Mixin}
    (h : Option.Rel (Mixin.Alike alike link) mixin? other?) (hlink : ∀ i j, link i j → link' i j) :
    Option.Rel (Mixin.Alike alike link') mixin? other? := by
  cases h with
  | some hm => exact .some (hm.mono hlink)
  | none => exact .none

namespace Scopes

/-- Linked scopes are there and see the same. -/
structure Matched (lenient : Prop) (alike : Forest Line → Forest Line → Prop) (link : Nat → Nat → Prop)
    (s t : Scopes) : Prop where
  bounds {i j : Nat} : link i j → i < s.count ∧ j < t.count
  value {i j : Nat} : link i j → ∀ name, Sees lenient (s.value? i name) (t.value? j name)
  mixin {i j : Nat} : link i j → ∀ name,
    Option.Rel (Mixin.Alike alike link) (s.mixin? i name) (t.mixin? j name)

/-- Scopes `i` and `j` are the newest ones and linked, and to each other only. -/
structure InStep (lenient : Prop) (alike : Forest Line → Forest Line → Prop) (link : Nat → Nat → Prop)
    (i j : Nat) (s t : Scopes) : Prop extends Matched lenient alike link s t where
  linked : link i j
  only {i' j' : Nat} : link i' j' → (i' = i ↔ j' = j)
  newest : i + 1 = s.count
  newest' : j + 1 = t.count

/-- One more pair of linked scopes. -/
def addLink (link : Nat → Nat → Prop) (m n : Nat) (i j : Nat) : Prop :=
  link i j ∨ i = m ∧ j = n

variable {i j : Nat} {s t : Scopes}

/-- New scopes below linked scopes see the same, whatever they start with. -/
theorem Matched.enter (h : Matched lenient alike link s t) (hij : link i j)
    (inheritance inheritance' : Inheritance) :
    InStep lenient alike (addLink link s.count t.count) s.count t.count (s.enter inheritance i)
      (t.enter inheritance' j) := by
  have hne : ∀ {i' j'}, link i' j' → i' ≠ s.count ∧ j' ≠ t.count := fun hl => by
    have := h.bounds hl
    omega
  refine ⟨⟨?_, ?_, ?_⟩, .inr ⟨rfl, rfl⟩, ?_, rfl, rfl⟩
  · intro i' j' hl
    rw [count_enter, count_enter]
    rcases hl with hl | ⟨rfl, rfl⟩
    · have := h.bounds hl
      omega
    · omega
  · intro i' j' hl name
    rw [value?_enter, value?_enter]
    rcases hl with hl | ⟨rfl, rfl⟩
    · rw [if_neg (hne hl).1, if_neg (hne hl).2]
      exact h.value hl name
    · rw [if_pos rfl, if_pos rfl]
      exact h.value hij name
  · intro i' j' hl name
    rw [mixin?_enter, mixin?_enter]
    rcases hl with hl | ⟨rfl, rfl⟩
    · rw [if_neg (hne hl).1, if_neg (hne hl).2]
      exact Mixin.Alike.mono_option (h.mixin hl name) fun _ _ => .inl
    · rw [if_pos rfl, if_pos rfl]
      exact Mixin.Alike.mono_option (h.mixin hij name) fun _ _ => .inl
  · intro i' j' hl
    rcases hl with hl | ⟨rfl, rfl⟩
    · exact iff_of_false (hne hl).1 (hne hl).2
    · exact iff_of_true rfl rfl

theorem InStep.pos (h : InStep lenient alike link i j s t) : 0 < s.count ∧ 0 < t.count := by
  have := h.newest
  have := h.newest'
  omega

theorem InStep.setVariable (h : InStep lenient alike link i j s t) (name value : Text) :
    InStep lenient alike link i j (s.setVariable i name value) (t.setVariable j name value) := by
  refine ⟨⟨h.bounds, ?_, ?_⟩, h.linked, h.only, h.newest, h.newest'⟩
  · intro i' j' hl other
    rw [value?_setVariable h.newest, value?_setVariable h.newest']
    simp only [h.only hl]
    split
    · exact .inl rfl
    · exact h.value hl other
  · intro i' j' hl other
    rw [mixin?_setVariable h.newest, mixin?_setVariable h.newest']
    exact h.mixin hl other

theorem InStep.setMixin (h : InStep lenient alike link i j s t) {mixin other : Mixin}
    (hm : mixin.Alike alike link other) :
    InStep lenient alike link i j (s.setMixin i mixin) (t.setMixin j other) := by
  refine ⟨⟨h.bounds, ?_, ?_⟩, h.linked, h.only, h.newest, h.newest'⟩
  · intro i' j' hl name
    rw [value?_setMixin h.newest, value?_setMixin h.newest']
    exact h.value hl name
  · intro i' j' hl name
    rw [mixin?_setMixin h.newest, mixin?_setMixin h.newest']
    simp only [h.only hl, hm.name]
    split
    · exact .some hm
    · exact h.mixin hl name

end Scopes

/-! ## Texts filled in -/

namespace Template

/-- A piece that finds what it needs finds the same where no less is bound. -/
theorem Piece.eq_of_fault?_eq_none {value? value'? : Text → Option Text} {piece : Piece}
    (hle : ∀ name, Sees True (value? name) (value'? name)) (h : piece.fault? value? = none) :
    piece.fault? value'? = none ∧ piece.output value'? = piece.output value? := by
  cases piece with
  | text t => exact ⟨rfl, rfl⟩
  | unclosed name => cases h
  | unterminated => cases h
  | reference name =>
    simp only [fault?, output] at h ⊢
    rcases hle name with heq | ⟨-, hnone⟩
    · rw [← heq]
      exact ⟨h, rfl⟩
    · rw [hnone] at h
      cases h

theorem fill_eq_ok {value? value'? : Text → Option Text} {template : Template} {output : Text}
    (hle : ∀ name, Sees True (value? name) (value'? name)) (h : template.fill value? = .ok output) :
    template.fill value'? = .ok output := by
  unfold fill at h ⊢
  split at h
  · cases h
  · rename_i hnone
    have hpiece : ∀ piece ∈ template, piece.fault? value'? = none ∧
        piece.output value'? = piece.output value? := fun piece hmem =>
      Piece.eq_of_fault?_eq_none hle (List.findSome?_eq_none_iff.mp hnone piece hmem)
    rw [List.findSome?_eq_none_iff.mpr fun piece hmem => (hpiece piece hmem).1]
    cases h
    exact congrArg Except.ok (List.flatMap_congr fun piece hmem => (hpiece piece hmem).2)

theorem agree_fill {value? value'? : Text → Option Text} (template : Template)
    (h : ∀ name, Sees lenient (value? name) (value'? name)) :
    Agree lenient Eq (template.fill value?) (template.fill value'?) := by
  by_cases hl : lenient
  · cases hfirst : template.fill value? with
    | error failure => exact .forgiven hl
    | ok output =>
      rw [fill_eq_ok (fun name => (h name).imp_right fun hn => ⟨trivial, hn.2⟩) hfirst]
      exact .ok rfl
  · have : value? = value'? := funext fun name => (h name).resolve_right fun hn => hl hn.1
    rw [this]
    exact .refl _

end Template

namespace Scopes

variable {i j : Nat} {s t : Scopes}

theorem Matched.agree_fill (h : Matched lenient alike link s t) (hij : link i j) (text : Text) :
    Agree lenient Eq (s.fill i text) (t.fill j text) := by
  have hfill := Template.agree_fill (Template.ofText text) (h.value hij)
  rw [fill, fill]
  generalize (Template.ofText text).fill (s.value? i) = first at hfill
  generalize (Template.ofText text).fill (t.value? j) = second at hfill
  cases hfill with
  | ok heq => exact .ok heq
  | error failure => exact .error _
  | forgiven hl => exact .forgiven hl

theorem Matched.agree_declared (h : Matched lenient alike link s t) (hij : link i j) (name : Text) :
    Agree lenient Eq (s.declared i name) (t.declared j name) := by
  rw [declared, declared]
  rcases h.value hij name with heq | ⟨hl, hnone⟩
  · rw [heq]
    exact .refl _
  · rw [hnone]
    exact .forgiven hl

theorem Matched.agree_evaluate (h : Matched lenient alike link s t) (hij : link i j)
    (arguments : List Argument) : Agree lenient Eq (s.evaluate i arguments) (t.evaluate j arguments) := by
  induction arguments with
  | nil => exact .ok rfl
  | cons argument rest ih =>
    cases argument with
    | named name value =>
      refine .bind (h.agree_fill hij value) fun value _ heq => .bind ih fun values _ heq' => ?_
      subst heq heq'
      exact .ok rfl
    | single token =>
      obtain ⟨kind, text, location⟩ := token
      have finish : ∀ {x y : Except Cause Text}, Agree lenient Eq x y → Agree lenient Eq
          (x >>= fun value => s.evaluate i rest >>= fun values =>
            pure { values with positional := value :: values.positional })
          (y >>= fun value => t.evaluate j rest >>= fun values =>
            pure { values with positional := value :: values.positional }) := fun hvalue => by
        refine .bind hvalue fun value _ heq => .bind ih fun values _ heq' => ?_
        subst heq heq'
        exact .ok rfl
      match kind with
      | .literal => exact finish (h.agree_fill hij text)
      | .variable => exact finish (h.agree_declared hij text)
      | .assignment | .comment | .declaration | .call => exact .error _

theorem Matched.agree_importPattern (h : Matched lenient alike link s t) (hij : link i j)
    (arguments : List Token) :
    Agree lenient Eq (s.importPattern i arguments) (t.importPattern j arguments) := by
  unfold importPattern
  split
  · rename_i argument
    split
    · exact (h.agree_declared hij argument.text).map Path.unquote
    · exact (h.agree_fill hij argument.text).map Path.unquote
  · exact .error _

theorem Matched.agree_slotValue (h : Matched lenient alike link s t) (hij : link i j) {mixin other : Mixin}
    (hm : mixin.Alike alike link other) (location : Location) (slot : Slot) :
    Agree lenient Eq (Expansion.slotValue mixin location i s slot)
      (Expansion.slotValue other location j t slot) := by
  obtain ⟨⟨name, default?⟩, given?⟩ := slot
  cases given? with
  | some value => exact .ok rfl
  | none =>
    cases default? with
    | some default =>
      simp only [Expansion.slotValue, hm.location]
      exact (h.agree_fill hij default).mapError _
    | none =>
      simp only [Expansion.slotValue, hm.name]
      exact .error _

/-- Parameters bound one after the other keep expansions in step. -/
theorem InStep.agree_bind (h : InStep lenient alike link i j s t) {mixin other : Mixin}
    (hm : mixin.Alike alike link other) (location : Location) (slots : List Slot) :
    Agree lenient (InStep lenient alike link i j) (Scopes.bind mixin location i slots s)
      (Scopes.bind other location j slots t) := by
  induction slots generalizing s t with
  | nil => exact .ok h
  | cons slot rest ih =>
    rw [Expansion.bind_cons, Expansion.bind_cons]
    refine .bind (h.agree_slotValue h.linked hm location slot) fun value _ heq => ?_
    subst heq
    exact ih (h.setVariable slot.1.name value)

end Scopes

/-! ## Calls -/

namespace Expansion

open Scopes

/-- Expanders that keep expansions in step on forests that are alike. -/
def Related (lenient : Prop) (alike : Forest Line → Forest Line → Prop) (run run' : Expander) : Prop :=
  ∀ {forest forest'}, alike forest forest' → ∀ link i j,
    Follows lenient (InStep lenient alike link i j) (run forest i) (run' forest' j)

variable {run run' : Expander} {i j : Nat} {P : Scopes → Scopes → Prop}

theorem follows_binding {mixin other : Mixin} (hm : mixin.Alike alike link other) (location : Location)
    (slots : List Slot) :
    Follows lenient (InStep lenient alike link i j) (binding mixin location i slots)
      (binding other location j slots) := by
  intro s t hst
  have hbind := hst.agree_bind hm location slots
  rw [binding_apply, binding_apply]
  generalize Scopes.bind mixin location i slots s = first at hbind
  generalize Scopes.bind other location j slots t = second at hbind
  cases hbind with
  | ok h => exact .ok _ h
  | error e => exact .error e s t
  | forgiven hl => exact .forgiven hl

theorem follows_invoke (hrun : Related lenient alike run run') {mixin other : Mixin}
    (hm : mixin.Alike alike link other) (location : Location) (values : Values) :
    Follows lenient (InStep lenient alike link i j) (invoke run location mixin values i)
      (invoke run' location other values j) := by
  have hslots : mixin.slots values = other.slots values := by
    rw [Mixin.slots, Mixin.slots, hm.name, hm.parameters]
  rw [invoke, invoke, hslots]
  refine .bind (.ofCause location _) fun slots => .bind (follows_binding hm location slots) fun _ => ?_
  exact .nested location (hrun hm.body link i j)

/-- Calls of mixins that are alike have the same outcome and change no scopes, wherever they stand. Of the
callers' scopes only the values of the arguments matter. -/
theorem follows_callMixin (hrun : Related lenient alike run run') (hc : ∀ forest, Confined (run forest))
    (hc' : ∀ forest, Confined (run' forest)) {mixin? other? : Option Mixin}
    (hmixin : Option.Rel (Mixin.Alike alike link) mixin? other?) (inheritance inheritance' : Inheritance)
    (line : Line) {below below' : Forest Line} (hbelow : below.isEmpty = below'.isEmpty) (name : Text)
    (arguments : List Token) (hP : ∀ s t, P s t → 0 < s.count ∧ 0 < t.count)
    (hmatched : ∀ s t, P s t → Matched lenient alike link s t)
    (hvalues : ∀ s t, P s t → Agree lenient Eq (s.evaluate i (Argument.group arguments))
      (t.evaluate j (Argument.group arguments))) :
    Follows lenient P (callMixin inheritance run line below name arguments i mixin?)
      (callMixin inheritance' run' line below' name arguments j other?) := by
  cases hmixin with
  | none => exact .fail line.location _
  | @some mixin other hm =>
    have hrequired : mixin.required = other.required := by
      rw [Mixin.required, Mixin.required, hm.parameters]
    have htakes : ∀ count, mixin.takes count = other.takes count := fun count => by
      rw [Mixin.takes, Mixin.takes, hrequired, hm.parameters]
    refine .ite (congrArg not hbelow) (.fail line.location _) ?_
    refine .bind (.ask line.location hvalues) fun values => ?_
    rw [hrequired]
    refine .ite (congrArg not (htakes values.count)) (.fail line.location _) ?_
    refine .inScope (confined_invoke hc line.location mixin values)
      (confined_invoke hc' line.location other values) hP fun s t hst => ?_
    -- The body runs in new scopes, which are linked on top of those linked already.
    have hstep := (hmatched s t hst).enter hm.scope inheritance inheritance'
    have hm' : mixin.Alike alike (addLink link s.count t.count) other := hm.mono fun _ _ => .inl
    exact ⟨_, follows_invoke hrun hm' line.location values _ _ hstep⟩

theorem follows_expandCall (hrun : Related lenient alike run run') (hc : ∀ forest, Confined (run forest))
    (hc' : ∀ forest, Confined (run' forest)) (env env' : Environment) (line : Line)
    {below below' : Forest Line} (hbelow : below.isEmpty = below'.isEmpty) (name : Text)
    (arguments : List Token) :
    Follows lenient (InStep lenient alike link i j) (env.expandCall run line below name arguments i)
      (env'.expandCall run' line below' name arguments j) := by
  intro s t hst
  rw [expandCall_apply, expandCall_apply]
  exact follows_callMixin hrun hc hc' (hst.mixin hst.linked name) env.inheritance env'.inheritance line hbelow
    name arguments (fun _ _ h => h.pos) (fun _ _ h => h.toMatched)
    (fun _ _ h => h.agree_evaluate h.linked (Argument.group arguments)) s t hst

/-! ## Imports -/

/-- Environments in which imports lead to the same files, with contents that are alike. A lenient
comparison lets the second one find files where the first one finds none. -/
structure SameFiles (lenient : Prop) (alike : Forest Line → Forest Line → Prop) (env env' : Environment) :
    Prop where
  load (path : Text) : Agree lenient alike (env.files.load path) (env'.files.load path)
  found (importer pattern : Text) :
    let first := env.files.firstMatch (Path.candidates env.includePaths importer pattern)
    first = env'.files.firstMatch (Path.candidates env'.includePaths importer pattern) ∨
      lenient ∧ ∀ path paths, first ≠ .ok (path :: paths)

variable {env env' : Environment}

theorem follows_expandAll (hrun : Related lenient alike run run') (hfiles : SameFiles lenient alike env env')
    (paths : List Text) :
    Follows lenient (InStep lenient alike link i j) (env.files.expandAll run i paths)
      (env'.files.expandAll run' j paths) := by
  induction paths with
  | nil => exact .pure Output.nil
  | cons path rest ih =>
    refine .bind_ofExcept (hfiles.load path) fun forest forest' hforest => ?_
    refine .bind (hrun hforest link i j) fun first => ?_
    exact .bind ih fun others => .pure (first ++ others)

theorem follows_importFiles (hrun : Related lenient alike run run')
    (hfiles : SameFiles lenient alike env env') (line : Line) (pattern : Text) :
    Follows lenient (InStep lenient alike link i j) (importFiles env run i line pattern)
      (importFiles env' run' j line pattern) := by
  have hfound := hfiles.found line.location.file pattern
  rw [importFiles, importFiles]
  generalize env.files.firstMatch (Path.candidates env.includePaths line.location.file pattern) = first
    at hfound
  generalize env'.files.firstMatch (Path.candidates env'.includePaths line.location.file pattern) = second
    at hfound
  rcases hfound with rfl | ⟨hl, hnone⟩
  · rcases first with e | _ | ⟨path, paths⟩
    · exact .throw _
    · exact .fail line.location _
    · exact .nested line.location (follows_expandAll hrun hfiles (path :: paths))
  · rcases first with e | _ | ⟨path, paths⟩
    · exact fun s t _ => .forgiven hl
    · exact fun s t _ => .forgiven hl
    · exact absurd rfl (hnone path paths)

theorem follows_expandImport (hrun : Related lenient alike run run')
    (hfiles : SameFiles lenient alike env env') (line : Line) {below below' : Forest Line}
    (hbelow : below.isEmpty = below'.isEmpty) (arguments : List Token) :
    Follows lenient (InStep lenient alike link i j) (env.expandImport run line below arguments i)
      (env'.expandImport run' line below' arguments j) := by
  rw [expandImport_eq, expandImport_eq]
  refine .ite (congrArg not hbelow) (.fail line.location _) ?_
  refine .bind (.ask line.location fun s t hst => hst.agree_importPattern hst.linked arguments) ?_
  exact follows_importFiles hrun hfiles line

/-! ## Lines -/

section

variable {inside inside' : Nat → Expansion Output} {below below' : Forest Line}

theorem follows_literal
    (hinside : ∀ link i j, Follows lenient (InStep lenient alike link i j) (inside i) (inside' j))
    (hc : Confined inside) (hc' : Confined inside') (inheritance inheritance' : Inheritance) (line : Line)
    (hbelow : below.isEmpty = below'.isEmpty) (text : Text) :
    Follows lenient (InStep lenient alike link i j) (literal inheritance inside line below text i)
      (literal inheritance' inside' line below' text j) := by
  refine .bind (.ask line.location fun s t hst => hst.agree_fill hst.linked text) fun text => ?_
  refine .ite hbelow (.pure (Output.leaf text)) ?_
  refine .bind (.inScope hc hc' (fun _ _ h => h.pos) fun s t hst => ?_) fun body => .pure _
  have hstep := hst.enter hst.linked inheritance inheritance'
  exact ⟨_, hinside _ _ _ _ _ hstep⟩

theorem follows_assignment (line : Line) (hbelow : below.isEmpty = below'.isEmpty) (name value : Text) :
    Follows lenient (InStep lenient alike link i j) (assignment line below name value i)
      (assignment line below' name value j) := by
  refine .ite (congrArg not hbelow) (.fail line.location _) ?_
  refine .bind (.ask line.location fun s t hst => hst.agree_fill hst.linked value) fun value => ?_
  exact .bind (.modify fun s t hst => hst.setVariable name value) fun _ => .pure _

theorem follows_declaration (above above' : List Line) (line : Line) (hbelow : alike below below')
    (name : Text) (arguments : List Token) :
    Follows lenient (InStep lenient alike link i j) (declaration above line below name arguments i)
      (declaration above' line below' name arguments j) := by
  refine .bind (.ofCause line.location _) fun parameters => .bind (.modify fun s t hst => ?_) fun _ => .pure _
  exact hst.setMixin ⟨rfl, rfl, rfl, hbelow, hst.linked⟩

theorem follows_expandLine (hrun : Related lenient alike run run') (hc : ∀ forest, Confined (run forest))
    (hc' : ∀ forest, Confined (run' forest)) (hfiles : SameFiles lenient alike env env')
    (hinside : ∀ link i j, Follows lenient (InStep lenient alike link i j) (inside i) (inside' j))
    (hcin : Confined inside) (hcin' : Confined inside') (above above' : List Line) (line : Line)
    (hbelow : alike below below') (hempty : below.isEmpty = below'.isEmpty) (link : Nat → Nat → Prop)
    (i j : Nat) :
    Follows lenient (InStep lenient alike link i j) (env.expandLine run inside above line below i)
      (env'.expandLine run' inside' above' line below' j) := by
  rw [expandLine_eq, expandLine_eq]
  cases line.statement with
  | error e => exact .fail line.location _
  | ok statement =>
    cases statement with
    | comment text => exact hinside link i j
    | literal text =>
      exact follows_literal hinside hcin hcin' env.inheritance env'.inheritance line hempty text
    | assignment name value => exact follows_assignment line hempty name value
    | declaration name arguments => exact follows_declaration above above' line hbelow name arguments
    | call name arguments =>
      by_cases himport : name = importName
      · simp only [himport, if_true]
        exact follows_expandImport hrun hfiles line hempty arguments
      · simp only [himport, if_false]
        exact follows_expandCall hrun hc hc' env env' line hempty name arguments

end

/-- The same forest in two environments that import the same files. -/
theorem follows_expandForest (hrun : Related lenient alike run run') (hc : ∀ forest, Confined (run forest))
    (hc' : ∀ forest, Confined (run' forest)) (hfiles : SameFiles lenient alike env env')
    (hrefl : ∀ forest, alike forest forest) (above : List Line) (forest : Forest Line)
    (link : Nat → Nat → Prop) (i j : Nat) :
    Follows lenient (InStep lenient alike link i j) (env.expandForest run above forest i)
      (env'.expandForest run' above forest j) := by
  induction forest generalizing above link i j with
  | nil => exact .pure Output.nil
  | cons line below next ihBelow ihNext =>
    have hline := follows_expandLine hrun hc hc' hfiles (ihBelow []) (confined_expandForest hc env [] below)
      (confined_expandForest hc' env' [] below) above above line (hrefl below) rfl link i j
    refine .bind hline fun here => .bind (ihNext (line :: above) link i j) fun rest => ?_
    exact .pure (here ++ rest)

/-- What keeps expansions of forests in step keeps them in step however deeply calls and imports are nested. -/
theorem related_expand
    (h : ∀ {run run' : Expander}, Related lenient alike run run' → (∀ forest, Confined (run forest)) →
      (∀ forest, Confined (run' forest)) → ∀ forest forest', alike forest forest' → ∀ link i j,
      Follows lenient (InStep lenient alike link i j) (env.expandForest run [] forest i)
        (env'.expandForest run' [] forest' j)) (depth : Nat) :
    Related lenient alike (env.expand depth) (env'.expand depth) := by
  induction depth with
  | zero => exact fun _ _ _ _ _ _ _ => .exhausted
  | succ depth ih =>
    intro forest forest' hforest
    exact h ih (confined_expand env depth) (confined_expand env' depth) forest forest' hforest

/-- Environments that import the same files keep expansions in step. -/
theorem follows_expand (hfiles : SameFiles lenient Eq env env') (depth : Nat) :
    Related lenient Eq (env.expand depth) (env'.expand depth) := by
  refine related_expand ?_ depth
  rintro run run' hrun hc hc' forest _ rfl link i j
  exact follows_expandForest hrun hc hc' hfiles (fun _ => rfl) [] forest link i j

end Expansion

end Scl
