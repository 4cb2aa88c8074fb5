import Mathlib.Data.List.Basic
import Scl.Mixin.Basic
import Scl.Statement.Signature

/-!
# Declared parameters

Which arguments declare parameters is a condition on all of them together, while a declaration is read from left to
right and stops at the first argument that does not fit those before it:

* `Argument.Grouped`: how tokens are put together to arguments;
* `Parameter.Declares`: arguments declare parameters;
* `Parameter.Offends`: an argument does not fit those before it, and why;
* `Parameter.ofArguments_declares`: reading arguments gives the parameters that they declare, or the first fault;
* `Parameter.required_first`, `Parameter.Declares.map_toText`: the order of parameters, and how they are written;
* `Parameter.declared_exact`: all of this for the tokens of a declaration.
-/

namespace Scl

/-! ## Tokens as arguments -/

namespace Argument

/-- The arguments of a token list, from left to right. -/
inductive Grouped : List Token → List Argument → Prop
  | nil : Grouped [] []
  | single {token : Token} {rest : List Token} {arguments : List Argument} : token.kind ≠ .assignment →
    Grouped rest arguments → Grouped (token :: rest) (.single token :: arguments)
  /-- The next token is the value, of whatever kind it is. -/
  | named {token value : Token} {rest : List Token} {arguments : List Argument} : token.kind = .assignment →
    Grouped rest arguments → Grouped (token :: value :: rest) (.named token.text value.text :: arguments)
  /-- There is no next token. -/
  | bare {token : Token} : token.kind = .assignment → Grouped [token] [.named token.text []]

variable {tokens : List Token} {arguments : List Argument}

theorem group_cons_of_ne {token : Token} (h : token.kind ≠ .assignment) (rest : List Token) :
    group (token :: rest) = .single token :: group rest := by
  cases rest with
  | nil => exact if_neg h
  | cons value rest => rw [group, if_neg h]

theorem Grouped.group_eq (h : Grouped tokens arguments) : arguments = group tokens := by
  induction h with
  | nil => rfl
  | single hkind _ ih => rw [group_cons_of_ne hkind, ih]
  | named hkind _ ih => rw [group, if_pos hkind, ih]
  | bare hkind => rw [group, if_pos hkind]

theorem grouped_group (tokens : List Token) : Grouped tokens (group tokens) := by
  fun_induction group tokens with
  | case1 => exact .nil
  | case2 token hkind => exact .bare hkind
  | case3 token hkind => exact .single hkind .nil
  | case4 token value rest hkind ih => exact .named hkind ih
  | case5 token value rest hkind ih => exact .single hkind ih

theorem grouped_iff : Grouped tokens arguments ↔ arguments = group tokens :=
  ⟨Grouped.group_eq, fun h => h ▸ grouped_group tokens⟩

/-- The parameter that an argument declares, if its name is new and it stands in the right place. -/
def parameter? : Argument → Option Parameter
  | .single token => if token.kind = .variable then some ⟨token.text, none⟩ else none
  | .named name value => some ⟨name, some value⟩

theorem parameter?_single {token : Token} (h : token.kind = .variable) :
    (single token).parameter? = some ⟨token.text, none⟩ :=
  if_pos h

theorem parameter?_literal {token : Token} (h : token.kind ≠ .variable) : (single token).parameter? = none :=
  if_neg h

end Argument

namespace Parameter

variable {arguments before : List Argument} {argument : Argument} {parameters earlier : List Parameter}
  {parameter : Parameter} {error : DeclarationError}

/-- A parameter without a default does not come after one with a default. -/
def Before (first second : Parameter) : Prop :=
  first.default?.isSome → second.default?.isSome

/-- Arguments declare parameters: each of them one, all with different names, and those without a default first. -/
structure Declares (arguments : List Argument) (parameters : List Parameter) : Prop where
  each : arguments.map Argument.parameter? = parameters.map some
  distinct : (parameters.map name).Nodup
  ordered : parameters.Pairwise Before

/-- What is wrong with an argument after those before it, and the name in the error. -/
inductive Offends (before : List Argument) : Argument → Text → DeclarationError.Reason → Prop
  | literal {token : Token} : token.kind ≠ .variable →
    Offends before (.single token) (unquoted token.text) .unexpectedLiteral
  /-- A variable after an assignment, also if there is another argument of its name. -/
  | late {token : Token} {name value : Text} : token.kind = .variable → .named name value ∈ before →
    Offends before (.single token) token.text .requiredAfterOptional
  | repeated {argument other : Argument} {parameter found : Parameter} : argument.parameter? = some parameter →
    other ∈ before → other.parameter? = some found → found.name = parameter.name →
    (parameter.default? = none → ∀ name value, .named name value ∉ before) →
    Offends before argument parameter.name .duplicate

/-- No argument is wrong after those before it. -/
def Sound (arguments : List Argument) : Prop :=
  ∀ before argument after, arguments = before ++ argument :: after → ∀ name reason, ¬Offends before argument name reason

/-- The error names the first argument that is wrong after those before it. -/
inductive FirstFault : List Argument → DeclarationError → Prop
  | intro {before after : List Argument} {argument : Argument} {name : Text} {reason : DeclarationError.Reason} :
    Sound before → Offends before argument name reason →
    FirstFault (before ++ argument :: after) ⟨before.length, name, reason⟩

/-! ## Arguments that declare parameters -/

/-- A parameter that an argument declares and that has its place after some others. -/
structure Fits (earlier : List Parameter) (argument : Argument) (parameter : Parameter) : Prop where
  declares : argument.parameter? = some parameter
  distinct : ∀ other ∈ earlier, other.name ≠ parameter.name
  ordered : ∀ other ∈ earlier, other.Before parameter

namespace Declares

theorem nil : Declares [] [] :=
  ⟨rfl, .nil, .nil⟩

theorem mem_iff (h : Declares arguments parameters) :
    parameter ∈ parameters ↔ ∃ argument ∈ arguments, argument.parameter? = some parameter := by
  rw [← List.mem_map, h.each, List.mem_map]
  simp

theorem length_eq (h : Declares arguments parameters) : arguments.length = parameters.length := by
  have hlength := congrArg List.length h.each
  simpa using hlength

theorem unique {others : List Parameter} (h : Declares arguments parameters) (hothers : Declares arguments others) :
    parameters = others :=
  List.map_injective_iff.mpr (fun _ _ => Option.some.inj) (h.each.symm.trans hothers.each)

/-- There is a parameter with a default if and only if there is an assignment. -/
theorem default_iff (h : Declares arguments parameters) :
    (∃ parameter ∈ parameters, parameter.default?.isSome) ↔ ∃ name value, .named name value ∈ arguments := by
  constructor
  · rintro ⟨parameter, hparameter, hdefault⟩
    obtain ⟨argument, hargument, heq⟩ := h.mem_iff.mp hparameter
    cases argument with
    | named name value => exact ⟨name, value, hargument⟩
    | single token =>
      rw [Argument.parameter?] at heq
      split at heq
      · cases heq
        cases hdefault
      · cases heq
  · rintro ⟨name, value, hmem⟩
    exact ⟨⟨name, some value⟩, h.mem_iff.mpr ⟨_, hmem, rfl⟩, rfl⟩

theorem snoc (h : Declares before earlier) (hfits : Fits earlier argument parameter) :
    Declares (before ++ [argument]) (earlier ++ [parameter]) := by
  refine ⟨?_, ?_, ?_⟩
  · rw [List.map_append, List.map_append, h.each, List.map_singleton, List.map_singleton, hfits.declares]
  · rw [List.map_append, List.map_singleton, List.nodup_append]
    refine ⟨h.distinct, List.pairwise_singleton _ _, ?_⟩
    simpa using hfits.distinct
  · rw [List.pairwise_append]
    refine ⟨h.ordered, List.pairwise_singleton _ _, ?_⟩
    simpa using hfits.ordered

/-- Every argument declares a parameter that has its place after those before it. -/
theorem split {after : List Argument} (h : Declares (before ++ argument :: after) parameters) :
    ∃ earlier parameter, Declares before earlier ∧ Fits earlier argument parameter := by
  obtain ⟨heach, hdistinct, hordered⟩ := h
  rw [List.map_append, List.map_cons] at heach
  obtain ⟨earlier, others, rfl, hearlier, hothers⟩ := List.map_eq_append_iff.mp heach.symm
  obtain ⟨parameter, later, rfl, hparameter, -⟩ := List.map_eq_cons_iff.mp hothers
  rw [List.map_append, List.nodup_append] at hdistinct
  rw [List.pairwise_append] at hordered
  refine ⟨earlier, parameter, ⟨hearlier.symm, hdistinct.1, hordered.1⟩, hparameter.symm, ?_, ?_⟩
  · intro other hother
    exact hdistinct.2.2 _ (List.mem_map_of_mem hother) _ List.mem_cons_self
  · intro other hother
    exact hordered.2.2 other hother parameter List.mem_cons_self

end Declares

/-- An argument is not wrong if it declares a parameter that has its place after those before it. -/
theorem Fits.not_offends (hfits : Fits earlier argument parameter) (h : Declares before earlier) {name : Text}
    {reason : DeclarationError.Reason} : ¬Offends before argument name reason := by
  intro hoffends
  cases hoffends with
  | literal hkind => cases (Argument.parameter?_literal hkind).symm.trans hfits.declares
  | late hkind hnamed =>
    obtain ⟨other, hother, hdefault⟩ := h.default_iff.mpr ⟨_, _, hnamed⟩
    cases (Argument.parameter?_single hkind).symm.trans hfits.declares
    cases hfits.ordered other hother hdefault
  | repeated hparameter hother hfound hname _ =>
    cases hparameter.symm.trans hfits.declares
    exact hfits.distinct _ (h.mem_iff.mpr ⟨_, hother, hfound⟩) hname

theorem Declares.sound (h : Declares arguments parameters) : Sound arguments := by
  rintro before argument after rfl name reason
  obtain ⟨earlier, parameter, hbefore, hfits⟩ := h.split
  exact hfits.not_offends hbefore

/-! ## Faults -/

theorem Offends.unique {name name' : Text} {reason reason' : DeclarationError.Reason}
    (h : Offends before argument name reason) (h' : Offends before argument name' reason') :
    name = name' ∧ reason = reason' := by
  cases h with
  | literal hkind =>
    cases h' with
    | literal => exact ⟨rfl, rfl⟩
    | late hkind' => exact absurd hkind' hkind
    | repeated hparameter => cases (Argument.parameter?_literal hkind).symm.trans hparameter
  | late hkind hnamed =>
    cases h' with
    | literal hkind' => exact absurd hkind hkind'
    | late => exact ⟨rfl, rfl⟩
    | repeated hparameter _ _ _ hfirst =>
      cases (Argument.parameter?_single hkind).symm.trans hparameter
      exact absurd hnamed (hfirst rfl _ _)
  | repeated hparameter _ _ _ hfirst =>
    cases h' with
    | literal hkind' => cases (Argument.parameter?_literal hkind').symm.trans hparameter
    | late hkind' hnamed =>
      cases (Argument.parameter?_single hkind').symm.trans hparameter
      exact absurd hnamed (hfirst rfl _ _)
    | repeated hparameter' =>
      cases hparameter.symm.trans hparameter'
      exact ⟨rfl, rfl⟩

theorem FirstFault.not_sound (h : FirstFault arguments error) : ¬Sound arguments := by
  obtain ⟨-, hoffends⟩ := h
  exact fun hsound => hsound _ _ _ rfl _ _ hoffends

theorem FirstFault.unique {error' : DeclarationError} (h : FirstFault arguments error)
    (h' : FirstFault arguments error') : error = error' := by
  obtain @⟨before, after, argument, name, reason, hsound, hoffends⟩ := h
  generalize hwhole : before ++ argument :: after = whole at h'
  obtain @⟨before', after', argument', name', reason', hsound', hoffends'⟩ := h'
  -- An argument at fault cannot stand before the first one.
  rcases List.append_eq_append_iff.mp hwhole with ⟨others, rfl, hrest⟩ | ⟨others, rfl, hrest⟩
  · cases others with
    | nil =>
      obtain ⟨rfl, rfl⟩ := List.cons.inj hrest
      rw [List.append_nil] at hoffends' ⊢
      obtain ⟨rfl, rfl⟩ := hoffends.unique hoffends'
      rfl
    | cons other others =>
      obtain ⟨rfl, -⟩ := List.cons.inj hrest
      exact absurd hoffends (hsound' before argument others rfl name reason)
  · cases others with
    | nil =>
      obtain ⟨rfl, rfl⟩ := List.cons.inj hrest
      rw [List.append_nil] at hoffends ⊢
      obtain ⟨rfl, rfl⟩ := hoffends.unique hoffends'
      rfl
    | cons other others =>
      obtain ⟨rfl, -⟩ := List.cons.inj hrest
      exact absurd hoffends' (hsound before' argument' others rfl name' reason')

/-! ## Reading declarations -/

/-- An argument on its own, after others that declare parameters. -/
theorem ofArgument_declares (h : Declares before earlier) (argument : Argument) :
    (∃ parameter, ofArgument earlier argument = .ok parameter ∧ argument.parameter? = some parameter ∧
      ∀ other ∈ earlier, other.Before parameter) ∨
    ∃ name reason, ofArgument earlier argument = .error (name, reason) ∧ Offends before argument name reason := by
  cases argument with
  | named name value => exact .inl ⟨⟨name, some value⟩, rfl, rfl, fun _ _ _ => rfl⟩
  | single token =>
    rw [ofArgument]
    by_cases hkind : token.kind = .variable
    · rw [if_pos hkind]
      by_cases hdefault : ∃ other ∈ earlier, other.default?.isSome
      · obtain ⟨name, value, hnamed⟩ := h.default_iff.mp hdefault
        rw [if_pos (List.any_eq_true.mpr hdefault)]
        exact .inr ⟨_, _, rfl, .late hkind hnamed⟩
      · rw [if_neg fun hany => hdefault (List.any_eq_true.mp hany)]
        refine .inl ⟨_, rfl, Argument.parameter?_single hkind, fun other hother hsome => ?_⟩
        exact absurd ⟨other, hother, hsome⟩ hdefault
    · rw [if_neg hkind]
      exact .inr ⟨_, _, rfl, .literal hkind⟩

/-- One argument more adds a parameter, or it is at fault. -/
theorem ofArguments_cons (h : Declares before earlier) (argument : Argument) (rest : List Argument) :
    (∃ parameter, Fits earlier argument parameter ∧
      ofArguments earlier (argument :: rest) = ofArguments (earlier ++ [parameter]) rest) ∨
    ∃ name reason, Offends before argument name reason ∧
      ofArguments earlier (argument :: rest) = .error ⟨before.length, name, reason⟩ := by
  rw [h.length_eq, ofArguments]
  rcases ofArgument_declares h argument with ⟨parameter, heq, hparameter, hordered⟩ | ⟨name, reason, heq, hoffends⟩
  · rw [heq]
    by_cases hname : ∃ other ∈ earlier, other.name = parameter.name
    · obtain ⟨found, hfound, hsame⟩ := hname
      obtain ⟨other, hother, hdeclares⟩ := h.mem_iff.mp hfound
      refine .inr ⟨parameter.name, .duplicate, .repeated hparameter hother hdeclares hsame ?_, if_pos ?_⟩
      · intro hnone name value hnamed
        obtain ⟨first, hfirst, hsome⟩ := h.default_iff.mpr ⟨name, value, hnamed⟩
        have hdefault := hordered first hfirst hsome
        rw [hnone] at hdefault
        cases hdefault
      · exact List.any_eq_true.mpr ⟨found, hfound, decide_eq_true hsame⟩
    · refine .inl ⟨parameter, ⟨hparameter, fun other hother hsame => hname ⟨other, hother, hsame⟩, hordered⟩, if_neg ?_⟩
      intro hany
      obtain ⟨other, hother, hsame⟩ := List.any_eq_true.mp hany
      exact hname ⟨other, hother, of_decide_eq_true hsame⟩
  · rw [heq]
    exact .inr ⟨name, reason, hoffends, rfl⟩

/-- Arguments after others that declare parameters: together they declare parameters, or there is a first fault. -/
theorem ofArguments_declares (h : Declares before earlier) (arguments : List Argument) :
    (∃ parameters, ofArguments earlier arguments = .ok parameters ∧ Declares (before ++ arguments) parameters) ∨
    ∃ error, ofArguments earlier arguments = .error error ∧ FirstFault (before ++ arguments) error := by
  induction arguments generalizing before earlier with
  | nil => exact .inl ⟨earlier, rfl, by rwa [List.append_nil]⟩
  | cons argument rest ih =>
    rcases ofArguments_cons h argument rest with ⟨parameter, hfits, heq⟩ | ⟨name, reason, hoffends, heq⟩
    · have hrest := ih (h.snoc hfits)
      rwa [List.append_assoc, List.singleton_append, ← heq] at hrest
    · exact .inr ⟨_, heq, .intro h.sound hoffends⟩

theorem declared_eq_ok_iff {tokens : List Token} :
    declared tokens = .ok parameters ↔ Declares (Argument.group tokens) parameters := by
  rw [declared]
  rcases ofArguments_declares .nil (Argument.group tokens) with ⟨found, heq, hfound⟩ | ⟨error, heq, hfault⟩
  · rw [heq, Except.ok.injEq]
    exact ⟨fun h => h ▸ hfound, hfound.unique⟩
  · rw [heq]
    exact iff_of_false nofun fun h => hfault.not_sound h.sound

theorem declared_eq_error_iff {tokens : List Token} :
    declared tokens = .error error ↔ FirstFault (Argument.group tokens) error := by
  rw [declared]
  rcases ofArguments_declares .nil (Argument.group tokens) with ⟨found, heq, hfound⟩ | ⟨first, heq, hfault⟩
  · rw [heq]
    exact iff_of_false nofun fun h => h.not_sound hfound.sound
  · rw [heq, Except.error.injEq]
    exact ⟨fun h => h ▸ hfault, hfault.unique⟩

/-! ## Parameters of a declaration -/

theorem nodup_declared {tokens : List Token} (h : declared tokens = .ok parameters) : (parameters.map name).Nodup :=
  (declared_eq_ok_iff.mp h).distinct

/-- A parameter as it is written. -/
def toText (parameter : Parameter) : Text :=
  match parameter.default? with
  | none => '$' :: parameter.name
  | some default => '$' :: parameter.name ++ '=' :: default

theorem toText_eq (h : argument.parameter? = some parameter) : parameter.toText = argument.toText := by
  cases argument with
  | named name value =>
    cases h
    rfl
  | single token =>
    rw [Argument.parameter?] at h
    split at h
    · rename_i hkind
      cases h
      rw [Argument.toText, if_pos hkind]
      rfl
    · cases h

/-- Parameters are written as the arguments that declare them. -/
theorem Declares.map_toText (h : Declares arguments parameters) :
    parameters.map toText = arguments.map Argument.toText := by
  have heach := h.each
  clear h
  induction arguments generalizing parameters with
  | nil =>
    rw [List.map_eq_nil_iff.mp heach.symm]
    rfl
  | cons argument rest ih =>
    obtain ⟨parameter, others, rfl, hparameter, hothers⟩ := List.map_eq_cons_iff.mp heach.symm
    rw [List.map_cons, List.map_cons, toText_eq hparameter.symm, ih hothers.symm]

/-- The parameters without a default are the first ones. -/
theorem required_first (h : parameters.Pairwise Before) :
    (∀ parameter ∈ parameters.take (required parameters), parameter.default? = none) ∧
      ∀ parameter ∈ parameters.drop (required parameters), parameter.default? ≠ none := by
  induction h with
  | nil => exact ⟨nofun, nofun⟩
  | @cons parameter rest hrest _ ih =>
    cases hdefault : parameter.default? with
    | none =>
      have hrequired : required (parameter :: rest) = required rest + 1 :=
        List.countP_cons_of_pos (by rw [hdefault]; rfl)
      rw [hrequired, List.take_succ_cons, List.drop_succ_cons]
      exact ⟨List.forall_mem_cons.mpr ⟨hdefault, ih.1⟩, ih.2⟩
    | some default =>
      -- From here on every parameter has a default.
      have hsome : ∀ other ∈ parameter :: rest, other.default?.isSome := by
        refine List.forall_mem_cons.mpr ⟨by rw [hdefault]; rfl, fun other hother => hrest other hother ?_⟩
        rw [hdefault]
        rfl
      have hrequired : required (parameter :: rest) = 0 :=
        List.countP_eq_zero.mpr fun other hother => by simpa using Option.isSome_iff_ne_none.mp (hsome other hother)
      rw [hrequired, List.take_zero, List.drop_zero]
      exact ⟨nofun, fun other hother => Option.isSome_iff_ne_none.mp (hsome other hother)⟩

/-- The tokens of a declaration are put together to arguments in one way. If these declare parameters, the parameters
are the result; those without a default come first, as many as every call has to give, and the signature that is
printed from the tokens is the one of the parameters. Otherwise the result is the first fault. -/
theorem declared_exact (tokens : List Token) :
    ∃ arguments, (∀ others, Argument.Grouped tokens others ↔ others = arguments) ∧
      (∀ parameters, declared tokens = .ok parameters ↔ Declares arguments parameters) ∧
      (∀ error, declared tokens = .error error ↔ FirstFault arguments error) ∧
      ∀ parameters, declared tokens = .ok parameters →
        (∀ mixin : Mixin, mixin.parameters = parameters →
          (∀ parameter ∈ parameters.take mixin.required, parameter.default? = none) ∧
            ∀ parameter ∈ parameters.drop mixin.required, parameter.default? ≠ none) ∧
        ∀ name, Signature.print name tokens =
          '@' :: name ++ '(' :: Text.join [',', ' '] (parameters.map toText) ++ [')'] := by
  refine ⟨Argument.group tokens, fun others => Argument.grouped_iff, fun parameters => declared_eq_ok_iff,
    fun error => declared_eq_error_iff, fun parameters h => ?_⟩
  have hdeclares := declared_eq_ok_iff.mp h
  refine ⟨?_, fun name => ?_⟩
  · rintro mixin rfl
    exact required_first hdeclares.ordered
  · rw [hdeclares.map_toText, Signature.print]

/-- A default that is a token of another kind, a default that is missing, and a variable that comes too late and has
the name of another argument. -/
theorem declared_exact_faults :
    let token (kind : Token.Kind) (text : Text) : Token := ⟨kind, text, ⟨['f'], 1⟩⟩
    let tokens := [token .variable ['a'], token .assignment ['b'], token .variable ['c'], token .assignment ['d']]
    let late := [token .assignment ['a'], token .literal ['1'], token .variable ['a'], token .literal ['2']]
    let parameters : List Parameter := [⟨['a'], none⟩, ⟨['b'], some ['c']⟩, ⟨['d'], some []⟩]
    declared tokens = .ok parameters ∧ Signature.print ['m'] tokens = "@m($a, $b=c, $d=)".toList ∧
      declared late = .error ⟨1, ['a'], .requiredAfterOptional⟩ ∧
      ∃ arguments, Argument.Grouped late arguments ∧ FirstFault arguments ⟨1, ['a'], .requiredAfterOptional⟩ := by
  intro token tokens late parameters
  have htokens : declared tokens = .ok parameters := by decide +kernel
  have hlate : declared late = .error ⟨1, ['a'], .requiredAfterOptional⟩ := by decide +kernel
  obtain ⟨-, -, -, -, hdeclared⟩ := declared_exact tokens
  obtain ⟨arguments, hgrouped, -, hfault, -⟩ := declared_exact late
  exact ⟨htokens, (hdeclared parameters htokens).2 ['m'], hlate, arguments, (hgrouped arguments).mpr rfl,
    (hfault _).mp hlate⟩

end Parameter

end Scl
