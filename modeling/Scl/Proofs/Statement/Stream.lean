import Scl.Proofs.Expansion.Outcome
import Scl.Proofs.Statement.Parameters
import Scl.Proofs.Statement.Printing
import Scl.Proofs.Template.Reading

/-!
# Streams of tokens

Calls, declarations and printed signatures take the tokens of a line apart again, and have to say something of lists
that no line has: of a token of another kind among arguments, and of an assignment without a value. No line comes to
that:

* `Argument.Items`, `Line.Stream`: the grammar of tokens;
* `Line.stream_of_tokens`: the tokens of a line follow it;
* `Line.Stream.exists_statement`: such tokens make a statement;
* `Argument.Items.groupOr_eq`, `Argument.Items.evaluate_ne_token`: what the arguments of a line never come to;
* `Template.LooksUp`: which name a text looks up;
* `Line.tokens_stream`: all of this for a line.
-/

namespace Scl

/-! ## The grammar -/

/-- A name of a variable, which may start with a digit. -/
structure Text.IsVariable (name : Text) : Prop where
  ne_nil : name ≠ []
  chars : ∀ c ∈ name, isNameChar c

/-- A token at a location, which has a variable's name if it names a variable. -/
structure Token.Placed (location : Location) (token : Token) : Prop where
  location : token.location = location
  name : token.kind = .variable ∨ token.kind = .assignment → token.text.IsVariable

/-- The tokens of an argument list: literals, variables, and assignments each with a literal after it. -/
inductive Argument.Items (location : Location) : List Token → Prop
  | nil : Items location []
  | literal (text : Text) {rest : List Token} : Items location rest →
    Items location (⟨.literal, text, location⟩ :: rest)
  | reference {name : Text} {rest : List Token} : name.IsVariable → Items location rest →
    Items location (⟨.variable, name, location⟩ :: rest)
  | named {name : Text} (value : Text) {rest : List Token} : name.IsVariable → Items location rest →
    Items location (⟨.assignment, name, location⟩ :: ⟨.literal, value, location⟩ :: rest)

/-- The tokens of a line. -/
inductive Line.Stream (location : Location) : List Token → Prop
  | comment (text : Text) : Stream location [⟨.comment, text, location⟩]
  | literal (text : Text) : Stream location [⟨.literal, text, location⟩]
  | assignment {name : Text} (value : Text) : name.IsVariable →
    Stream location [⟨.assignment, name, location⟩, ⟨.literal, value, location⟩]
  | declaration {name : Text} {arguments : List Token} : Text.isName name → Argument.Items location arguments →
    Stream location (⟨.declaration, name, location⟩ :: arguments)
  | call {name : Text} {arguments : List Token} : Text.isName name → Argument.Items location arguments →
    Stream location (⟨.call, name, location⟩ :: arguments)

/-! ## Reading -/

variable {location : Location} {tokens arguments : List Token}

theorem Token.Placed.of_ne {kind : Token.Kind} {text : Text} (hvariable : kind ≠ .variable)
    (hassignment : kind ≠ .assignment) : Token.Placed location ⟨kind, text, location⟩ :=
  ⟨rfl, fun h => absurd h (not_or.mpr ⟨hvariable, hassignment⟩)⟩

namespace Argument

theorem Items.append {others : List Token} (h : Items location tokens) (hothers : Items location others) :
    Items location (tokens ++ others) := by
  induction h with
  | nil => exact hothers
  | literal text _ ih => exact .literal text ih
  | reference hname _ ih => exact .reference hname ih
  | named value hname _ ih => exact .named value hname ih

theorem Items.placed (h : Items location tokens) : ∀ token ∈ tokens, token.Placed location := by
  induction h with
  | nil => exact nofun
  | literal text _ ih => exact List.forall_mem_cons.mpr ⟨.of_ne nofun nofun, ih⟩
  | reference hname _ ih => exact List.forall_mem_cons.mpr ⟨⟨rfl, fun _ => hname⟩, ih⟩
  | named value hname _ ih =>
    refine List.forall_mem_cons.mpr ⟨⟨rfl, fun _ => hname⟩, ?_⟩
    exact List.forall_mem_cons.mpr ⟨.of_ne nofun nofun, ih⟩

theorem items_of_tokens {argument : Text} (h : Argument.tokens location argument = .ok tokens) :
    Items location tokens := by
  obtain ⟨printed, hprints⟩ := exists_prints h
  cases hprints with
  | literal => exact .literal _ .nil
  | reference hne hname _ => exact .reference ⟨hne, hname⟩ .nil
  | named hne hname => exact .named _ ⟨hne, hname⟩ .nil

theorem items_of_read {text name : Text} (h : Signature.read location text = .ok (name, tokens)) :
    Text.isName name ∧ Items location tokens := by
  obtain ⟨form, hparses⟩ := Signature.exists_parses h
  refine ⟨hparses.isName, ?_⟩
  have hgives := hparses.gives
  cases form with
  | colon text =>
    rw [hgives.2]
    exact .nil
  | blank inner trailer =>
    rw [hgives.2.2]
    exact .nil
  | list texts trailer =>
    obtain ⟨-, -, -, lists, hlists, rfl⟩ := hgives
    clear hparses h
    induction hlists with
    | nil => exact .nil
    | cons hfirst _ ih => exact (items_of_tokens hfirst).append ih

end Argument

theorem Statement.isVariable_of_assignment? {code name value : Text} (h : assignment? code = some (name, value)) :
    name.IsVariable := by
  unfold assignment? at h
  split at h
  · rename_i reference
    simp only at h
    split at h
    · cases h
    · rename_i hne
      have hname : Text.IsVariable (reference.takeWhile Text.isNameChar) :=
        ⟨by simpa using hne, List.all_eq_true.mp List.all_takeWhile⟩
      split at h
      · cases h
      · split at h
        · cases h
        · cases h
          exact hname
      · cases h
  · cases h

namespace Line

variable {line : Line}

theorem stream_of_codeTokens {code : Text} (h : line.codeTokens code = .ok tokens) : Stream line.location tokens := by
  rw [codeTokens] at h
  split at h
  · obtain ⟨⟨name, arguments⟩, hread, rfl⟩ := Except.map_eq_ok h
    obtain ⟨hname, hitems⟩ := Argument.items_of_read hread
    exact .declaration hname hitems
  · split at h
    · obtain ⟨⟨name, arguments⟩, hread, rfl⟩ := Except.map_eq_ok h
      obtain ⟨hname, hitems⟩ := Argument.items_of_read hread
      exact .call hname hitems
    · split at h
      · obtain ⟨arguments, hread, rfl⟩ := Except.map_eq_ok h
        exact .call (by decide) (Argument.items_of_tokens hread)
      · split at h
        · rename_i hassignment
          cases h
          exact .assignment _ (Statement.isVariable_of_assignment? hassignment)
        · cases h
          exact .literal code

/-- The tokens of a line follow the grammar. -/
theorem stream_of_tokens (h : line.tokens = .ok tokens) : Stream line.location tokens := by
  rw [Line.tokens] at h
  split at h
  · cases h
    exact .comment _
  · exact stream_of_codeTokens h

/-- Every token of a line has its location, and a variable's name where it names one. -/
theorem Stream.placed (h : Stream location tokens) : ∀ token ∈ tokens, token.Placed location := by
  cases h with
  | comment text => exact List.forall_mem_singleton.mpr (.of_ne nofun nofun)
  | literal text => exact List.forall_mem_singleton.mpr (.of_ne nofun nofun)
  | assignment value hname =>
    exact List.forall_mem_cons.mpr ⟨⟨rfl, fun _ => hname⟩, List.forall_mem_singleton.mpr (.of_ne nofun nofun)⟩
  | declaration _ hitems => exact List.forall_mem_cons.mpr ⟨.of_ne nofun nofun, hitems.placed⟩
  | call _ hitems => exact List.forall_mem_cons.mpr ⟨.of_ne nofun nofun, hitems.placed⟩

/-- Tokens that follow the grammar make a statement. -/
theorem Stream.exists_statement (h : Stream location tokens) :
    ∃ statement, Statement.ofTokens tokens = .ok statement := by
  cases h with
  | comment => exact ⟨_, rfl⟩
  | literal => exact ⟨_, rfl⟩
  | assignment => exact ⟨_, rfl⟩
  | declaration => exact ⟨_, rfl⟩
  | call => exact ⟨_, rfl⟩

theorem exists_statement_iff :
    (∃ statement, line.statement = .ok statement) ↔ ∃ tokens, line.tokens = .ok tokens := by
  rw [statement]
  cases htokens : line.tokens with
  | error e =>
    refine iff_of_false ?_ ?_
    · rintro ⟨_, ⟨⟩⟩
    · rintro ⟨_, ⟨⟩⟩
  | ok tokens => exact iff_of_true (stream_of_tokens htokens).exists_statement ⟨tokens, rfl⟩

/-- The arguments of a call or of a declaration. -/
theorem items_of_statement {name : Text}
    (h : line.statement = .ok (.call name arguments) ∨ line.statement = .ok (.declaration name arguments)) :
    Argument.Items line.location arguments := by
  rw [statement] at h
  cases htokens : line.tokens with
  | error e =>
    rw [htokens] at h
    rcases h with h | h <;> cases h
  | ok tokens =>
    rw [htokens] at h
    replace h : Statement.ofTokens tokens = .ok (.call name arguments) ∨
      Statement.ofTokens tokens = .ok (.declaration name arguments) := h
    cases stream_of_tokens htokens with
    | declaration _ hitems =>
      rcases h with h | h <;> cases h
      exact hitems
    | call _ hitems =>
      rcases h with h | h <;> cases h
      exact hitems
    | comment => rcases h with h | h <;> cases h
    | literal => rcases h with h | h <;> cases h
    | assignment => rcases h with h | h <;> cases h

end Line

/-! ## Arguments of a line -/

namespace Argument

/-- The arguments of a token list, with some text for the value of an assignment that is the last token. Calls,
declarations and printed signatures all take the empty one (`groupOr_nil`). -/
def groupOr (missing : Text) : List Token → List Argument
  | [] => []
  | [token] => if token.kind = .assignment then [named token.text missing] else [single token]
  | token :: value :: rest =>
    if token.kind = .assignment then named token.text value.text :: groupOr missing rest
    else single token :: groupOr missing (value :: rest)

theorem groupOr_nil (tokens : List Token) : groupOr [] tokens = group tokens := by
  fun_induction group tokens with
  | case1 => rfl
  | case2 token hkind => exact if_pos hkind
  | case3 token hkind => exact if_neg hkind
  | case4 token value rest hkind ih => rw [groupOr, if_pos hkind, ih]
  | case5 token value rest hkind ih => rw [groupOr, if_neg hkind, ih]

theorem groupOr_cons_of_ne {missing : Text} {token : Token} (h : token.kind ≠ .assignment) (rest : List Token) :
    groupOr missing (token :: rest) = .single token :: groupOr missing rest := by
  cases rest with
  | nil => exact if_neg h
  | cons value rest => rw [groupOr, if_neg h]

/-- Every assignment of an argument list has its value. -/
theorem Items.groupOr_eq (h : Items location tokens) (missing : Text) : groupOr missing tokens = group tokens := by
  rw [← groupOr_nil]
  induction h with
  | nil => rfl
  | literal text _ ih => rw [groupOr_cons_of_ne (by simp), groupOr_cons_of_ne (by simp), ih]
  | reference hname _ ih => rw [groupOr_cons_of_ne (by simp), groupOr_cons_of_ne (by simp), ih]
  | named value hname _ ih => rw [groupOr, if_pos rfl, groupOr, if_pos rfl, ih]

end Argument

theorem Except.ok_ne_error {ε α : Type} {a : α} {e : ε} : Except.ok a ≠ Except.error e := by
  rintro ⟨⟩

theorem Except.bind_ne_error {ε α β : Type} {x : Except ε α} {f : α → Except ε β} {e : ε} (hx : x ≠ .error e)
    (hf : ∀ a, f a ≠ .error e) : x >>= f ≠ .error e := by
  cases x with
  | ok a => exact hf a
  | error found => exact fun h => hx (congrArg Except.error (Except.error.inj h))

section

variable (scopes : Scopes) (id : Nat) (e : TokenError)

theorem Scopes.fill_ne_token (text : Text) : scopes.fill id text ≠ .error (.token e) := by
  rw [fill]
  split <;> exact nofun

theorem Scopes.declared_ne_token (name : Text) : scopes.declared id name ≠ .error (.token e) := by
  rw [declared]
  split <;> exact nofun

/-- Every argument by position is a literal or a variable. -/
theorem Argument.Items.evaluate_ne_token (h : Items location tokens) :
    scopes.evaluate id (group tokens) ≠ .error (.token e) := by
  induction h with
  | nil => exact Except.ok_ne_error
  | literal text _ ih =>
    rw [group_cons_of_ne (by simp)]
    refine Except.bind_ne_error (scopes.fill_ne_token id e text) fun _ => ?_
    exact Except.bind_ne_error ih fun _ => Except.ok_ne_error
  | reference hname _ ih =>
    rw [group_cons_of_ne (by simp)]
    refine Except.bind_ne_error (scopes.declared_ne_token id e _) fun _ => ?_
    exact Except.bind_ne_error ih fun _ => Except.ok_ne_error
  | named value hname _ ih =>
    rw [group, if_pos rfl]
    refine Except.bind_ne_error (scopes.fill_ne_token id e value) fun _ => ?_
    exact Except.bind_ne_error ih fun _ => Except.ok_ne_error

open Expansion

/-- Binding parameters never fails for a token. -/
theorem Scopes.bind_ne_token {mixin : Mixin} {place location : Location} {slots : List Slot} :
    Scopes.bind mixin location id slots scopes ≠ .error (.located place (.token e)) := by
  induction slots generalizing scopes with
  | nil => exact Except.ok_ne_error
  | cons slot rest ih =>
    rw [bind_cons]
    refine Except.bind_ne_error ?_ fun value => ih _
    obtain ⟨⟨name, default?⟩, given?⟩ := slot
    match given?, default? with
    | some value, _ => exact Except.ok_ne_error
    | none, none => rintro ⟨⟩
    | none, some default =>
      rw [slotValue]
      cases scopes.fill id default with
      | ok value => exact Except.ok_ne_error
      | error cause => rintro ⟨⟩

/-- A call with the arguments of a line does not fail for a token of its own. -/
theorem Argument.Items.expandCall_ne_token (h : Items location arguments) (env : Environment) (run : Expander)
    (line : Line) (below : Forest Line) (name : Text) (after : Scopes) (place : Location) :
    env.expandCall run line below name arguments id scopes ≠ some (.error (.located place (.token e)), after) := by
  intro hcall
  rw [expandCall_apply] at hcall
  cases hmixin : scopes.mixin? id name with
  | none =>
    rw [hmixin] at hcall
    cases fail_eq_error hcall
  | some mixin =>
    rw [hmixin, callMixin] at hcall
    split at hcall
    · cases fail_eq_error hcall
    · rcases bind_eq_error hcall with hask | ⟨values, between, -, hrest⟩
      · rw [ask_apply] at hask
        cases hvalues : scopes.evaluate id (group arguments) with
        | ok values =>
          rw [hvalues] at hask
          cases hask
        | error cause =>
          rw [hvalues] at hask
          cases hask
          exact h.evaluate_ne_token scopes id e hvalues
      · split at hrest
        · cases fail_eq_error hrest
        · obtain ⟨inner, hinvoke, -⟩ := inScope_eq_some hrest
          rw [invoke_apply] at hinvoke
          split at hinvoke
          · cases hinvoke
          · split at hinvoke
            · rename_i hbind
              cases hinvoke
              exact Scopes.bind_ne_token _ _ _ hbind
            · obtain ⟨inner, -, heq⟩ := nested_eq_error hinvoke
              cases heq

end

/-! ## Names of variables -/

/-- Filling in a text looks up a name and nothing else, whatever the scopes. -/
structure Template.LooksUp (text name : Text) : Prop where
  names : (ofText text).names = [name]
  found (scopes : Scopes) (id : Nat) (value : Text) : scopes.value? id name = some value →
    scopes.fill id text = .ok value
  missing (scopes : Scopes) (id : Nat) : scopes.value? id name = none →
    scopes.fill id text = .error (.template (.unknownVariable name))

theorem Template.looksUp_of_ofText {text name : Text} (h : ofText text = [.reference name]) : LooksUp text name := by
  refine ⟨by rw [h]; rfl, fun scopes id value hvalue => ?_, fun scopes id hvalue => ?_⟩
  · simp [Scopes.fill, h, fill, Piece.fault?, Piece.output, hvalue]
  · simp [Scopes.fill, h, fill, Piece.fault?, Piece.output, hvalue]

theorem Text.IsVariable.looksUp {name : Text} (h : name.IsVariable) :
    Template.LooksUp ('$' :: name) name ∧ Template.LooksUp ('$' :: '{' :: (name ++ ['}'])) name := by
  constructor
  · have hread : Template.ofText ('$' :: (name ++ [])) = [.reference name] :=
      Template.ofText_reference h.ne_nil h.chars (by simp)
    rw [List.append_nil] at hread
    exact Template.looksUp_of_ofText hread
  · exact Template.looksUp_of_ofText (Template.ofText_reference_braced h.ne_nil h.chars [])

/-- The tokens of a line follow the grammar, stand at the line, and name variables by names that are looked up as they
are. So every line that has tokens is a statement; and if that is a call or a declaration, every assignment among its
arguments has its value, and a call does not come to a token that is no argument. -/
theorem Line.tokens_stream (line : Line) :
    (∀ tokens, line.tokens = .ok tokens → Stream line.location tokens ∧
      (∀ token ∈ tokens, token.location = line.location) ∧
      ∀ token ∈ tokens, token.kind = .variable ∨ token.kind = .assignment → token.text.IsVariable ∧
        Template.LooksUp ('$' :: token.text) token.text ∧
        Template.LooksUp ('$' :: '{' :: (token.text ++ ['}'])) token.text) ∧
    ((∃ statement, line.statement = .ok statement) ↔ ∃ tokens, line.tokens = .ok tokens) ∧
    ∀ name arguments,
      (line.statement = .ok (.call name arguments) ∨ line.statement = .ok (.declaration name arguments)) →
      (∀ missing, Argument.groupOr missing arguments = Argument.group arguments) ∧
      (∀ (scopes : Scopes) (id : Nat) (e : TokenError),
        scopes.evaluate id (Argument.group arguments) ≠ .error (.token e)) ∧
      ∀ (env : Environment) (run : Expander) (below : Forest Line) (id : Nat) (scopes after : Scopes)
        (place : Location) (e : TokenError), env.expandCall run line below name arguments id scopes ≠
          some (.error (.located place (.token e)), after) := by
  refine ⟨fun tokens h => ?_, exists_statement_iff, fun name arguments h => ?_⟩
  · have hstream := stream_of_tokens h
    refine ⟨hstream, fun token htoken => (hstream.placed token htoken).location, fun token htoken hkind => ?_⟩
    have hname := (hstream.placed token htoken).name hkind
    exact ⟨hname, hname.looksUp⟩
  · have hitems := items_of_statement h
    exact ⟨hitems.groupOr_eq, fun scopes id e => hitems.evaluate_ne_token scopes id e,
      fun env run below id scopes after place e =>
        hitems.expandCall_ne_token scopes id e env run line below name after place⟩

/-- A call over two lines, with variables whose names start with digits. -/
theorem Line.tokens_stream_digits :
    let line : Line := ⟨⟨['f'], 2⟩, 0, "m($1 , $2 = // two\n\"$\") :".toList⟩
    let arguments : List Token := [⟨.variable, ['1'], ⟨['f'], 2⟩⟩, ⟨.assignment, ['2'], ⟨['f'], 2⟩⟩,
      ⟨.literal, "\"$\"".toList, ⟨['f'], 2⟩⟩]
    line.tokens = .ok (⟨.call, ['m'], ⟨['f'], 2⟩⟩ :: arguments) ∧ line.statement = .ok (.call ['m'] arguments) ∧
      Template.LooksUp "$\x7b2\x7d".toList ['2'] ∧ Argument.groupOr ['x'] arguments = Argument.group arguments := by
  intro line arguments
  have htokens : line.tokens = .ok (⟨.call, ['m'], ⟨['f'], 2⟩⟩ :: arguments) := by decide +kernel
  have hstatement : line.statement = .ok (.call ['m'] arguments) := by decide +kernel
  obtain ⟨hstream, -, harguments⟩ := tokens_stream line
  have hname := (hstream _ htokens).2.2 ⟨.assignment, ['2'], ⟨['f'], 2⟩⟩ (by decide) (.inr rfl)
  exact ⟨htokens, hstatement, hname.2.2, (harguments _ _ (.inl hstatement)).1 ['x']⟩

end Scl
