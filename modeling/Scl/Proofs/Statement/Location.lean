import Scl.Expansion.Import

/-!
# Statements elsewhere

Tokens carry the location of their line, and nothing else of a statement depends on where the line stands:

* `statement_moveTo`: a line with the same content makes the same statement, with its tokens moved along;
* `declared_moveTo`, `evaluate_moveTo`, `importPattern_moveTo`: where tokens stand does not matter to what
  they declare, to their values and to the files that they name.
-/

namespace Scl

/-- The token with another location. -/
def Token.moveTo (location : Location) (token : Token) : Token :=
  { token with location }

/-- The statement with all its tokens at another location. -/
def Statement.moveTo (location : Location) : Statement → Statement
  | declaration name arguments => declaration name (arguments.map (Token.moveTo location))
  | call name arguments => call name (arguments.map (Token.moveTo location))
  | comment text => comment text
  | literal text => literal text
  | assignment name value => assignment name value

variable (location location' : Location)

/-! ## Reading -/

theorem Argument.tokens_moveTo (argument : Text) :
    tokens location' argument = List.map (Token.moveTo location') <$> tokens location argument := by
  unfold tokens
  split
  · rfl
  · rename_i reference
    by_cases hname : (reference.takeWhile Text.isNameChar).isEmpty
    · simp only [hname, if_true]
      rfl
    · simp only [hname, Bool.false_eq_true, if_false]
      split
      · rfl
      · rename_i value _
        by_cases hvalue : (Text.trim value).isEmpty
        · simp only [hvalue, if_true]
          rfl
        · simp only [hvalue, Bool.false_eq_true, if_false]
          cases literalFault? (Text.trim value) <;> rfl
      · rfl
  · cases literalFault? argument <;> rfl

theorem Signature.listTokens_moveTo (inner : Text) :
    listTokens location' inner = List.map (Token.moveTo location') <$> listTokens location inner := by
  have hpieces : ∀ pieces : List Text,
      (pieces.mapM fun piece => Argument.tokens location' (Text.trim piece)) =
        List.map (List.map (Token.moveTo location')) <$>
          pieces.mapM fun piece => Argument.tokens location (Text.trim piece) := by
    intro pieces
    induction pieces with
    | nil => rfl
    | cons piece rest ih =>
      rw [List.mapM_cons, List.mapM_cons, ih, Argument.tokens_moveTo location]
      cases Argument.tokens location (Text.trim piece) with
      | error e => rfl
      | ok tokens =>
        cases rest.mapM fun piece => Argument.tokens location (Text.trim piece) <;> rfl
  unfold listTokens
  split
  · rfl
  · rw [hpieces]
    cases (pieces .top inner).mapM fun piece => Argument.tokens location (Text.trim piece) with
    | error e => rfl
    | ok tokens => exact congrArg Except.ok List.map_flatten.symm

theorem Signature.read_moveTo (text : Text) :
    read location' text =
      (fun (name, arguments) => (name, arguments.map (Token.moveTo location'))) <$> read location text := by
  unfold read
  generalize Text.spanName text = parts
  obtain ⟨name, rest⟩ := parts
  simp only
  by_cases hname : name.isEmpty
  · simp only [hname, if_true]
    rfl
  · by_cases hcolon : Text.trim rest = [':']
    · simp only [hname, Bool.false_eq_true, if_false, hcolon, if_true]
      rfl
    · simp only [hname, Bool.false_eq_true, if_false, hcolon]
      split
      · rename_i list
        match enclosed? .top list with
        | none => rfl
        | some (inner, after) =>
          by_cases htrailer : Text.trim after = [] ∨ Text.trim after = [':']
          · simp only [htrailer, if_true, listTokens_moveTo location location']
            cases listTokens location inner <;> rfl
          · simp only [htrailer, if_false]
            rfl
      · rfl

theorem Line.codeTokens_moveTo (line : Line) (column : Nat) (code : Text) :
    { line with location := location', column }.codeTokens code =
      List.map (Token.moveTo location') <$> line.codeTokens code := by
  unfold codeTokens
  split
  · rw [Signature.read_moveTo line.location]
    cases Signature.read line.location code.tail <;> rfl
  · split
    · rw [Signature.read_moveTo line.location]
      cases Signature.read line.location code <;> rfl
    · cases Statement.importArgument? code with
      | some path =>
        simp only [Argument.tokens_moveTo line.location location']
        cases Argument.tokens line.location path <;> rfl
      | none => cases Statement.assignment? code <;> rfl

theorem Line.tokens_moveTo (line : Line) (column : Nat) :
    { line with location := location', column }.tokens =
      List.map (Token.moveTo location') <$> line.tokens := by
  obtain ⟨location, column', content⟩ := line
  simp only [tokens]
  split
  · rfl
  · exact codeTokens_moveTo location' ⟨location, column', content⟩ column _

theorem Statement.ofTokens_moveTo (tokens : List Token) :
    ofTokens (tokens.map (Token.moveTo location')) = moveTo location' <$> ofTokens tokens := by
  match tokens with
  | [] => rfl
  | ⟨kind, text, location⟩ :: rest =>
    cases kind with
    | assignment => cases rest <;> rfl
    | _ => rfl

/-- A line of the same content makes the same statement elsewhere. -/
theorem Line.statement_moveTo (line : Line) (column : Nat) :
    { line with location := location', column }.statement = Statement.moveTo location' <$> line.statement := by
  rw [statement, statement, tokens_moveTo]
  cases line.tokens with
  | error e => rfl
  | ok tokens => exact Statement.ofTokens_moveTo location' tokens

/-! ## Meaning -/

/-- The argument with another location. -/
def Argument.moveTo (location : Location) : Argument → Argument
  | single token => single (token.moveTo location)
  | named name value => named name value

theorem Argument.group_moveTo (tokens : List Token) :
    group (tokens.map (Token.moveTo location')) = (group tokens).map (moveTo location') := by
  fun_induction group tokens with
  | case1 => rfl
  | case2 token h => simp [group, Token.moveTo, h, moveTo]
  | case3 token h => simp [group, Token.moveTo, h, moveTo]
  | case4 token value rest h ih => simp_all [group, Token.moveTo, moveTo]
  | case5 token value rest h ih => simp_all [group, Token.moveTo, moveTo]

theorem Parameter.declared_moveTo (tokens : List Token) :
    declared (tokens.map (Token.moveTo location')) = declared tokens := by
  have hof : ∀ earlier (argument : Argument), ofArgument earlier (argument.moveTo location') =
      ofArgument earlier argument := fun earlier argument => by cases argument <;> rfl
  have hall : ∀ earlier (arguments : List Argument),
      ofArguments earlier (arguments.map (Argument.moveTo location')) = ofArguments earlier arguments := by
    intro earlier arguments
    induction arguments generalizing earlier with
    | nil => rfl
    | cons argument rest ih => simp only [List.map_cons, ofArguments, hof, ih]
  rw [declared, declared, Argument.group_moveTo, hall]

theorem Scopes.evaluate_moveTo (scopes : Scopes) (id : Nat) (tokens : List Token) :
    scopes.evaluate id (Argument.group (tokens.map (Token.moveTo location'))) =
      scopes.evaluate id (Argument.group tokens) := by
  rw [Argument.group_moveTo]
  induction Argument.group tokens with
  | nil => rfl
  | cons argument rest ih =>
    cases argument with
    | named name value => simp only [List.map_cons, Argument.moveTo, evaluate, ih]
    | single token => simp only [List.map_cons, Argument.moveTo, Token.moveTo, evaluate, ih]

theorem Scopes.importPattern_moveTo (scopes : Scopes) (id : Nat) (tokens : List Token) :
    scopes.importPattern id (tokens.map (Token.moveTo location')) = scopes.importPattern id tokens := by
  match tokens with
  | [] => rfl
  | [token] => rfl
  | first :: second :: rest => simp [importPattern]

end Scl
