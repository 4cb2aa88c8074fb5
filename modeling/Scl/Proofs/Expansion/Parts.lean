import Scl.Expansion.Lines

/-!
# The parts of an expansion

The expansion of a line taken apart into steps that later proofs handle one at a time:

* `ask`: a value read off the scopes, which may be missing;
* `binding`: the parameters of a call become variables, one by one (`bind_cons`);
* `invoke`: the part of a call that runs in the scope which the call opens;
* `importFiles`: the part of an import that goes to the file system;
* `expandLine_eq`: what each kind of line does.
-/

namespace Scl.Expansion

open Environment

variable {α : Type}

/-- A value read off the scopes, with a cause of failure placed at `location`. -/
def ask (location : Location) (read : Scopes → Except Cause α) : Expansion α := do
  ofCause location (← reading read)

theorem ask_apply (location : Location) (read : Scopes → Except Cause α) (scopes : Scopes) :
    ask location read scopes = some ((read scopes).mapError (.located location), scopes) := by
  rw [ask, bind_apply, reading_apply]
  exact ofCause_apply location (read scopes) scopes

/-! ## Calls -/

/-- The value of a parameter: the given one, or else its default filled in. -/
def slotValue (mixin : Mixin) (location : Location) (id : Nat) (scopes : Scopes) : Slot → Except Error Text
  | (_, some value) => .ok value
  | (⟨_, some default⟩, none) =>
    (scopes.fill id default).mapError fun cause =>
      .nested location (.located mixin.declaration.location cause)
  | (⟨name, none⟩, none) => .error (.located location (.resolution (.missingArgument mixin.name name)))

theorem bind_cons (mixin : Mixin) (location : Location) (id : Nat) (slot : Slot) (rest : List Slot)
    (scopes : Scopes) :
    Scopes.bind mixin location id (slot :: rest) scopes =
      slotValue mixin location id scopes slot >>= fun value =>
        Scopes.bind mixin location id rest (scopes.setVariable id slot.1.name value) := by
  obtain ⟨⟨name, default?⟩, given?⟩ := slot
  cases given? with
  | some value => rfl
  | none =>
    cases default? with
    | none => rfl
    | some default =>
      simp only [Scopes.bind, slotValue]
      cases scopes.fill id default <;> rfl

/-- The parameters of a mixin become variables of scope `id`. -/
def binding (mixin : Mixin) (location : Location) (id : Nat) (slots : List Slot) : Expansion PUnit := do
  let bound ← ofExcept (← reading (Scopes.bind mixin location id slots))
  set bound

theorem binding_apply (mixin : Mixin) (location : Location) (id : Nat) (slots : List Slot)
    (scopes : Scopes) :
    binding mixin location id slots scopes =
      match Scopes.bind mixin location id slots scopes with
      | .ok bound => some (.ok ⟨⟩, bound)
      | .error e => some (.error e, scopes) := by
  show ((ofExcept (Scopes.bind mixin location id slots scopes) : Expansion Scopes) >>= set) scopes = _
  cases Scopes.bind mixin location id slots scopes <;> rfl

/-- The part of a call that runs in the scope which it opens, with number `id`. -/
def invoke (run : Expander) (location : Location) (mixin : Mixin) (values : Values) (id : Nat) :
    Expansion Output := do
  let slots ← ofCause location ((mixin.slots values).mapError .resolution)
  binding mixin location id slots
  nested location (run mixin.body id)

theorem invoke_apply (run : Expander) (location : Location) (mixin : Mixin) (values : Values) (id : Nat)
    (scopes : Scopes) :
    invoke run location mixin values id scopes =
      match mixin.slots values with
      | .error e => some (.error (.located location (.resolution e)), scopes)
      | .ok slots =>
        match Scopes.bind mixin location id slots scopes with
        | .error e => some (.error e, scopes)
        | .ok bound => nested location (run mixin.body id) bound := by
  rw [invoke, bind_apply, ofCause_apply]
  cases mixin.slots values with
  | error e => rfl
  | ok slots =>
    show (binding mixin location id slots >>= fun _ => nested location (run mixin.body id)) scopes =
      match Scopes.bind mixin location id slots scopes with
      | .error e => some (.error e, scopes)
      | .ok bound => nested location (run mixin.body id) bound
    rw [bind_apply, binding_apply]
    cases Scopes.bind mixin location id slots scopes <;> rfl

/-- The part of a call that follows the lookup of its mixin. -/
def callMixin (inheritance : Inheritance) (run : Expander) (line : Line) (below : Forest Line) (name : Text)
    (arguments : List Token) (id : Nat) : Option Mixin → Expansion Output
  | none => fail line.location (.resolution (.unknownMixin name))
  | some mixin =>
    if !below.isEmpty then fail line.location (.resolution (.callWithBody name))
    else do
      let values ← ask line.location (·.evaluate id (Argument.group arguments))
      if !mixin.takes values.count then
        fail line.location (.resolution (.wrongArity name mixin.required values.count))
      else inScope inheritance mixin.scope (invoke run line.location mixin values)

variable (env : Environment) (run : Expander) (inside : Nat → Expansion Output) (above : List Line)
  {line : Line} (below : Forest Line) (id : Nat)

theorem expandCall_eq (name : Text) (arguments : List Token) :
    env.expandCall run line below name arguments id =
      reading (·.mixin? id name) >>= callMixin env.inheritance run line below name arguments id := by
  have hinvoke : ∀ mixin values, (fun invocation => do
      let slots ← ofCause line.location ((mixin.slots values).mapError .resolution)
      let bound ← ofExcept (← reading (Scopes.bind mixin line.location invocation slots))
      set bound
      nested line.location (run mixin.body invocation)) = invoke run line.location mixin values := by
    intro mixin values
    funext invocation
    simp only [invoke, binding, bind_assoc]
  simp only [expandCall, hinvoke]
  refine congrArg (reading (·.mixin? id name) >>= ·) (funext fun mixin? => ?_)
  cases mixin? with
  | none => rfl
  | some mixin => simp only [callMixin, ask, bind_assoc]

theorem expandCall_apply (name : Text) (arguments : List Token) (scopes : Scopes) :
    env.expandCall run line below name arguments id scopes =
      callMixin env.inheritance run line below name arguments id (scopes.mixin? id name) scopes := by
  rw [expandCall_eq, bind_apply, reading_apply]

/-! ## Imports -/

/-- The part of an import that follows the reading of its pattern. -/
def importFiles (line : Line) (pattern : Text) : Expansion Output :=
  match env.files.firstMatch (Path.candidates env.includePaths line.location.file pattern) with
  | .error e => throw (.nested line.location (.file pattern e))
  | .ok [] => fail line.location (.noFilesFound pattern)
  | .ok paths => nested line.location (env.files.expandAll run id paths)

theorem expandImport_eq (arguments : List Token) :
    env.expandImport run line below arguments id =
      if !below.isEmpty then fail line.location .importBody
      else ask line.location (·.importPattern id arguments) >>= importFiles env run id line := by
  simp only [expandImport, ask, bind_assoc]
  rfl

/-! ## Lines -/

/-- A literal line, with or without a block below it. -/
def literal (inheritance : Inheritance) (inside : Nat → Expansion Output) (line : Line)
    (below : Forest Line) (text : Text) (id : Nat) : Expansion Output := do
  let text ← ask line.location (·.fill id text)
  if below.isEmpty then pure (.leaf text)
  else
    let body ← inScope inheritance id inside
    pure (.block text body .nil)

def assignment (line : Line) (below : Forest Line) (name value : Text) (id : Nat) : Expansion Output :=
  if !below.isEmpty then fail line.location (.assignmentBody name)
  else do
    let value ← ask line.location (·.fill id value)
    modify (·.setVariable id name value)
    pure (.line (name ++ [' ', '=', ' '] ++ value) .nil)

/-- The mixin that a line declares in scope `id`. -/
def declared (above : List Line) (line : Line) (below : Forest Line) (name : Text)
    (parameters : List Parameter) (id : Nat) : Mixin :=
  { name, declaration := line, body := below, parameters, doc? := line.docComment? above, scope := id }

def declaration (above : List Line) (line : Line) (below : Forest Line) (name : Text)
    (arguments : List Token) (id : Nat) : Expansion Output := do
  let parameters ← ofCause line.location ((Parameter.declared arguments).mapError .declaration)
  modify (·.setMixin id (declared above line below name parameters id))
  pure .nil

theorem expandLine_eq :
    env.expandLine run inside above line below id =
      match line.statement with
      | .error e => fail line.location (.token e)
      | .ok (.comment _) => inside id
      | .ok (.literal text) => literal env.inheritance inside line below text id
      | .ok (.assignment name value) => assignment line below name value id
      | .ok (.declaration name arguments) => declaration above line below name arguments id
      | .ok (.call name arguments) =>
        if name = importName then env.expandImport run line below arguments id
        else env.expandCall run line below name arguments id := by
  rw [expandLine]
  cases line.statement with
  | error e => rfl
  | ok statement =>
    cases statement with
    | comment text => rfl
    | literal text =>
      simp only [literal, ask, bind_assoc]
      rfl
    | assignment name value =>
      simp only [assignment, ask, bind_assoc]
      rfl
    | declaration name arguments => rfl
    | call name arguments => rfl

end Scl.Expansion
