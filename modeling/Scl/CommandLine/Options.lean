import Scl.Session

/-!
# Options

The arguments of a command line are read from left to right. An option that takes a value has it after an
equals sign or as the next argument, which then must not look like an option; its value is checked when
the argument after it is read. After `--` every argument is a file.
-/

namespace Scl.CommandLine

structure Options where
  includePaths : List Text := []
  params : List (Text × Text) := []
  /-- Keeps the environment out of the params. -/
  noEnvironment : Bool := false
  /-- Asks for documentation in place of output. -/
  docs : Bool := false
  /-- Asks for the documentation as JSON. -/
  json : Bool := false
  files : List Text := []
  deriving DecidableEq, Repr

/-- Why no options come of a command line. -/
inductive UsageError where
  | unknownArgument
  | missingArgument
  /-- An option without its value. -/
  | missingValue
  /-- A value that its option refuses. -/
  | invalidValue
  | repeatedFlag
  /-- A value for a flag. -/
  | unexpectedValue
  | help
  | version
  deriving DecidableEq, Repr

def quoted (value : Text) : Text :=
  '"' :: Text.trim value ++ ['"']

/-- A param as it is seen by a program: the name trimmed, the value trimmed and quoted. -/
def param (name value : Text) : Text × Text :=
  (Text.trim name, quoted value)

/-- The param written `name=value`. -/
def param? (text : Text) : Option (Text × Text) :=
  match text.dropWhile (· != '=') with
  | _ :: value => some (param (text.takeWhile (· != '=')) value)
  | [] => none

/-! ## Reading -/

/-- An option that takes a value. -/
inductive Valued where
  | includePath
  | param
  deriving DecidableEq, Repr

/-- What has been read so far. -/
structure Reading where
  options : Options := {}
  /-- The last option, if its value is not yet read, or read and not yet checked. -/
  pending? : Option (Valued × Option Text) := none
  onlyFiles : Bool := false
  deriving DecidableEq, Repr

def Options.give (options : Options) (option : Valued) (value : Text) : Except UsageError Options :=
  match option with
  | .includePath =>
    if value.isEmpty then .error .missingValue
    else .ok { options with includePaths := options.includePaths ++ [value] }
  | .param =>
    match param? value with
    | some p => .ok { options with params := options.params ++ [p] }
    | none => .error .invalidValue

namespace Reading

/-- Checks the value of the last option. -/
def settle (reading : Reading) : Except UsageError Reading :=
  match reading.pending? with
  | none => .ok reading
  | some (_, none) => .error .missingValue
  | some (option, some value) =>
    (fun options => { reading with options, pending? := none }) <$> reading.options.give option value

def addFile (reading : Reading) (file : Text) : Except UsageError Reading := do
  let reading ← reading.settle
  return { reading with options.files := reading.options.files ++ [file] }

/-- An option that takes a value, which may stand behind an equals sign. -/
def valued (reading : Reading) (option : Valued) (value? : Option Text) :
    Except UsageError Reading := do
  let reading ← reading.settle
  match value? with
  | none => return { reading with pending? := some (option, none) }
  | some value => return { reading with options := ← reading.options.give option value }

/-- A flag, which is given once and takes no value. -/
def flag (reading : Reading) (get : Options → Bool) (set : Options → Options) (value? : Option Text) :
    Except UsageError Reading := do
  if value?.isSome then throw .unexpectedValue
  else
    let reading ← reading.settle
    if get reading.options then throw .repeatedFlag
    else return { reading with options := set reading.options }

/-- A flag that ends the reading. -/
def stop (reading : Reading) (answer : UsageError) (value? : Option Text) :
    Except UsageError Reading := do
  if value?.isSome then throw .unexpectedValue
  else
    let _ ← reading.settle
    throw answer

/-- An option `--name` or `--name=value`. -/
def long (reading : Reading) (name : Text) (value? : Option Text) : Except UsageError Reading :=
  match String.ofList name with
  | "include" => reading.valued .includePath value?
  | "param" => reading.valued .param value?
  | "no-env" => reading.flag (·.noEnvironment) ({ · with noEnvironment := true }) value?
  | "docs" => reading.flag (·.docs) ({ · with docs := true }) value?
  | "json" => reading.flag (·.json) ({ · with json := true }) value?
  | "help" => reading.stop .help value?
  | "version" => reading.stop .version value?
  | _ => .error .unknownArgument

/-- One argument. -/
def next (reading : Reading) (argument : Text) : Except UsageError Reading :=
  if reading.onlyFiles then reading.addFile argument
  else
    match argument with
    | ['-', '-'] => .ok { reading with onlyFiles := true }
    | '-' :: '-' :: option =>
      let name := option.takeWhile (· != '=')
      match option.dropWhile (· != '=') with
      | [] => reading.long name none
      | _ :: value => reading.long name (some value)
    | '-' :: letter :: _ =>
      if letter == 'h' then reading.stop .help none
      else if letter == 'V' then reading.stop .version none
      else .error .unknownArgument
    | value =>
      match reading.pending? with
      | some (option, none) => .ok { reading with pending? := some (option, some value) }
      | _ => reading.addFile value

end Reading

/-- The options of a command line. There has to be a file, and JSON is for documentation. -/
def Options.read (arguments : List Text) : Except UsageError Options := do
  let reading ← arguments.foldlM Reading.next {}
  let reading ← reading.settle
  let options := reading.options
  if options.files.isEmpty || options.json && !options.docs then throw .missingArgument
  else return options

/-- The settings for the files. The environment comes first, so that a param of the same name wins. -/
def Options.settings (options : Options) (environment : List (Text × Text)) : Settings :=
  let inherited := if options.noEnvironment then [] else environment
  { includePaths := options.includePaths
    params := inherited.map (fun (name, value) => param name value) ++ options.params }

end Scl.CommandLine
