import Scl.CommandLine.Options
import Scl.Documentation.Json
import Scl.Documentation.Outline

/-!
# Reports

What a command line has done: the result for each of its files, in order, and the texts that show them.
A file that fails does not keep the others from being shown.
-/

namespace Scl.CommandLine

/-- The result for one file. -/
inductive Result where
  | expanded (result : Option (Except Error Output))
  | documented (result : Except Error (Forest DocEntry))

/-- The result of each file. -/
def Options.results (options : Options) (settings : Settings) (files : FileSystem) :
    List (Text × Result) :=
  options.files.map fun file =>
    (file, if options.docs then .documented (files.document file)
     else .expanded (settings.expand files file))

namespace Result

def isOk : Result → Bool
  | expanded (some (.ok _)) => true
  | documented (.ok _) => true
  | _ => false

/-- The name of a file as a comment in front of its result. -/
def title (file : Text) : Text :=
  ['/', '*', ' '] ++ file ++ [' ', '*', '/', '\n']

def stdout (json : Bool) (file : Text) : Result → Text
  | expanded (some (.ok output)) => title file ++ output.render ++ ['\n', '\n']
  | documented (.ok docs) =>
    if json then Json.array (Json.mixins docs) ++ ['\n']
    else title file ++ Caption.outline 0 (docs.map DocEntry.caption) ++ ['\n']
  | _ => []

def stderr : Result → String
  | expanded none => "Error: Unable to parse file: calls or imports are nested too deeply\n"
  | expanded (some (.error e)) => "Error: Unable to parse file: " ++ e.message ++ "\n"
  | documented (.error e) => "Error: Unable to read documentation: " ++ e.message ++ "\n"
  | _ => ""

/-- The part of the disk that has to be explored before this result counts. -/
def unexplored? (result : Result) : Option (List Text) :=
  let error? := match result with
    | expanded (some (.error e)) => some e
    | documented (.error e) => some e
    | _ => none
  match error?.map Error.root with
  | some (.file _ (.unexplored place)) => some place
  | _ => none

end Result

/-- What is written, and the exit status. -/
structure Report where
  status : Nat
  stdout : Text
  stderr : String

def Report.ofResults (json : Bool) (results : List (Text × Result)) : Report :=
  { status := if results.all (·.2.isOk) then 0 else 1
    stdout := results.flatMap fun (file, result) => result.stdout json file
    stderr := String.join (results.map (·.2.stderr)) }

def version : String := "scl 0.1.0\n"

def usage : String :=
  "SCL: compile SCL configuration files to HCL

Usage: scl [OPTIONS] <FILE>...

Arguments:
  <FILE>...  Input .scl files

Options:
      --include <DIR>       Directory searched for imports (repeatable)
      --param <NAME=VALUE>  Variable preset in the global scope as a string, e.g. name=value (repeatable)
      --no-env              Don't ingest environment variables as params
      --docs                Print the mixin documentation tree instead of compiling
      --json                With --docs, print one JSON array per file
  -h, --help                Print help
  -V, --version             Print version
"

def UsageError.message : UsageError → String
  | unknownArgument => "unexpected argument found"
  | missingArgument => "a required argument was not provided"
  | missingValue => "a value is required but none was supplied"
  | invalidValue => "a param is written NAME=VALUE"
  | repeatedFlag => "a flag cannot be used multiple times"
  | unexpectedValue => "a flag takes no value"
  | help => ""
  | version => ""

/-- The report on a command line that names no work. -/
def Report.ofUsage : UsageError → Report
  | .help => { status := 0, stdout := usage.toList, stderr := "" }
  | .version => { status := 0, stdout := CommandLine.version.toList, stderr := "" }
  | e =>
    { status := 2
      stdout := []
      stderr := "error: " ++ e.message ++ "\n\nFor more information, try '--help'.\n" }

end Scl.CommandLine
