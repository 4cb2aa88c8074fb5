import Scl.File.System
import Scl.Line.Heredoc
import Scl.Statement.Parameter
import Scl.Template

/-!
# Errors

An expansion fails for one cause at one line, or because a file could not be read. The calls and imports
that led there are kept around it, so that a message reads as a trace: `[main.scl:3] [lib.scl:1] …`.
-/

namespace Scl

/-- A name or a call that means nothing where it stands. -/
inductive ResolutionError where
  | unknownMixin (name : Text)
  | undeclaredVariable (name : Text)
  | wrongArity (name : Text) (required got : Nat)
  | unknownArgument (mixin argument : Text)
  | missingArgument (mixin argument : Text)
  | callWithBody (name : Text)
  | boundTwice (mixin argument : Text)
  deriving DecidableEq, Repr

def ResolutionError.message : ResolutionError → String
  | unknownMixin name => "Mixin " ++ String.ofList name ++ " not declared in this scope"
  | undeclaredVariable name =>
    "Variable $" ++ String.ofList name ++ " is not declared in this scope"
  | wrongArity name required got =>
    "Wrong number of arguments for " ++ String.ofList name ++ " (required " ++ toString required ++
      ", got " ++ toString got ++ ")"
  | unknownArgument mixin argument =>
    "Unknown argument $" ++ String.ofList argument ++ " for mixin " ++ String.ofList mixin
  | missingArgument mixin argument =>
    "Missing argument $" ++ String.ofList argument ++ " for mixin " ++ String.ofList mixin
  | callWithBody name => "Mixin call " ++ String.ofList name ++ " can't have a body"
  | boundTwice mixin argument =>
    "Argument $" ++ String.ofList argument ++ " for mixin " ++ String.ofList mixin ++ " bound twice"

/-- What is wrong with a line. -/
inductive Cause where
  | token (error : TokenError)
  | template (fault : Template.Fault)
  | declaration (error : DeclarationError)
  | resolution (error : ResolutionError)
  | noFilesFound (pattern : Text)
  /-- Lines below an assignment to a variable. -/
  | assignmentBody (name : Text)
  /-- Lines below an import. -/
  | importBody
  deriving DecidableEq, Repr

def Cause.message : Cause → String
  | token error => error.message
  | template fault => fault.message
  | declaration error => error.message
  | resolution error => error.message
  | noFilesFound pattern => "Can't read " ++ String.ofList pattern ++ ": no files found"
  | assignmentBody name => "Assignment to $" ++ String.ofList name ++ " can't have a body"
  | importBody => "Import can't have a body"

inductive Error where
  /-- A file that cannot be read as lines. -/
  | scan (file : Text) (error : ScanError)
  /-- A file or pattern that the file system refuses. -/
  | file (path : Text) (error : FileError)
  | located (location : Location) (cause : Cause)
  /-- An error on the way from the call or import at `location`. -/
  | nested (location : Location) (error : Error)
  deriving DecidableEq, Repr

namespace Error

/-- The location as a mark in front of a message. -/
def mark (location : Location) : String :=
  "[" ++ String.ofList location.toText ++ "] "

def message : Error → String
  | scan path error => "Can't scan " ++ String.ofList path ++ ": " ++ error.message
  | file path error => "Can't read " ++ String.ofList path ++ ": " ++ error.message
  | located location cause => mark location ++ cause.message
  | nested location error => mark location ++ error.message

/-- The error without the calls and imports around it. -/
def root : Error → Error
  | nested _ error => error.root
  | error => error

/-- The locations from the outermost call or import to the line at fault. -/
def trace : Error → List Location
  | scan .. => []
  | file .. => []
  | located location _ => [location]
  | nested location error => location :: error.trace

end Error

end Scl
