import Scl.File.System

/-!
# Disks

A disk is a tree of directories and files, seen from a working directory. Parts of it may be unexplored;
whoever asks for them is told where they are. A place on the disk is given by the names from the root on.

* `Disk.locate`: the place that a path leads to;
* `Disk.read`: the text of a file.
-/

namespace Scl

/-- The entries of a directory. -/
inductive Listing where
  | nil
  /-- A file, with what reading it gives. -/
  | file (name : Text) (content : Except FileError Text) (next : Listing)
  | directory (name : Text) (entries next : Listing)
  /-- An entry of which only the name is known. -/
  | unexplored (name : Text) (next : Listing)

/-- One entry, without its name. -/
inductive Entry where
  | file (content : Except FileError Text)
  | directory (entries : Listing)
  | unexplored

namespace Listing

def find? (name : Text) : Listing → Option Entry
  | nil => none
  | file other content next => if other = name then some (.file content) else next.find? name
  | directory other entries next => if other = name then some (.directory entries) else next.find? name
  | unexplored other next => if other = name then some .unexplored else next.find? name

def names : Listing → List Text
  | nil => []
  | file name _ next => name :: next.names
  | directory name _ next => name :: next.names
  | unexplored name next => name :: next.names

/-- Puts an entry in front of a listing. -/
def cons (name : Text) : Entry → Listing → Listing
  | .file content, next => file name content next
  | .directory entries, next => directory name entries next
  | .unexplored, next => unexplored name next

/-- Adds an entry, or replaces the one of the same name. -/
def set (name : Text) (entry : Entry) : Listing → Listing
  | nil => cons name entry nil
  | file other content next =>
    if other = name then cons name entry next else file other content (next.set name entry)
  | directory other entries next =>
    if other = name then cons name entry next else directory other entries (next.set name entry)
  | unexplored other next =>
    if other = name then cons name entry next else unexplored other (next.set name entry)

/-- The entry at a place below a directory. Below an unexplored entry everything is unexplored. -/
def entryAt? : List Text → Listing → Option Entry
  | [], entries => some (.directory entries)
  | name :: rest, entries =>
    match entries.find? name with
    | some (.directory inner) => entryAt? rest inner
    | some (.file content) => if rest.isEmpty then some (.file content) else none
    | some .unexplored => some .unexplored
    | none => none

/-- Adds an entry at a place below a directory, with the directories on the way to it. -/
def put (entry : Entry) : List Text → Listing → Listing
  | [], entries => entries
  | [name], entries => entries.set name entry
  | name :: rest, entries =>
    let inner := match entries.find? name with
      | some (.directory inner) => inner
      | _ => nil
    entries.set name (.directory (put entry rest inner))

/-- Adds a directory at a place, unless something is there. -/
def putDirectory (place : List Text) (entries : Listing) : Listing :=
  if (entryAt? place entries).isSome then entries else entries.put (.directory .nil) place

end Listing

structure Disk where
  root : Listing := .nil
  /-- The place that relative paths start from. -/
  workingDirectory : List Text := []

namespace Disk

/-- What reading a file of some bytes gives. -/
def contentOf (bytes : ByteArray) : Except FileError Text :=
  match String.fromUTF8? bytes with
  | some text => .ok text.toList
  | none => .error .notText

def entryAt? (disk : Disk) (place : List Text) : Option Entry :=
  disk.root.entryAt? place

/-- The entries of the directory at a place. -/
def entries (disk : Disk) (place : List Text) : Except FileError Listing :=
  match disk.entryAt? place with
  | some (.directory entries) => .ok entries
  | some (.file _) => .error .notDirectory
  | some .unexplored => .error (.unexplored place)
  | none => .error .noEntry

/-- The most bytes that a name can have. -/
def maxName : Nat := 255

/-- The most bytes that a path can have. -/
def maxPath : Nat := 4095

/-- From a place, which has to be a directory, along one piece of a path. -/
def step (disk : Disk) (place : List Text) (piece : Text) : Except FileError (List Text) := do
  let entries ← disk.entries place
  if piece = [] ∨ piece = ['.'] then return place
  else if piece = ['.', '.'] then return place.dropLast
  else if maxName < Text.byteCount piece then throw .nameTooLong
  else if (entries.find? piece).isSome then return place ++ [piece]
  else throw .noEntry

/-- The place that a path leads to. -/
def locate (disk : Disk) (path : Text) : Except FileError (List Text) :=
  if path.isEmpty then .error .noEntry
  else if maxPath < Text.byteCount path then .error .nameTooLong
  else
    (Path.pieces path).foldlM disk.step (if Path.isAbsolute path then [] else disk.workingDirectory)

def read (disk : Disk) (path : Text) : Except FileError Text := do
  let place ← disk.locate path
  match disk.entryAt? place with
  | some (.file content) => content
  | some (.directory _) => throw .isDirectory
  | some .unexplored => throw (.unexplored place)
  | none => throw .noEntry

/-- What a question about the entry of a path has for an answer: `no` if the path leads nowhere. -/
def ask {α : Type} (disk : Disk) (path : Text) (no : α) (answer : Entry → α) : Except FileError α :=
  match disk.locate path with
  | .error (.unexplored place) => .error (.unexplored place)
  | .error _ => .ok no
  | .ok place =>
    match disk.entryAt? place with
    | some .unexplored => .error (.unexplored place)
    | some entry => .ok (answer entry)
    | none => .ok no

def isFile (disk : Disk) (path : Text) : Except FileError Bool :=
  disk.ask path false fun
    | .file _ => true
    | _ => false

def isDirectory (disk : Disk) (path : Text) : Except FileError Bool :=
  disk.ask path false fun
    | .directory _ => true
    | _ => false

/-- Whether there is anything at a path. -/
def hasEntry (disk : Disk) (path : Text) : Except FileError Bool :=
  match disk.locate path with
  | .error (.unexplored place) => .error (.unexplored place)
  | .error _ => .ok false
  | .ok _ => .ok true

end Disk

end Scl
