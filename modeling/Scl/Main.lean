import Scl.CommandLine.EnvironmentBlock
import Scl.CommandLine.Report
import Scl.File.Walk

/-!
# The program

The command line on the machine's own disk. The disk starts out unexplored; whenever a file or a directory
is needed of which nothing is known yet, it is looked at and the work is done again with what is known
then.
-/

namespace Scl.Program

open CommandLine

/-- The names of a path from the root on. -/
def placeOf (path : String) : List Text :=
  (Path.pieces path.toList).filter (!·.isEmpty)

/-- What is at a place of the machine's disk. -/
def look (place : List Text) : IO Entry := do
  let path := (← IO.currentDir) / ("/" ++ String.ofList (Text.join ['/'] place))
  try
    if ← path.isDir then
      let entries ← path.readDir
      return .directory (entries.foldr (fun entry all => .unexplored entry.fileName.toList all) .nil)
    else
      return .file (Disk.contentOf (← IO.FS.readBinFile path))
  catch
    | .noFileOrDirectory .. => return .file (.error .noEntry)
    | _ => return .file (.error .denied)

/-- Looks at the unexplored places on the way to a place. -/
def explore (disk : Disk) (place : List Text) : IO Disk := do
  let mut root := disk.root
  for count in [1 : place.length + 1] do
    let here := place.take count
    match root.entryAt? here with
    | some .unexplored => root := root.put (← look here) here
    | _ => pure ()
  return { disk with root }

/-- The results on the disk as far as it has to be known. -/
partial def results (options : Options) (settings : Settings) (disk : Disk) :
    IO (List (Text × Result)) := do
  let found := options.results settings disk.system
  match found.findSome? (·.2.unexplored?) with
  | none => return found
  | some place => results options settings (← explore disk place)

/-- The variables of the environment, without those that are no text. -/
def environment : IO (List (Text × Text)) := do
  let bytes ← try IO.FS.readBinFile "/proc/self/environ" catch _ => pure .empty
  let entries := (bytes.toList.splitOn 0).filterMap fun entry => String.fromUTF8? ⟨entry.toArray⟩
  return EnvironmentBlock.bindings (entries.map String.toList)

def report (arguments : List String) : IO Report := do
  match Options.read (arguments.map String.toList) with
  | .error e => return .ofUsage e
  | .ok options =>
    let settings := options.settings (← environment)
    let workingDirectory := placeOf (← IO.currentDir).toString
    let root ← match ← look [] with
      | .directory entries => pure entries
      | _ => pure .nil
    return .ofResults options.json (← results options settings { root, workingDirectory })

end Scl.Program

def main (arguments : List String) : IO UInt32 := do
  let report ← Scl.Program.report arguments
  IO.print (String.ofList report.stdout)
  IO.eprint report.stderr
  return report.status.toUInt32
