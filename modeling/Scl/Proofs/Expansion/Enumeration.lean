import Scl.Proofs.Expansion.Scoping
import Scl.Proofs.File.Order

/-!
# The order in which files are found

A file system may list the files that match a pattern in any order. Imported files share the scope of the
file that imports them, so the order in which they are expanded does matter. It is the order of their paths,
whatever the order of the list was.

* `FileSystem.Reorders`: file systems that differ in the order of their lists only;
* `FileSystem.Reorders.firstMatch_eq`: imports lead to the same files, in the same order;
* `expandFile_reordered`: so every file has the same result.
-/

namespace Scl

open Expansion

/-- Lists of the same paths, of which no two are the same. -/
def Path.Shuffled (paths paths' : List Text) : Prop :=
  paths.Perm paths' ∧ Distinct paths

/-- File systems with the same files. The same patterns fail, with the same errors, and the other ones match
the same paths, listed in any order. -/
structure FileSystem.Reorders (files files' : FileSystem) : Prop where
  read (path : Text) : files.read path = files'.read path
  glob (pattern : Text) : Agree False Path.Shuffled (files.glob pattern) (files'.glob pattern)

namespace FileSystem.Reorders

variable {files files' : FileSystem}

theorem load_eq (h : files.Reorders files') (path : Text) : files.load path = files'.load path := by
  rw [load, load, h.read path]

theorem firstMatch_eq (h : files.Reorders files') (patterns : List Text) :
    files.firstMatch patterns = files'.firstMatch patterns := by
  induction patterns with
  | nil => rfl
  | cons pattern rest ih =>
    have hglob := h.glob pattern
    rw [firstMatch, firstMatch]
    generalize files.glob pattern = first at hglob
    generalize files'.glob pattern = second at hglob
    cases hglob with
    | error e => rfl
    | forgiven hl => exact hl.elim
    | @ok paths paths' hshuffled =>
      obtain ⟨hperm, hdistinct⟩ := hshuffled
      cases paths with
      | nil =>
        obtain rfl := hperm.nil_eq
        exact ih
      | cons path others =>
        cases paths' with
        | nil => cases hperm.eq_nil
        | cons path' others' =>
          exact congrArg Except.ok (Path.sort_eq_of_perm hperm hdistinct)

/-- Imports lead to the same files in the same order. -/
theorem sameFiles (h : files.Reorders files') (env : Environment) :
    SameFiles False Eq { env with files := files } { env with files := files' } := by
  refine ⟨fun path => ?_, fun importer pattern => .inl ?_⟩
  · rw [h.load_eq path]
    exact .refl _
  · exact h.firstMatch_eq (Path.candidates env.includePaths importer pattern)

theorem expandFile_eq (h : files.Reorders files') (env : Environment) (params : List (Text × Text))
    (depth : Nat) (path : Text) :
    { env with files := files }.expandFile params depth path =
      { env with files := files' }.expandFile params depth path :=
  expandFile_eq_of_related (fun _ => rfl) (h.sameFiles env) (follows_expand (h.sameFiles env) depth) params path

end FileSystem.Reorders

/-- The result of a file does not depend on the order in which the file system lists what matches a pattern,
nor on the order in which files of different paths were put into memory. -/
theorem expandFile_reordered (env : Environment) (params : List (Text × Text)) (depth : Nat) (path : Text) :
    (∀ files files' : FileSystem, files.Reorders files' →
      { env with files := files }.expandFile params depth path =
        { env with files := files' }.expandFile params depth path) ∧
    (∀ entries entries' : List (Text × Text), entries.Perm entries' →
      Path.Distinct (entries.map Prod.fst) →
      { env with files := (Files.ofList entries).system }.expandFile params depth path =
        { env with files := (Files.ofList entries').system }.expandFile params depth path) := by
  refine ⟨fun files files' h => h.expandFile_eq env params depth path, fun entries entries' hperm h => ?_⟩
  rw [Files.ofList_eq_of_perm hperm h]

/-- Two files that set the same variable, listed in either order: the last one by its path decides. -/
theorem expandFile_reordered_overwritten :
    let entries : List (Text × Text) :=
      [(['m'], "import \"[ab]\"\n$v".toList), (['b'], "$v = 2".toList), (['a'], "$v = 1".toList)]
    let listing (paths : List Text) : FileSystem :=
      { glob := fun _ => .ok paths, read := (Files.ofList entries).read }
    let backwards : Environment := { files := listing [['b'], ['a']] }
    let forwards : Environment := { files := listing [['a'], ['b']] }
    let memory (entries : List (Text × Text)) : Environment := { files := (Files.ofList entries).system }
    backwards.files.Reorders forwards.files ∧
      backwards.expandFile [] 2 ['m'] = forwards.expandFile [] 2 ['m'] ∧
      forwards.expandFile [] 2 ['m'] =
        some (.ok (.line "v = 1".toList (.line "v = 2".toList (.line ['2'] .nil)))) ∧
      (memory entries).expandFile [] 2 ['m'] = (memory entries.reverse).expandFile [] 2 ['m'] := by
  intro entries listing backwards forwards memory
  have hdistinct : Path.Distinct [['b'], ['a']] := by
    rw [Path.Distinct]
    decide
  have hentries : Path.Distinct (entries.map Prod.fst) := by
    rw [Path.Distinct]
    decide
  have h : backwards.files.Reorders forwards.files :=
    ⟨fun _ => rfl, fun _ => .ok ⟨.swap _ _ _, hdistinct⟩⟩
  refine ⟨h, (expandFile_reordered backwards [] 2 ['m']).1 _ _ h, by decide +kernel, ?_⟩
  exact (expandFile_reordered (memory entries) [] 2 ['m']).2 _ _ entries.reverse_perm.symm hentries

end Scl
