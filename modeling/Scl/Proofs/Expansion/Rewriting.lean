import Scl.Proofs.Expansion.Inclusion
import Scl.Proofs.Expansion.Scoping
import Scl.Proofs.File.Memory
import Scl.Proofs.Line.Splice

/-!
# Files that are written anew

Some files have another source text, everything else is the same:

* `expandFile_iff_of_load`: files that import or include the same expand to the same output;
* `FileSystem.Rewritten`: file systems that differ in one source text;
* `FileSystem.Rewritten.sameFiles`, `FileSystem.Rewritten.exists_between`: expansions in step, and one step after the
  other.
-/

namespace Scl

open Expansion

/-- Copies of lines in a file of the same directory. -/
theorem Forest.Rel.moved {file file' : Text} (hdirectory : Path.parent file = Path.parent file')
    {forest forest' : Forest Line} (h : forest.Rel (Line.Copy file file') forest') :
    forest.Rel Line.Moved forest' := by
  induction h with
  | nil => exact .nil
  | cons hline _ _ ihBelow ihNext =>
    refine .cons ⟨hline.same.content, ?_⟩ ihBelow ihNext
    rw [hline.source, hline.target, hdirectory]

/-- Environments in which every file imports or includes the same expand every file to the same output. -/
theorem expandFile_iff_of_load {env env' : Environment} (hpaths : env.includePaths = env'.includePaths)
    (hinheritance : env.inheritance = env'.inheritance) (hglob : env.files.glob = env'.files.glob)
    (hload : ∀ path, env.files.load path = env'.files.load path ∨
      ∃ forest forest', env.files.load path = .ok forest ∧ env'.files.load path = .ok forest' ∧
        Included env env' forest forest') (params : List (Text × Text)) (path : Text) (output : Output) :
    (∃ depth, env.expandFile params depth path = some (.ok output)) ↔
      ∃ depth, env'.expandFile params depth path = some (.ok output) := by
  have hsame : SameListing env env' := ⟨hpaths, hinheritance, hglob, fun other _ => hload other⟩
  rcases hload path with heq | ⟨forest, forest', hforest, hforest', hincluded⟩
  · cases hforest : env.files.load path with
    | ok forest =>
      exact expandFile_iff_of_included hsame hforest (heq ▸ hforest) (.refl env env' forest) params output
    | error e =>
      have hforest' : env'.files.load path = .error e := heq ▸ hforest
      simp only [Environment.expandFile, hforest, hforest']
  · exact expandFile_iff_of_included hsame hforest hforest' hincluded params output

/-- File systems that differ in files which have one source text in the first and another one in the second. -/
structure FileSystem.Rewritten (source source' : Text) (files files' : FileSystem) : Prop where
  glob : files.glob = files'.glob
  read (path : Text) : files.read path = files'.read path ∨
    files.read path = .ok source ∧ files'.read path = .ok source'

theorem FileSystem.Rewritten.sameFiles {source source' : Text} {files files' : FileSystem}
    (h : Rewritten source source' files files') {alike : Forest Line → Forest Line → Prop}
    (hrefl : ∀ forest, alike forest forest)
    (hscan : ∀ file, Agree False alike (Line.scan file source) (Line.scan file source')) (env : Environment) :
    SameFiles False alike { env with files } { env with files := files' } := by
  constructor
  · intro path
    show Agree False alike (files.load path) (files'.load path)
    rcases h.read path with heq | ⟨hread, hread'⟩
    · rw [load, heq, ← load]
      cases files'.load path with
      | error e => exact .error e
      | ok forest => exact .ok (hrefl forest)
    · rw [load, load, hread, hread']
      have hscan := hscan path
      dsimp only
      generalize Line.scan path source = first at hscan
      generalize Line.scan path source' = second at hscan
      cases hscan with
      | ok hforest => exact .ok hforest
      | error e => exact .error _
      | forgiven hl => exact hl.elim
  · intro importer pattern
    exact .inl (firstMatch_congr h.glob _)

theorem FileSystem.Rewritten.symm {source source' : Text} {files files' : FileSystem}
    (h : Rewritten source source' files files') : Rewritten source' source files' files :=
  ⟨h.glob.symm, fun path => (h.read path).imp Eq.symm And.symm⟩

/-- A source text can be rewritten in two steps. -/
theorem FileSystem.Rewritten.exists_between {source source' : Text} {files files' : FileSystem}
    (h : Rewritten source source' files files') (middle : Text) :
    ∃ between, Rewritten source middle files between ∧ Rewritten middle source' between files' := by
  classical
  let changed path := files.read path = .ok source ∧ files'.read path = .ok source'
  let between : FileSystem := ⟨files.glob, fun path => if changed path then .ok middle else files.read path⟩
  refine ⟨between, ⟨rfl, fun path => ?_⟩, ⟨h.glob, fun path => ?_⟩⟩
  · by_cases hchanged : changed path
    · exact .inr ⟨hchanged.1, if_pos hchanged⟩
    · exact .inl (if_neg hchanged).symm
  · by_cases hchanged : changed path
    · exact .inr ⟨if_pos hchanged, hchanged.2⟩
    · exact .inl ((if_neg hchanged).trans ((h.read path).resolve_right hchanged))

/-- A file in memory that is written anew. -/
theorem Files.rewritten_insert {files : Files} (h : files.Sorted) {path source : Text} (hfile : (path, source) ∈ files)
    (source' : Text) : FileSystem.Rewritten source source' files.system (files.insert path source').system := by
  refine ⟨(matching_insert h (List.mem_map_of_mem hfile) source').symm, fun other => ?_⟩
  show files.read other = (files.insert path source').read other ∨
    files.read other = .ok source ∧ (files.insert path source').read other = .ok source'
  rw [read_insert]
  split
  · rename_i hkey
    have hread : files.read other = files.read path := by rw [read, read, hkey]
    exact .inr ⟨hread.trans (read_of_mem h hfile), rfl⟩
  · exact .inl rfl

end Scl
