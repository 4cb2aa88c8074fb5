import Scl.Proofs.Expansion.Rewriting

/-!
# Imports are inclusions

A file in memory that imports another one next to it expands as it does with the text of the other file in
place of the import:

* `Files.sameListing_insert`: a file that is written anew is found as before;
* `Files.imports_name`: a file next to the importing one is imported by its name;
* `expandFile_import_iff`: with and without the import the output is the same.

How paths are matched matters only for the name in the import, which has to stand for itself (`Matcher.Literal`).
-/

namespace Scl

namespace Files

variable {matcher : Matcher} {files : Files} {path : Text}

/-- Environments that differ in the content of one file, which has imports written out in one of them. -/
theorem sameListing_insert (h : files.Sorted) (hpath : path ∈ files.map Prod.fst) (env : Environment)
    (content : Text) {forest forest' : Forest Line} (hload : (files.systemWith matcher).load path = .ok forest)
    (hload' : ((files.insert path content).systemWith matcher).load path = .ok forest')
    (hincluded : Included { env with files := files.systemWith matcher }
      { env with files := (files.insert path content).systemWith matcher } forest forest') :
    SameListing { env with files := files.systemWith matcher }
      { env with files := (files.insert path content).systemWith matcher } := by
  refine ⟨rfl, rfl, (matching_insert h hpath content).symm, fun other hlists => ?_⟩
  obtain ⟨pattern, paths, hglob, hother⟩ := hlists
  by_cases heq : other = path
  · subst heq
    exact .inr ⟨forest, forest', hload, hload', hincluded⟩
  · refine .inl ?_
    have hkey : Path.key path ≠ Path.key other := fun hkey =>
      heq (h.path_eq hpath (mem_paths_of_mem_matching hglob other hother) hkey).symm
    have hread : ((files.insert path content).systemWith matcher).read other =
        (files.systemWith matcher).read other :=
      (read_insert path content files other).trans (if_neg hkey)
    rw [FileSystem.load, FileSystem.load, hread]

/-- The file of a name without wildcards is the one that an import finds next to the importing file. -/
theorem firstMatch_literal (hliteral : matcher.Literal) (h : files.Sorted) (hpath : path ∈ files.map Prod.fst)
    (hany : '?' ∉ path) (hstar : '*' ∉ path) (hset : '[' ∉ path) (includePaths : List Text) {importer : Text}
    (himporter : Path.parent importer = []) :
    (files.systemWith matcher).firstMatch (Path.candidates includePaths importer path) = .ok [path] := by
  have hcandidates : ∃ others, Path.candidates includePaths importer path = path :: others := by
    rw [Path.candidates, himporter]
    by_cases habsolute : Path.isAbsolute path
    · exact ⟨[], by rw [if_pos habsolute]⟩
    · refine ⟨includePaths.map (Path.join · path), ?_⟩
      rw [if_neg habsolute, List.map_cons, Path.join, if_neg habsolute]
      rfl
  obtain ⟨others, hcandidates⟩ := hcandidates
  have hglob : (files.systemWith matcher).glob path = .ok [path] :=
    matching_literal hliteral h hpath hany hstar hset
  rw [hcandidates, FileSystem.firstMatch, hglob]
  rfl

/-- Next to a file that is in no directory stands the file that it imports by its name. -/
theorem imports_name (hliteral : matcher.Literal) (h : files.Sorted) {content : Text}
    (hfile : ("f.scl".toList, content) ∈ files) {forest : Forest Line}
    (hscan : Line.scan "f.scl".toList content = .ok forest) (env : Environment) (location : Location)
    (hlocation : Path.parent location.file = []) :
    { env with files := files.systemWith matcher }.Imports ⟨location, 0, "import \"f.scl\"".toList⟩ forest := by
  have hpath : "f.scl".toList ∈ files.map Prod.fst := List.mem_map_of_mem hfile
  refine ⟨[⟨.literal, "\"f.scl\"".toList, location⟩], "f.scl".toList, "f.scl".toList, rfl, fun _ _ => rfl, ?_,
    ?_⟩
  · exact firstMatch_literal hliteral h hpath (by decide +kernel) (by decide +kernel) (by decide +kernel)
      env.includePaths hlocation
  · exact Expansion.load_of_scan (read_of_mem h hfile) hscan

end Files

/-- A file imports another one next to it, or it has the text of the other file in place of the import: it
expands to the same output, or to none, whatever files there are besides and whatever their paths match. -/
theorem expandFile_import_iff {matcher : Matcher} (hliteral : matcher.Literal) {entries : List (Text × Text)}
    {before inner after : Text}
    (hmain : ("main.scl".toList, before ++ "import \"f.scl\"\n".toList ++ after) ∈ Files.ofList entries)
    (hfile : ("f.scl".toList, inner) ∈ Files.ofList entries)
    (hbefore : before = [] ∨ before.getLast? = some '\n') (hinner : inner = [] ∨ inner.getLast? = some '\n')
    {forest forest' : Forest Line} (hscan' : Line.scan "f.scl".toList inner = .ok forest')
    (hhead' : ∀ line ∈ forest'.preorder.head?, line.column = 0)
    (hscan : Line.scan "main.scl".toList (before ++ "import \"f.scl\"\n".toList ++ after) = .ok forest)
    (hleaf : forest.Has
      ⟨⟨"main.scl".toList, 1 + (Text.lines before).length⟩, 0, "import \"f.scl\"".toList⟩ .nil)
    (env : Environment) (params : List (Text × Text)) (output : Output) :
    (∃ depth, { env with files := (Files.ofList entries).systemWith matcher }.expandFile params depth
        "main.scl".toList = some (.ok output)) ↔
      ∃ depth, { env with
        files := ((Files.ofList entries).insert "main.scl".toList (before ++ inner ++ after)).systemWith
          matcher }.expandFile params depth "main.scl".toList = some (.ok output) := by
  have hsorted := Files.sorted_ofList entries
  generalize Files.ofList entries = files at *
  have htext : before ++ "import \"f.scl\"\n".toList ++ after =
      before ++ "import \"f.scl\"".toList ++ '\n' :: after := by
    rw [show "import \"f.scl\"\n".toList = "import \"f.scl\"".toList ++ ['\n'] by decide +kernel]
    simp only [List.append_assoc, List.singleton_append]
  rw [htext] at hmain hscan
  obtain ⟨first, last, copy, last', rfl, hsplice, hcopy, hlast⟩ := Line.scan_splice hbefore (by decide +kernel)
    (by decide +kernel) rfl rfl rfl hscan hleaf hinner hscan' hhead'
  have hload : (files.systemWith matcher).load "main.scl".toList = .ok _ :=
    Expansion.load_of_scan (Files.read_of_mem hsorted hmain) hscan
  have hload' : ((files.insert "main.scl".toList (before ++ inner ++ after)).systemWith matcher).load
      "main.scl".toList = .ok _ :=
    Expansion.load_of_scan ((Files.read_insert _ _ files _).trans (if_pos rfl)) hsplice
  have himports := Files.imports_name hliteral hsorted hfile hscan' env
    ⟨"main.scl".toList, 1 + (Text.lines before).length⟩ rfl
  have hdirectory : Path.parent "f.scl".toList = Path.parent "main.scl".toList := rfl
  have hincluded : Included { env with files := files.systemWith matcher }
      { env with files := (files.insert "main.scl".toList (before ++ inner ++ after)).systemWith matcher }
      (first ++ .cons _ .nil last) (first ++ (copy ++ last')) :=
    .append (.refl _ _ first)
      (.written himports ((hcopy.moved hdirectory).included _ _) ((hlast.moved rfl).included _ _))
  have hsame := Files.sameListing_insert hsorted (List.mem_map_of_mem hmain) env _ hload hload' hincluded
  exact expandFile_iff_of_included hsame hload hload' hincluded params output

/-- A variable that the imported file reads, and a mixin that the importing file calls. -/
theorem expandFile_import_iff_shared :
    let main := "main.scl".toList
    let before := "$x = 1\n".toList
    let inner := "@m():\n  a = $x\n".toList
    let after := "m()\n".toList
    let files := Files.ofList
      [("f.scl".toList, inner), (main, before ++ "import \"f.scl\"\n".toList ++ after), (['g'], ['$'])]
    let env : Environment := { files := files.system, includePaths := [['d']] }
    let output : Output := .line "x = 1".toList (.line "a = 1".toList .nil)
    env.expandFile [] 2 main = some (.ok output) ∧
      ∃ depth, { env with files := (files.insert main (before ++ inner ++ after)).system }.expandFile []
        depth main = some (.ok output) := by
  intro main before inner after files env output
  have h : env.expandFile [] 2 main = some (.ok output) := by decide +kernel
  have hscan' : Line.scan "f.scl".toList inner = .ok (.cons ⟨⟨"f.scl".toList, 1⟩, 0, "@m():".toList⟩
      (.cons ⟨⟨"f.scl".toList, 2⟩, 2, "a = $x".toList⟩ .nil .nil) .nil) := by decide +kernel
  have hscan : Line.scan main (before ++ "import \"f.scl\"\n".toList ++ after) =
      .ok (.cons ⟨⟨main, 1⟩, 0, "$x = 1".toList⟩ .nil (.cons ⟨⟨main, 2⟩, 0, "import \"f.scl\"".toList⟩ .nil
        (.cons ⟨⟨main, 3⟩, 0, "m()".toList⟩ .nil .nil))) := by decide +kernel
  refine ⟨h, ?_⟩
  exact (expandFile_import_iff Pattern.literal_matcher (by decide +kernel) (by decide +kernel) (by decide +kernel)
    (by decide +kernel) hscan' (by decide +kernel) hscan (.later .here) env [] output).mp ⟨2, h⟩

end Scl
