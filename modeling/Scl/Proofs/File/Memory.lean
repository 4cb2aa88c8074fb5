import Mathlib.Data.List.Lex
import Mathlib.Data.List.Nodup
import Scl.File.System

/-!
# Files in memory

Files held in memory are in the order of their paths, each path once, however they were put together:

* `Files.sorted_ofList`: so they are in order;
* `Files.read_insert`: a file reads as it was written last;
* `Files.paths_insert`: writing to a file that is there changes no paths;
* `Files.matching_literal`: a pattern without wildcards finds the file of that path, if it accepts no other path.
-/

namespace Scl

namespace Path

theorem keyLt_iff (key other : List Nat) : keyLt key other ↔ key < other := by
  induction key generalizing other with
  | nil => cases other <;> simp [keyLt]
  | cons m ms ih => cases other <;> simp [keyLt, List.cons_lt_cons_iff, ih]

end Path

namespace Pattern

theorem parse_literal {text : Text} (hany : '?' ∉ text) (hstar : '*' ∉ text) (hset : '[' ∉ text) :
    parse text = .ok (text.map .char) := by
  have hfrom : ∀ position previous?, parseFrom position previous? 0 text = .ok (text.map .char) := by
    induction text with
    | nil => exact fun _ _ => rfl
    | cons c rest ih =>
      intro position previous?
      rw [List.mem_cons, not_or] at hany hstar hset
      have hfirst : first position previous? c rest = .ok (.char c, 0) := by
        simp [first, Ne.symm hany.1, Ne.symm hstar.1, Ne.symm hset.1]
      rw [parseFrom, hfirst]
      simp only [ih hany.2 hstar.2 hset.2]
      rfl
  exact hfrom 0 none

theorem accepts_literal (text other : Text) : accepts (text.map .char) other = (other == text) := by
  induction text generalizing other with
  | nil => cases other <;> rfl
  | cons c rest ih =>
    rw [List.map_cons, accepts_single rfl]
    cases other with
    | nil => rfl
    | cons d after =>
      simp only [ih]
      rfl

end Pattern

/-- A pattern without wildcards accepts itself only. -/
def Matcher.Literal (matcher : Matcher) : Prop :=
  ∀ text, '?' ∉ text → '*' ∉ text → '[' ∉ text →
    ∃ accepts, matcher text = .ok accepts ∧ ∀ path, accepts path ↔ path = text

theorem Pattern.literal_matcher : Pattern.matcher.Literal := by
  intro text hany hstar hset
  refine ⟨accepts (text.map .char), by rw [matcher, parse_literal hany hstar hset]; rfl, fun path => ?_⟩
  rw [accepts_literal, beq_iff_eq]

namespace Files

/-- Files in the order of their paths, where no two files have the same path. -/
def Sorted (files : Files) : Prop :=
  files.Pairwise fun file other => Path.key file.1 < Path.key other.1

variable {files : Files} {path content : Text}

theorem mem_paths_insert {file : Text × Text} (h : file ∈ insert path content files) :
    file.1 = path ∨ file.1 ∈ files.map Prod.fst := by
  induction files with
  | nil => exact .inl (by rw [List.mem_singleton.mp h])
  | cons first rest ih =>
    obtain ⟨other, old⟩ := first
    rw [insert] at h
    split at h
    · refine .inr ?_
      rcases List.mem_cons.mp h with rfl | h
      · exact List.mem_cons_self
      · exact List.mem_cons_of_mem _ (List.mem_map_of_mem h)
    · split at h
      · rcases List.mem_cons.mp h with rfl | h
        · exact .inl rfl
        · exact .inr (List.mem_map_of_mem h)
      · rcases List.mem_cons.mp h with rfl | h
        · exact .inr List.mem_cons_self
        · exact (ih h).imp_right (List.mem_cons_of_mem _)

theorem Sorted.insert (h : Sorted files) (path content : Text) : Sorted (insert path content files) := by
  induction files with
  | nil => exact List.pairwise_singleton _ _
  | cons first rest ih =>
    obtain ⟨other, old⟩ := first
    obtain ⟨hfirst, hrest⟩ := List.pairwise_cons.mp h
    rw [Files.insert]
    split
    · exact .cons hfirst hrest
    · rename_i hne
      split
      · rename_i hlt
        rw [Path.keyLt_iff] at hlt
        refine .cons (fun file hfile => ?_) h
        rcases List.mem_cons.mp hfile with rfl | hfile
        · exact hlt
        · exact lt_trans hlt (hfirst file hfile)
      · rename_i hnlt
        rw [Path.keyLt_iff] at hnlt
        have hlt : Path.key other < Path.key path := lt_of_le_of_ne (not_lt.mp hnlt) (Ne.symm hne)
        refine .cons (fun file hfile => ?_) (ih hrest)
        rcases mem_paths_insert hfile with heq | hmem
        · rw [heq]
          exact hlt
        · obtain ⟨found, hfound, heq⟩ := List.mem_map.mp hmem
          rw [← heq]
          exact hfirst found hfound

theorem sorted_ofList (entries : List (Text × Text)) : Sorted (ofList entries) := by
  have hfold : ∀ files : Files, Sorted files →
      Sorted (entries.foldl (fun all entry => all.insert entry.1 entry.2) files) := by
    induction entries with
    | nil => exact fun _ h => h
    | cons entry rest ih => exact fun files h => ih _ (h.insert entry.1 entry.2)
  exact hfold [] .nil

/-! ## Reading -/

theorem read_cons (other old : Text) (rest : Files) (sought : Text) :
    read ((other, old) :: rest) sought =
      if Path.key other = Path.key sought then .ok old else read rest sought := by
  rw [read, List.find?_cons]
  by_cases h : Path.key other = Path.key sought
  · simp only [h, decide_true, if_true]
  · simp only [h, decide_false, if_false]
    rfl

/-- A file reads as it was written last. -/
theorem read_insert (path content : Text) (files : Files) (sought : Text) :
    read (insert path content files) sought =
      if Path.key path = Path.key sought then .ok content else read files sought := by
  induction files with
  | nil => exact read_cons path content [] sought
  | cons first rest ih =>
    obtain ⟨other, old⟩ := first
    rw [insert]
    split
    · rename_i heq
      rw [read_cons, read_cons, heq]
      split <;> rfl
    · split
      · exact read_cons path content _ sought
      · rename_i hne _
        rw [read_cons, read_cons, ih]
        by_cases hpath : Path.key path = Path.key sought
        · have hother : Path.key other ≠ Path.key sought := fun h => hne (hpath.trans h.symm)
          rw [if_neg hother, if_pos hpath, if_pos hpath]
        · rw [if_neg hpath, if_neg hpath]

theorem read_of_mem (h : Sorted files) (hmem : (path, content) ∈ files) : read files path = .ok content := by
  induction h with
  | nil => cases hmem
  | @cons first rest hfirst _ ih =>
    rw [read_cons]
    rcases List.mem_cons.mp hmem with heq | hmem
    · rw [← heq, if_pos rfl]
    · rw [if_neg (ne_of_lt (hfirst _ hmem)), ih hmem]

/-! ## Paths -/

/-- Files of the same path are one file. -/
theorem Sorted.path_eq (h : Sorted files) {other : Text} (hpath : path ∈ files.map Prod.fst)
    (hother : other ∈ files.map Prod.fst) (heq : Path.key path = Path.key other) : path = other := by
  induction h with
  | nil => cases hpath
  | @cons first rest hfirst _ ih =>
    have hne : ∀ text ∈ rest.map Prod.fst, Path.key first.1 ≠ Path.key text := fun text htext => by
      obtain ⟨file, hfile, rfl⟩ := List.mem_map.mp htext
      exact ne_of_lt (hfirst file hfile)
    rw [List.map_cons, List.mem_cons] at hpath hother
    rcases hpath with rfl | hpath <;> rcases hother with rfl | hother
    · rfl
    · exact absurd heq (hne other hother)
    · exact absurd heq.symm (hne path hpath)
    · exact ih hpath hother

theorem Sorted.nodup (h : Sorted files) : (files.map Prod.fst).Nodup :=
  List.pairwise_map.mpr (h.imp fun hlt heq => ne_of_lt hlt (congrArg Path.key heq))

/-- Writing to a file that is there changes no paths. -/
theorem paths_insert (h : Sorted files) (hpath : path ∈ files.map Prod.fst) (content : Text) :
    (insert path content files).map Prod.fst = files.map Prod.fst := by
  induction h with
  | nil => cases hpath
  | @cons first rest hfirst _ ih =>
    obtain ⟨other, old⟩ := first
    rw [Files.insert]
    split
    · rfl
    · rename_i hne
      have hrest : path ∈ rest.map Prod.fst := by
        rcases List.mem_cons.mp hpath with rfl | hrest
        · exact absurd rfl hne
        · exact hrest
      obtain ⟨file, hfile, rfl⟩ := List.mem_map.mp hrest
      have hnlt : ¬Path.keyLt (Path.key file.1) (Path.key other) := by
        rw [Path.keyLt_iff]
        exact lt_asymm (hfirst file hfile)
      rw [if_neg hnlt]
      exact congrArg (other :: ·) (ih hrest)

variable {matcher : Matcher}

theorem mem_paths_of_mem_matching {pattern : Text} {paths : List Text}
    (h : files.matching matcher pattern = .ok paths) : ∀ path ∈ paths, path ∈ files.map Prod.fst := by
  rw [matching] at h
  split at h
  · cases h
  · cases h
    exact fun path hpath => (List.mem_filter.mp hpath).1

theorem matching_insert (h : Sorted files) (hpath : path ∈ files.map Prod.fst) (content : Text) :
    (insert path content files).matching matcher = files.matching matcher := by
  funext pattern
  rw [matching, matching, paths_insert h hpath]

/-- A pattern without wildcards finds the file of that path. -/
theorem matching_literal (hliteral : matcher.Literal) (h : Sorted files) (hpath : path ∈ files.map Prod.fst)
    (hany : '?' ∉ path) (hstar : '*' ∉ path) (hset : '[' ∉ path) : files.matching matcher path = .ok [path] := by
  have hcount : (files.map Prod.fst).count path = 1 := List.count_eq_one_of_mem h.nodup hpath
  obtain ⟨accepts, hmatcher, haccepts⟩ := hliteral path hany hstar hset
  have hfilter : (files.map Prod.fst).filter accepts = (files.map Prod.fst).filter (· == path) :=
    List.filter_congr fun other _ => Bool.eq_iff_iff.mpr ((haccepts other).trans beq_iff_eq.symm)
  rw [matching, hmatcher]
  simp only [hfilter, List.filter_beq, hcount, List.replicate_one]

end Files

end Scl
