import Mathlib.Data.List.Lex
import Mathlib.Data.List.Perm.Basic
import Scl.Proofs.File.Memory

/-!
# The order of paths

The key of a path stands for its components, so that sorting by keys is sorting by components. Paths of
which no two are the same can be put in order in one way only, whatever order they come in.

* `Path.key_eq_iff`: paths with equal keys are those with equal components;
* `Path.sort_eq_of_perm`: a list of different paths, sorted, does not depend on the order of the list;
* `Files.ofList_eq_of_perm`: files of different paths may be put into memory in any order.
-/

namespace Scl

namespace Path

/-! ## Keys -/

theorem Component.key_eq_append (component : Component) :
    ∃ code, component.key = code ++ [0] ∧ 0 ∉ code := by
  cases component with
  | root => exact ⟨[1], rfl, by decide⟩
  | current => exact ⟨[2], rfl, by decide⟩
  | parent => exact ⟨[3], rfl, by decide⟩
  | name text => exact ⟨text.map (·.toNat + 4), rfl, by simp⟩

theorem Component.key_injective : Function.Injective Component.key := by
  have hname : ∀ (text : Text) (n : Nat), n < 4 → text.map (·.toNat + 4) ++ [0] ≠ [n, 0] := by
    intro text n hn h
    cases text with
    | nil => cases h
    | cons c rest =>
      have hc : c.toNat + 4 = n := (List.cons.inj h).1
      omega
  intro component other h
  cases component <;> cases other
  case name.name text text' =>
    have hmap : text.map (·.toNat + 4) = text'.map (·.toNat + 4) := List.append_cancel_right h
    have hcode : Function.Injective fun c : Char => c.toNat + 4 := fun c d hcd =>
      Char.toNat_inj.mp (Nat.add_right_cancel hcd)
    rw [List.map_injective_iff.mpr hcode hmap]
  case name.root text => exact absurd h (hname text 1 (by omega))
  case name.current text => exact absurd h (hname text 2 (by omega))
  case name.parent text => exact absurd h (hname text 3 (by omega))
  case root.name text => exact absurd h.symm (hname text 1 (by omega))
  case current.name text => exact absurd h.symm (hname text 2 (by omega))
  case parent.name text => exact absurd h.symm (hname text 3 (by omega))
  all_goals
    revert h
    decide

/-- The first zero tells where the first of two keys ends. -/
theorem append_zero_inj {code other rest rest' : List Nat} (hcode : 0 ∉ code) (hother : 0 ∉ other)
    (h : code ++ 0 :: rest = other ++ 0 :: rest') : code = other ∧ rest = rest' := by
  induction code generalizing other with
  | nil =>
    cases other with
    | nil => exact ⟨rfl, (List.cons.inj h).2⟩
    | cons n others =>
      obtain rfl : 0 = n := (List.cons.inj h).1
      exact absurd List.mem_cons_self hother
  | cons m codes ih =>
    cases other with
    | nil =>
      obtain rfl : m = 0 := (List.cons.inj h).1
      exact absurd List.mem_cons_self hcode
    | cons n others =>
      obtain ⟨rfl, htail⟩ := List.cons.inj h
      rw [List.mem_cons, not_or] at hcode hother
      obtain ⟨rfl, hrest⟩ := ih hcode.2 hother.2 htail
      exact ⟨rfl, hrest⟩

theorem Component.key_append_inj {component other : Component} {rest rest' : List Nat}
    (h : component.key ++ rest = other.key ++ rest') : component = other ∧ rest = rest' := by
  obtain ⟨code, hcode, hzero⟩ := component.key_eq_append
  obtain ⟨code', hcode', hzero'⟩ := other.key_eq_append
  have hsplit : code ++ 0 :: rest = code' ++ 0 :: rest' := by
    rw [hcode, hcode'] at h
    simpa only [List.append_assoc, List.singleton_append] using h
  obtain ⟨rfl, hrest⟩ := append_zero_inj hzero hzero' hsplit
  exact ⟨key_injective (hcode.trans hcode'.symm), hrest⟩

theorem Component.flatMap_key_injective : Function.Injective (List.flatMap Component.key) := by
  have hne : ∀ (component : Component) (rest : List Component),
      (component :: rest).flatMap key ≠ [] := fun component rest h => by
    obtain ⟨code, hcode, -⟩ := component.key_eq_append
    rw [List.flatMap_cons, hcode] at h
    simp at h
  intro components
  induction components with
  | nil =>
    intro others h
    cases others with
    | nil => rfl
    | cons other others => exact absurd h.symm (hne other others)
  | cons component rest ih =>
    intro others h
    cases others with
    | nil => exact absurd h (hne component rest)
    | cons other others =>
      obtain ⟨rfl, hrest⟩ := key_append_inj h
      rw [ih hrest]

/-- Keys are equal for spellings of the same path only. -/
theorem key_eq_iff {path other : Text} : key path = key other ↔ components path = components other :=
  Component.flatMap_key_injective.eq_iff

/-! ## Sorting -/

theorem insert_perm (path : Text) (paths : List Text) : (insert path paths).Perm (path :: paths) := by
  induction paths with
  | nil => exact .refl _
  | cons other rest ih =>
    rw [insert]
    split
    · exact (ih.cons other).trans (.swap path other rest)
    · exact .refl _

theorem sort_perm (paths : List Text) : (sort paths).Perm paths := by
  induction paths with
  | nil => exact .refl _
  | cons path rest ih => exact (insert_perm path (sort rest)).trans (ih.cons path)

theorem pairwise_insert {path : Text} {paths : List Text}
    (h : paths.Pairwise fun path other => key path ≤ key other) :
    (insert path paths).Pairwise fun path other => key path ≤ key other := by
  induction h with
  | nil => exact List.pairwise_singleton _ _
  | @cons other rest hother hrest ih =>
    rw [insert]
    split
    · rename_i hlt
      rw [keyLt_iff] at hlt
      refine .cons (fun found hfound => ?_) ih
      rcases List.mem_cons.mp ((insert_perm path rest).mem_iff.mp hfound) with rfl | hfound
      · exact le_of_lt hlt
      · exact hother found hfound
    · rename_i hnlt
      rw [keyLt_iff, not_lt] at hnlt
      refine .cons (fun found hfound => ?_) (.cons hother hrest)
      rcases List.mem_cons.mp hfound with rfl | hfound
      · exact hnlt
      · exact le_trans hnlt (hother found hfound)

theorem pairwise_sort (paths : List Text) :
    (sort paths).Pairwise fun path other => key path ≤ key other := by
  induction paths with
  | nil => exact .nil
  | cons path rest ih => exact pairwise_insert ih

/-- No two of the paths are the same, however they are spelled. -/
def Distinct (paths : List Text) : Prop :=
  paths.Pairwise fun path other => components path ≠ components other

theorem Distinct.perm {paths paths' : List Text} (h : Distinct paths) (hperm : paths.Perm paths') :
    Distinct paths' :=
  List.Pairwise.perm h hperm fun hne => hne.symm

theorem Distinct.pairwise_sort {paths : List Text} (h : Distinct paths) :
    (sort paths).Pairwise fun path other => key path < key other := by
  have hdistinct : Distinct (sort paths) := h.perm (sort_perm paths).symm
  refine ((Path.pairwise_sort paths).and hdistinct).imp fun ⟨hle, hne⟩ => ?_
  exact lt_of_le_of_ne hle (mt key_eq_iff.mp hne)

/-- Different paths have one sorted list, whatever order they come in. -/
theorem sort_eq_of_perm {paths paths' : List Text} (hperm : paths.Perm paths') (h : Distinct paths) :
    sort paths = sort paths' := by
  have hsorted : (sort paths).Perm (sort paths') :=
    (sort_perm paths).trans (hperm.trans (sort_perm paths').symm)
  exact hsorted.eq_of_pairwise (fun _ _ _ _ hlt hgt => absurd hgt (lt_asymm hlt)) h.pairwise_sort
    (h.perm hperm).pairwise_sort

end Path

/-! ## Files in memory -/

namespace Files

theorem insert_perm {path : Text} {files : Files} (content : Text)
    (h : ∀ file ∈ files, Path.components path ≠ Path.components file.1) :
    (insert path content files).Perm ((path, content) :: files) := by
  induction files with
  | nil => exact .refl _
  | cons first rest ih =>
    obtain ⟨other, old⟩ := first
    rw [insert, if_neg (mt Path.key_eq_iff.mp (h (other, old) List.mem_cons_self))]
    split
    · exact .refl _
    · have hrest := ih fun file hfile => h file (List.mem_cons_of_mem _ hfile)
      exact (hrest.cons (other, old)).trans (.swap _ _ rest)

/-- Files of different paths put into memory are all there. -/
theorem ofList_perm {entries : List (Text × Text)} (h : Path.Distinct (entries.map Prod.fst)) :
    (ofList entries).Perm entries := by
  -- The files that are there already go on the side of those still to come.
  have hfold : ∀ files : Files, Path.Distinct ((entries ++ files).map Prod.fst) →
      (entries.foldl (fun all entry => all.insert entry.1 entry.2) files).Perm (entries ++ files) := by
    clear h
    induction entries with
    | nil => exact fun files _ => .refl files
    | cons entry rest ih =>
      intro files h
      obtain ⟨hentry, hothers⟩ := List.pairwise_cons.mp h
      have hinsert : (files.insert entry.1 entry.2).Perm (entry :: files) :=
        insert_perm entry.2 fun file hfile =>
          hentry file.1 (List.mem_map_of_mem (List.mem_append_right rest hfile))
      have hmove : (rest ++ files.insert entry.1 entry.2).Perm (entry :: rest ++ files) :=
        (hinsert.append_left rest).trans List.perm_middle
      exact (ih _ (h.perm (hmove.map Prod.fst).symm)).trans hmove
  have hall := hfold [] (by rwa [List.append_nil])
  rw [List.append_nil] at hall
  exact hall

/-- Files of different paths may be put into memory in any order. -/
theorem ofList_eq_of_perm {entries entries' : List (Text × Text)} (hperm : entries.Perm entries')
    (h : Path.Distinct (entries.map Prod.fst)) : ofList entries = ofList entries' := by
  have hfiles : (ofList entries).Perm (ofList entries') :=
    (ofList_perm h).trans (hperm.trans (ofList_perm (h.perm (hperm.map Prod.fst))).symm)
  exact hfiles.eq_of_pairwise (fun _ _ _ _ hlt hgt => absurd hgt (lt_asymm hlt)) (sorted_ofList entries)
    (sorted_ofList entries')

end Files

end Scl
