import Scl.Documentation.Basic
import Scl.Proofs.Expansion.Steps

/-!
# Where documentation looks

The documentation of a file goes through its lines in order. It looks below comments, literals and declarations, and
not below assignments and calls, and every declaration that it comes to gives one entry.

* `DocEntry.ofForest_cons`: what one line adds to the entries;
* `Listed`: the places that documentation comes to;
* `Listed.ofForest`: the entries from such a place on are among all entries;
* `FileSystem.filter_document`: so a declaration at such a place has exactly one entry, the only one of its source
  line.
-/

namespace Scl

/-! ## Lines -/

namespace Line

/-- Whether documentation looks below the line. -/
def isOpen (line : Line) : Bool :=
  match line.statement with
  | .ok (.comment _) => true
  | .ok (.literal _) => true
  | .ok (.declaration ..) => true
  | _ => false

/-- The entry of a declaration, whose earlier siblings are `above` with the last one first. -/
def described? (above : List Line) (line : Line) : Option DocEntry :=
  match line.statement with
  | .ok (.declaration name arguments) =>
    some { name, location := line.location, signature := Signature.print name arguments,
           docs := (line.docComment? above).getD [] }
  | _ => none

theorem location_of_described? {above : List Line} {line : Line} {entry : DocEntry}
    (h : line.described? above = some entry) : entry.location = line.location := by
  rw [described?] at h
  split at h
  · cases h
    rfl
  · cases h

end Line

namespace Forest

variable {α : Type}

theorem preorder_append (first second : Forest α) :
    (first ++ second).preorder = first.preorder ++ second.preorder := by
  induction first with
  | nil => rfl
  | cons root below next _ ih =>
    show root :: (below.preorder ++ (next ++ second).preorder) = _
    rw [ih, ← List.append_assoc]
    rfl

end Forest

/-! ## Entries -/

namespace DocEntry

variable {above : List Line} {line : Line} {below next forest whole : Forest Line} {docs : Forest DocEntry}

/-- The entries below a line, if documentation looks there. -/
def ofBelow (line : Line) (below : Forest Line) : Except Error (Forest DocEntry) :=
  if line.isOpen then ofForest [] below else .ok .nil

/-- Entries below that of their line, if it has one. -/
def headed : Option DocEntry → Forest DocEntry → Forest DocEntry
  | some entry, inside => .cons entry inside .nil
  | none, inside => inside

theorem preorder_headed (own? : Option DocEntry) (inside : Forest DocEntry) :
    (headed own? inside).preorder = own?.toList ++ inside.preorder := by
  cases own? with
  | none => rfl
  | some entry => simp [headed, Forest.preorder]

/-- A line that can be read adds its own entry over those below it. -/
theorem ofForest_cons (above : List Line) (line : Line) (below next : Forest Line) :
    ofForest above (.cons line below next) = (do
      let _ ← line.statement.mapError (Error.located line.location ∘ Cause.token)
      let inside ← ofBelow line below
      let rest ← ofForest (line :: above) next
      pure (headed (line.described? above) inside ++ rest)) := by
  rw [ofForest, ofBelow, Line.isOpen, Line.described?]
  cases line.statement with
  | error e => rfl
  | ok statement =>
    cases statement with
    | declaration name arguments => cases ofForest [] below <;> rfl
    | _ => rfl

theorem preorder_ofForest (h : ofForest above (.cons line below next) = .ok docs) :
    ∃ inside rest, ofBelow line below = .ok inside ∧ ofForest (line :: above) next = .ok rest ∧
      docs.preorder = (line.described? above).toList ++ inside.preorder ++ rest.preorder := by
  rw [ofForest_cons] at h
  obtain ⟨statement, -, hread⟩ := Except.bind_eq_ok_iff.mp h
  obtain ⟨inside, hinside, hbelow⟩ := Except.bind_eq_ok_iff.mp hread
  obtain ⟨rest, hrest, hpure⟩ := Except.bind_eq_ok_iff.mp hbelow
  cases hpure
  exact ⟨inside, rest, hinside, hrest, by rw [Forest.preorder_append, preorder_headed]⟩

/-- Entries are in the order of the lines that they are for. -/
theorem sublist_ofForest (h : ofForest above forest = .ok docs) :
    (docs.preorder.map location).Sublist (forest.preorder.map Line.location) := by
  induction forest generalizing above docs with
  | nil =>
    cases h
    exact .slnil
  | cons line below next ihBelow ihNext =>
    obtain ⟨inside, rest, hinside, hrest, hpreorder⟩ := preorder_ofForest h
    have hentry : ((line.described? above).toList.map location).Sublist [line.location] := by
      cases hentry : line.described? above with
      | none => exact List.nil_sublist _
      | some entry =>
        rw [← Line.location_of_described? hentry]
        exact .refl _
    have hbelow : (inside.preorder.map location).Sublist (below.preorder.map Line.location) := by
      rw [ofBelow] at hinside
      split at hinside
      · exact ihBelow hinside
      · cases hinside
        exact List.nil_sublist _
    rw [hpreorder, List.map_append, List.map_append, Forest.preorder, List.map_cons, List.map_append,
      ← List.singleton_append, ← List.append_assoc]
    exact (hentry.append hbelow).append (ihNext hrest)

end DocEntry

/-! ## Places -/

/-- Documentation of the forest `whole` comes to a place in it: the roots before a forest, with the last one first,
and the forest. -/
inductive Listed (whole : Forest Line) : List Line → Forest Line → Prop
  | whole : Listed whole [] whole
  | next {above : List Line} {line : Line} {below next : Forest Line} : Listed whole above (.cons line below next) →
    Listed whole (line :: above) next
  | inside {above : List Line} {line : Line} {below next : Forest Line} :
    Listed whole above (.cons line below next) → line.isOpen → Listed whole [] below

variable {whole forest : Forest Line} {above : List Line} {docs : Forest DocEntry}

theorem Listed.preorder_subset (h : Listed whole above forest) : forest.preorder ⊆ whole.preorder := by
  induction h with
  | whole => exact List.Subset.refl _
  | next _ ih => exact fun line hline => ih (List.mem_cons_of_mem _ (List.mem_append_right _ hline))
  | inside _ _ ih => exact fun line hline => ih (List.mem_cons_of_mem _ (List.mem_append_left _ hline))

/-- The entries from a place on are among all of them. -/
theorem Listed.ofForest (hlisted : Listed whole above forest) (h : DocEntry.ofForest [] whole = .ok docs) :
    ∃ part, DocEntry.ofForest above forest = .ok part ∧ part.preorder ⊆ docs.preorder := by
  induction hlisted with
  | whole => exact ⟨docs, h, List.Subset.refl _⟩
  | next _ ih =>
    obtain ⟨part, hpart, hsubset⟩ := ih
    obtain ⟨inside, rest, -, hrest, hpreorder⟩ := DocEntry.preorder_ofForest hpart
    refine ⟨rest, hrest, fun entry hentry => hsubset ?_⟩
    rw [hpreorder]
    exact List.mem_append_right _ hentry
  | inside _ hopen ih =>
    obtain ⟨part, hpart, hsubset⟩ := ih
    obtain ⟨inside, rest, hinside, -, hpreorder⟩ := DocEntry.preorder_ofForest hpart
    rw [DocEntry.ofBelow, if_pos hopen] at hinside
    refine ⟨inside, hinside, fun entry hentry => hsubset ?_⟩
    rw [hpreorder]
    exact List.mem_append_left _ (List.mem_append_right _ hentry)

theorem Listed.mem_preorder {line : Line} {below next : Forest Line} {entry : DocEntry}
    (hlisted : Listed whole above (.cons line below next)) (hentry : line.described? above = some entry)
    (h : DocEntry.ofForest [] whole = .ok docs) : entry ∈ docs.preorder := by
  obtain ⟨part, hpart, hsubset⟩ := hlisted.ofForest h
  obtain ⟨inside, rest, -, -, hpreorder⟩ := DocEntry.preorder_ofForest hpart
  refine hsubset ?_
  rw [hpreorder, hentry]
  exact List.mem_cons_self

/-- In a list that a key orders, an element is the only one of its key. -/
theorem filter_eq_singleton {α : Type} {key : α → Nat} {elements : List α}
    (h : elements.Pairwise (key · < key ·)) {element : α} (hmem : element ∈ elements) :
    elements.filter (key · = key element) = [element] := by
  obtain ⟨before, after, rfl⟩ := List.append_of_mem hmem
  obtain ⟨-, hafter, hbefore⟩ := List.pairwise_append.mp h
  have hbefore' : before.filter (key · = key element) = [] := by
    refine List.filter_eq_nil_iff.mpr fun other hother => ?_
    have := hbefore other hother element List.mem_cons_self
    simp only [decide_eq_true_eq]
    omega
  have hafter' : after.filter (key · = key element) = [] := by
    refine List.filter_eq_nil_iff.mpr fun other hother => ?_
    have := (List.pairwise_cons.mp hafter).1 other hother
    simp only [decide_eq_true_eq]
    omega
  rw [List.filter_append, hbefore', List.nil_append, List.filter_cons, hafter']
  simp

/-- A declaration that documentation comes to has one entry, and no other entry is for the same source line. -/
theorem FileSystem.filter_document {files : FileSystem} {path : Text} (hload : files.load path = .ok whole)
    (h : files.document path = .ok docs) {line : Line} {below next : Forest Line} {entry : DocEntry}
    (hlisted : Listed whole above (.cons line below next)) (hentry : line.described? above = some entry) :
    docs.preorder.filter (·.location.line = line.location.line) = [entry] := by
  rw [document, hload] at h
  obtain ⟨high, hordered⟩ := load_inOrder hload
  have hlines : (whole.preorder.map Line.location).Pairwise (·.line < ·.line) :=
    List.pairwise_map.mpr hordered.pairwise
  have hentries : (docs.preorder.map DocEntry.location).Pairwise (·.line < ·.line) :=
    hlines.sublist (DocEntry.sublist_ofForest h)
  rw [List.pairwise_map] at hentries
  rw [← Line.location_of_described? hentry]
  exact filter_eq_singleton hentries (hlisted.mem_preorder hentry h)

end Scl
