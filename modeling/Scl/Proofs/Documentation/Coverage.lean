import Scl.Proofs.Documentation.Listing

/-!
# What documentation lists

Documentation leaves out what stands below calls and assignments. Everything else it has to read, and of this it lists
the declarations, in order, with the comments above them:

* `Forest.places`: every line with its ancestors and its earlier siblings;
* `Place.isRelevant`: the places that no call and no assignment hides;
* `Line.commentsAbove_longest`: a doc comment is the longest run of comment lines;
* `DocEntry.covered_ofForest`: documentation of a forest reads its relevant lines, and lists their declarations;
* `FileSystem.document_complete`: the same of files.
-/

namespace Scl

/-! ## Places -/

namespace Forest

variable {α : Type}

/-- A node with what stands around it. -/
structure Place (α : Type) where
  /-- The nodes that it is below, the nearest one first. -/
  ancestors : List α
  /-- Its earlier siblings, the last one first. -/
  above : List α
  node : α

/-- Every node in depth-first order, where the roots are below `ancestors` and come after `above`. -/
def places (ancestors above : List α) : Forest α → List (Place α)
  | nil => []
  | cons root below next =>
    ⟨ancestors, above, root⟩ :: (places (root :: ancestors) [] below ++ places ancestors (root :: above) next)

theorem map_node_places (ancestors above : List α) (forest : Forest α) :
    (forest.places ancestors above).map Place.node = forest.preorder := by
  induction forest generalizing ancestors above with
  | nil => rfl
  | cons root below next ihBelow ihNext => rw [places, List.map_cons, List.map_append, ihBelow, ihNext]; rfl

/-- Earlier siblings come earlier. -/
theorem sublist_of_mem_places {ancestors above : List α} {forest : Forest α} {place : Place α}
    (h : place ∈ forest.places ancestors above) :
    (place.above.reverse ++ [place.node]).Sublist (above.reverse ++ forest.preorder) := by
  induction forest generalizing ancestors above with
  | nil => cases h
  | cons root below next ihBelow ihNext =>
    rw [places, List.mem_cons, List.mem_append] at h
    rw [preorder]
    rcases h with rfl | h | h
    · exact List.Sublist.append_left (List.Sublist.cons_cons root (List.nil_sublist _)) _
    · refine (ihBelow h).trans ?_
      exact (List.sublist_append_left _ _).trans ((List.sublist_cons_self _ _).trans (List.sublist_append_right _ _))
    · refine (ihNext h).trans ?_
      rw [List.reverse_cons, List.append_assoc]
      exact List.Sublist.append_left (List.Sublist.cons_cons root (List.sublist_append_right _ _)) _

theorem levels_append (first second : Forest α) (depth : Nat) :
    (first ++ second).levels depth = first.levels depth ++ second.levels depth := by
  induction first with
  | nil => rfl
  | cons root below next _ ih =>
    show (depth, root) :: (below.levels (depth + 1) ++ (next ++ second).levels depth) = _
    rw [ih, ← List.append_assoc]
    rfl

end Forest

open Forest (Place)

/-! ## Doc comments -/

namespace Line

variable {below : Nat} {above run : List Line}

/-- Comment lines whose source lines follow each other down to the one before `below`, the last one first. -/
structure IsRun (below : Nat) (above run : List Line) : Prop where
  siblings : run ⊆ above
  comments : ∀ line ∈ run, ['/', '/'] <+: line.content
  consecutive : ∀ i line, run[i]? = some line → line.location.line + (i + 1) = below

/-- A run that no other one is longer than. -/
structure IsLongestRun (below : Nat) (above run : List Line) : Prop extends IsRun below above run where
  longest : ∀ other, IsRun below above other → other.length ≤ run.length

/-- What a comment line says. -/
def commentText (line : Line) : Text :=
  Text.trim (line.content.drop 2)

theorem isRun_nil : IsRun below above [] :=
  ⟨List.nil_subset _, nofun, nofun⟩

/-- A run in sight of a line that does not go with it is empty. -/
theorem IsRun.eq_nil {first : Line} {others : List Line} (h : IsRun below (first :: others) run)
    (hothers : ∀ line ∈ others, line.location.line < first.location.line) (hbelow : first.location.line < below)
    (hfirst : first.location.line + 1 = below → ¬['/', '/'] <+: first.content) : run = [] := by
  cases run with
  | nil => rfl
  | cons line rest =>
    exfalso
    have hnumber : line.location.line + 1 = below := h.consecutive 0 line rfl
    rcases List.mem_cons.mp (h.siblings List.mem_cons_self) with rfl | hline
    · exact hfirst hnumber (h.comments _ List.mem_cons_self)
    · have := hothers line hline
      omega

/-- Without its last line, a run ends above that line. -/
theorem IsRun.tail {first line : Line} {others : List Line} (h : IsRun below (first :: others) (line :: run))
    (hothers : ∀ line ∈ others, line.location.line < first.location.line)
    (hbelow : first.location.line + 1 = below) : IsRun first.location.line others run := by
  have hnumber : ∀ i other, run[i]? = some other → other.location.line + (i + 1) = first.location.line := by
    intro i other hother
    have := h.consecutive (i + 1) other hother
    omega
  refine ⟨fun other hother => ?_, fun other hother => h.comments other (List.mem_cons_of_mem _ hother), hnumber⟩
  obtain ⟨i, hi⟩ := List.getElem?_of_mem hother
  have := hnumber i other hi
  rcases List.mem_cons.mp (h.siblings (List.mem_cons_of_mem _ hother)) with rfl | hmem
  · omega
  · exact hmem

theorem commentsAbove_cons_of_comment {first : Line} {others : List Line} (h : first.location.line + 1 = below)
    (hcomment : ['/', '/'] <+: first.content) :
    commentsAbove below (first :: others) = first.commentText :: commentsAbove first.location.line others := by
  obtain ⟨comment, hcontent⟩ := hcomment
  rw [commentsAbove, commentText, ← hcontent]
  exact if_pos h

theorem commentsAbove_cons_of_not {first : Line} {others : List Line}
    (h : first.location.line + 1 = below → ¬['/', '/'] <+: first.content) :
    commentsAbove below (first :: others) = [] := by
  rw [commentsAbove]
  split
  · rename_i comment hcontent
    refine if_neg fun hnumber => h hnumber ?_
    rw [hcontent]
    exact ⟨comment, rfl⟩
  · rfl

/-- The comments above a line are those of the longest run. -/
theorem commentsAbove_longest (h : above.Pairwise (·.location.line > ·.location.line))
    (hbelow : ∀ line ∈ above, line.location.line < below) :
    ∃ run, IsLongestRun below above run ∧ commentsAbove below above = run.map commentText := by
  induction above generalizing below with
  | nil =>
    refine ⟨[], ⟨isRun_nil, fun other hother => ?_⟩, rfl⟩
    exact Nat.le_of_eq (congrArg List.length (List.subset_nil.mp hother.siblings))
  | cons first others ih =>
    obtain ⟨hfirst, hothers⟩ := List.pairwise_cons.mp h
    by_cases hgoes : first.location.line + 1 = below ∧ ['/', '/'] <+: first.content
    · obtain ⟨run, hrun, htexts⟩ := ih hothers hfirst
      refine ⟨first :: run, ⟨⟨?_, ?_, ?_⟩, fun other hother => ?_⟩, ?_⟩
      · exact List.cons_subset_cons first hrun.siblings
      · exact List.forall_mem_cons.mpr ⟨hgoes.2, hrun.comments⟩
      · intro i line hline
        cases i with
        | zero =>
          cases hline
          exact hgoes.1
        | succ i =>
          have := hrun.consecutive i line hline
          omega
      · cases other with
        | nil => exact Nat.zero_le _
        | cons line rest => exact Nat.succ_le_succ (hrun.longest rest (hother.tail hfirst hgoes.1))
      · rw [commentsAbove_cons_of_comment hgoes.1 hgoes.2, htexts, List.map_cons]
    · have hnot : first.location.line + 1 = below → ¬['/', '/'] <+: first.content := fun hnumber hcomment =>
        hgoes ⟨hnumber, hcomment⟩
      refine ⟨[], ⟨isRun_nil, fun other hother => ?_⟩, commentsAbove_cons_of_not hnot⟩
      exact Nat.le_of_eq (congrArg List.length (hother.eq_nil hfirst (hbelow first List.mem_cons_self) hnot))

theorem docComment?_getD (line : Line) (above : List Line) :
    (line.docComment? above).getD [] = Text.join ['\n'] (commentsAbove line.location.line above).reverse := by
  rw [docComment?]
  cases commentsAbove line.location.line above <;> rfl

/-! ## Lines -/

def isDeclaration (line : Line) : Bool :=
  match line.statement with
  | .ok (.declaration ..) => true
  | _ => false

/-- Calls, of which imports are one kind, and assignments hide what stands below them. -/
def hides (line : Line) : Bool :=
  match line.statement with
  | .ok (.call ..) => true
  | .ok (.assignment ..) => true
  | _ => false

/-- The error of a line that cannot be read. -/
def fault? (line : Line) : Option Error :=
  match line.statement with
  | .error e => some (.located line.location (.token e))
  | .ok _ => none

theorem fault?_eq_none_iff {line : Line} : line.fault? = none ↔ ∃ statement, line.statement = .ok statement := by
  rw [fault?]
  cases line.statement with
  | error e => exact iff_of_false nofun nofun
  | ok statement => exact iff_of_true rfl ⟨statement, rfl⟩

theorem isOpen_eq_not_hides {line : Line} (h : line.fault? = none) : line.isOpen = !line.hides := by
  obtain ⟨statement, hstatement⟩ := fault?_eq_none_iff.mp h
  rw [isOpen, hides, hstatement]
  cases statement <;> rfl

theorem isSome_described? (line : Line) (above : List Line) :
    (line.described? above).isSome = line.isDeclaration := by
  rw [described?, isDeclaration]
  cases line.statement with
  | error e => rfl
  | ok statement => cases statement <;> rfl

end Line

/-! ## Relevant lines -/

namespace Forest

/-- No call and no assignment hides the place. -/
def Place.isRelevant (place : Place Line) : Bool :=
  place.ancestors.all (!·.hides)

/-- The number of declarations that the place is inside of. -/
def Place.depth (place : Place Line) : Nat :=
  place.ancestors.countP Line.isDeclaration

variable {ancestors above : List Line} {line : Line} {below next : Forest Line}

def relevant (ancestors above : List Line) (forest : Forest Line) : List (Place Line) :=
  (forest.places ancestors above).filter Place.isRelevant

theorem relevant_of_hides (h : line.hides) (above : List Line) (forest : Forest Line)
    (hline : line ∈ ancestors) : forest.relevant ancestors above = [] := by
  induction forest generalizing ancestors above with
  | nil => rfl
  | cons root below next ihBelow ihNext =>
    have hnot : ¬(Place.mk ancestors above root).isRelevant := fun hall => by
      have := List.all_eq_true.mp hall line hline
      simp [h] at this
    rw [relevant, places, List.filter_cons_of_neg hnot, List.filter_append]
    exact (congrArg₂ (· ++ ·) (ihBelow _ (List.mem_cons_of_mem _ hline)) (ihNext _ hline)).trans (List.append_nil _)

theorem relevant_cons (h : ∀ ancestor ∈ ancestors, ¬ancestor.hides) :
    (cons line below next).relevant ancestors above =
      ⟨ancestors, above, line⟩ ::
        (below.relevant (line :: ancestors) [] ++ next.relevant ancestors (line :: above)) := by
  have hrelevant : (Place.mk ancestors above line).isRelevant := by
    refine List.all_eq_true.mpr fun ancestor hancestor => ?_
    simpa using h ancestor hancestor
  rw [relevant, places, List.filter_cons_of_pos hrelevant, List.filter_append]
  rfl

end Forest

namespace DocEntry

variable {ancestors above : List Line} {line : Line} {below next : Forest Line} {places more : List (Place Line)}
  {depth : Nat} {outcome : Except Error (Forest DocEntry)}

/-- The entry of a declaration at a place, with its depth. -/
def Describes (place : Place Line) (row : Nat × DocEntry) : Prop :=
  row.1 = place.depth ∧ place.node.described? place.above = some row.2

/-- The outcome of documentation that has to read some places: the error of the first one that cannot be read, or the
entries of the declarations. -/
inductive Covered (places : List (Place Line)) (depth : Nat) : Except Error (Forest DocEntry) → Prop
  | error {e : Error} : places.findSome? (·.node.fault?) = some e → Covered places depth (.error e)
  | ok {docs : Forest DocEntry} : places.findSome? (·.node.fault?) = none →
    List.Forall₂ Describes (places.filter (·.node.isDeclaration)) (docs.levels depth) →
    Covered places depth (.ok docs)

theorem covered_nil (depth : Nat) : Covered [] depth (.ok .nil) :=
  .ok rfl .nil

theorem Covered.append {rest : Except Error (Forest DocEntry)} (h : Covered places depth outcome)
    (hrest : Covered more depth rest) :
    Covered (places ++ more) depth (do
      let docs ← outcome
      let others ← rest
      pure (docs ++ others)) := by
  cases h with
  | error he => exact .error (by rw [List.findSome?_append, he, Option.some_or])
  | ok hnone hdescribes =>
    cases hrest with
    | error he => exact .error (by rw [List.findSome?_append, hnone, he, Option.none_or])
    | ok hnone' hdescribes' =>
      refine .ok (by rw [List.findSome?_append, hnone, hnone', Option.none_or]) ?_
      rw [List.filter_append, Forest.levels_append]
      exact List.rel_append hdescribes hdescribes'

/-- A line that can be read, over what is below it. -/
theorem Covered.headed (above : List Line) (hline : line.fault? = none)
    (h : Covered places (Place.depth ⟨line :: ancestors, [], line⟩) outcome) :
    Covered (⟨ancestors, above, line⟩ :: places) (Place.depth ⟨ancestors, above, line⟩)
      (headed (line.described? above) <$> outcome) := by
  have hfind : List.findSome? (·.node.fault?) (⟨ancestors, above, line⟩ :: places) =
      places.findSome? (·.node.fault?) := by
    rw [List.findSome?_cons, hline]
  cases h with
  | error he => exact .error (hfind.trans he)
  | ok hnone hdescribes =>
    refine .ok (hfind.trans hnone) ?_
    have hsome := line.isSome_described? above
    rw [Place.depth, List.countP_cons, ← hsome] at hdescribes
    rw [List.filter_cons, ← hsome]
    cases hentry : line.described? above with
    | none =>
      rw [hentry] at hdescribes
      exact hdescribes
    | some entry =>
      rw [hentry] at hdescribes
      rw [DocEntry.headed, Forest.levels, Forest.levels, List.append_nil]
      exact .cons ⟨rfl, hentry⟩ hdescribes

/-- Documentation of a forest covers the relevant places in it. -/
theorem covered_ofForest (forest : Forest Line) (above : List Line)
    (h : ∀ ancestor ∈ ancestors, ¬ancestor.hides) :
    Covered (forest.relevant ancestors above) (ancestors.countP Line.isDeclaration) (ofForest above forest) := by
  induction forest generalizing ancestors above with
  | nil => exact covered_nil _
  | cons line below next ihBelow ihNext =>
    rw [Forest.relevant_cons h, ofForest_cons]
    cases hstatement : line.statement with
    | error e =>
      -- Nothing that comes later matters.
      have hfault : line.fault? = some (.located line.location (.token e)) := by rw [Line.fault?, hstatement]
      exact .error (by rw [List.findSome?_cons, hfault]; rfl)
    | ok statement =>
      have hfault : line.fault? = none := Line.fault?_eq_none_iff.mpr ⟨statement, hstatement⟩
      have hbelow : Covered (below.relevant (line :: ancestors) [])
          (Place.depth ⟨line :: ancestors, [], line⟩) (ofBelow line below) := by
        rw [ofBelow, Line.isOpen_eq_not_hides hfault]
        cases hhides : line.hides with
        | true =>
          rw [Forest.relevant_of_hides hhides _ _ List.mem_cons_self]
          exact covered_nil _
        | false => exact ihBelow [] (List.forall_mem_cons.mpr ⟨by rw [hhides]; decide, h⟩)
      have hall := (hbelow.headed above hfault).append (ihNext (line :: above) h)
      generalize ofBelow line below = inside at hall
      cases inside with
      | error e => exact hall
      | ok docs => exact hall

end DocEntry

/-! ## Files -/

/-- A row of the documentation, for the declaration at a place: as deep as declarations are around it, and with the
longest run of comment lines above it as its text. -/
structure Documents (place : Place Line) (row : Nat × DocEntry) : Prop where
  depth : row.1 = place.depth
  location : row.2.location = place.node.location
  declaration : ∃ arguments, place.node.statement = .ok (.declaration row.2.name arguments) ∧
    row.2.signature = Signature.print row.2.name arguments
  docs : ∃ run, Line.IsLongestRun place.node.location.line place.above run ∧
    row.2.docs = Text.join ['\n'] (run.reverse.map Line.commentText)

theorem DocEntry.Describes.documents {place : Place Line} {row : Nat × DocEntry} (h : Describes place row)
    (hordered : (place.above.reverse ++ [place.node]).Pairwise (·.location.line < ·.location.line)) :
    Documents place row := by
  obtain ⟨depth, entry⟩ := row
  obtain ⟨hdepth, hentry⟩ := h
  obtain ⟨habove, -, hnode⟩ := List.pairwise_append.mp hordered
  obtain ⟨run, hrun, htexts⟩ := Line.commentsAbove_longest (List.pairwise_reverse.mp habove) fun line hline =>
    hnode line (List.mem_reverse.mpr hline) place.node List.mem_cons_self
  rw [Line.described?] at hentry
  split at hentry
  · rename_i name arguments hstatement
    cases hentry
    refine ⟨hdepth, rfl, ⟨arguments, hstatement, rfl⟩, run, hrun, ?_⟩
    rw [Line.docComment?_getD, htexts, List.map_reverse]
  · cases hentry

/-- Documentation of a file lists every declaration that no call and no assignment hides, once and in the order of the
source, each as deep as it is inside of others, with the longest run of comment lines that ends directly above it. It
succeeds if every line that is not hidden can be read, and otherwise it reports the first one that cannot. -/
theorem FileSystem.document_complete {files : FileSystem} {path : Text} {whole : Forest Line}
    (hload : files.load path = .ok whole) :
    let places := whole.places [] []
    let relevant := places.filter Place.isRelevant
    (places.map Place.node = whole.preorder ∧ whole.preorder.Pairwise (·.location.line < ·.location.line)) ∧
      ((∃ docs, files.document path = .ok docs) ↔
        ∀ place ∈ relevant, ∃ statement, place.node.statement = .ok statement) ∧
      (∀ e, files.document path = .error e ↔ relevant.findSome? (·.node.fault?) = some e) ∧
      ∀ docs, files.document path = .ok docs →
        List.Forall₂ Documents (relevant.filter (·.node.isDeclaration)) (docs.levels 0) := by
  intro places relevant
  obtain ⟨high, hordered⟩ := load_inOrder hload
  have hdocument : files.document path = DocEntry.ofForest [] whole := by
    rw [document, hload]
    rfl
  have hcovered : DocEntry.Covered relevant 0 (files.document path) := by
    rw [hdocument]
    have hnone : ∀ ancestor ∈ ([] : List Line), ¬ancestor.hides := by simp
    exact DocEntry.covered_ofForest whole [] hnone
  have hreadable : (∀ place ∈ relevant, ∃ statement, place.node.statement = .ok statement) ↔
      relevant.findSome? (·.node.fault?) = none := by
    simp only [List.findSome?_eq_none_iff, Line.fault?_eq_none_iff]
  rw [hreadable]
  refine ⟨⟨Forest.map_node_places [] [] whole, hordered.pairwise⟩, ?_⟩
  generalize files.document path = outcome at hcovered
  cases hcovered with
  | error herror =>
    rw [herror]
    refine ⟨by simp, by simp, fun docs hdocs => ?_⟩
    cases hdocs
  | ok hnone hdescribes =>
    rw [hnone]
    refine ⟨by simp, by simp, fun docs hdocs => ?_⟩
    cases hdocs
    have hplaces : ∀ place ∈ relevant.filter (·.node.isDeclaration),
        (place.above.reverse ++ [place.node]).Pairwise (·.location.line < ·.location.line) := by
      intro place hplace
      have hmem : place ∈ places := List.mem_of_mem_filter (List.mem_of_mem_filter hplace)
      exact hordered.pairwise.sublist (Forest.sublist_of_mem_places hmem)
    exact ((List.forall₂_and_left _ _).mpr ⟨hplaces, hdescribes⟩).imp fun place row h => h.2.documents h.1

/-- A declaration in a block in the body of another one, with a gap in the comments and an unreadable line below a
call. -/
theorem FileSystem.document_complete_nested :
    let source := "// no\n\n// one\n//two\n@m($a):\n  x\n    // in\n    @n()\nf()\n  @(\n".toList
    let files := Files.system [(['f'], source)]
    let docs : Forest DocEntry :=
      .cons ⟨['m'], ⟨['f'], 5⟩, "@m($a)".toList, "one\ntwo".toList⟩
        (.cons ⟨['n'], ⟨['f'], 8⟩, "@n()".toList, "in".toList⟩ .nil .nil) .nil
    ∃ whole, files.load ['f'] = .ok whole ∧ files.document ['f'] = .ok docs ∧
      docs.levels 0 = [(0, ⟨['m'], ⟨['f'], 5⟩, "@m($a)".toList, "one\ntwo".toList⟩),
        (1, ⟨['n'], ⟨['f'], 8⟩, "@n()".toList, "in".toList⟩)] ∧
      List.Forall₂ Documents (((whole.places [] []).filter Place.isRelevant).filter (·.node.isDeclaration))
        (docs.levels 0) := by
  intro source files docs
  have hdocs : files.document ['f'] = .ok docs := by decide +kernel
  obtain ⟨whole, hload, -⟩ := Except.bind_eq_ok_iff.mp hdocs
  exact ⟨whole, hload, hdocs, rfl, (document_complete hload).2.2.2 docs hdocs⟩

end Scl
