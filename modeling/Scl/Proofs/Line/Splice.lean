import Scl.Proofs.Line.Reading

/-!
# Splicing source texts

In place of a line at column zero with nothing below it, a source text can take the whole of another one:

* `readFrom_copy`: source lines read elsewhere give copies of the lines they were;
* `scan_at`: such a line cuts the forest of its file in two;
* `scan_splice`: between the two parts come copies of the other text's trees.
-/

namespace Scl.Line

/-- The same line in one file and in another. -/
structure Copy (file file' : Text) (line line' : Line) : Prop where
  same : line.SameText line'
  source : line.location.file = file
  target : line'.location.file = file'

theorem Copy.of_sameText {file file' : Text} {lines lines' : List Line} (h : List.Forall₂ SameText lines lines')
    (hfile : ∀ line ∈ lines, line.location.file = file) (hfile' : ∀ line ∈ lines', line.location.file = file') :
    List.Forall₂ (Copy file file') lines lines' := by
  induction h with
  | nil => exact .nil
  | cons hline _ ih =>
    rw [List.forall_mem_cons] at hfile hfile'
    exact .cons ⟨hline, hfile.1, hfile'.1⟩ (ih hfile.2 hfile'.2)

theorem readFrom_copy {file : Text} {number : Nat} {sources : List Text} {lines : List Line}
    (h : readFrom file number none sources = .ok lines) (file' : Text) (number' : Nat) :
    ∃ lines', readFrom file' number' none sources = .ok lines' ∧ List.Forall₂ (Copy file file') lines lines' := by
  obtain ⟨lines', hread', hsame⟩ := readFrom_elsewhere h file' number' .none
  exact ⟨lines', hread', Copy.of_sameText hsame (readFrom_inOrder h).file (readFrom_inOrder hread').file⟩

theorem column_head_of_copy {file file' : Text} {lines lines' : List Line}
    (h : List.Forall₂ (Copy file file') lines lines') (hhead : ∀ line ∈ lines.head?, line.column = 0) :
    ∀ line ∈ lines'.head?, line.column = 0 := by
  intro line hline
  cases h with
  | nil => cases hline
  | cons hcopy _ =>
    cases hline
    rw [← hcopy.same.column]
    exact hhead _ rfl

theorem Copy.layout {file file' : Text} {lines lines' : List Line}
    (h : List.Forall₂ (Copy file file') lines lines') :
    Forest.Rel (Copy file file') (layout lines) (layout lines') :=
  .layout (fun _ _ hline => hline.same.column) h

/-- Lines from one at column zero on are trees of their own. -/
theorem layout_append_of_column {first second : List Line} (h : ∀ line ∈ second.head?, line.column = 0) :
    layout (first ++ second) = layout first ++ layout second :=
  Forest.layout_append fun line hline other _ => by rw [h line hline]; exact Nat.zero_le _

/-! ## A source line in the middle of a text -/

section

variable {file before source after : Text} {line : Line} {forest : Forest Line}
  (hbefore : before = [] ∨ before.getLast? = some '\n') (hfeed : '\n' ∉ source) (hreturn : '\r' ∉ source)
  (hsource : ofSource? ⟨file, 1 + (Text.lines before).length⟩ source = some line) (hopens : line.opens? = none)
  (hcolumn : line.column = 0) (hscan : scan file (before ++ source ++ '\n' :: after) = .ok forest)
  (hleaf : forest.Has line .nil)

include hbefore hfeed hreturn hsource hopens hcolumn hscan hleaf

/-- A line at column zero with nothing below it cuts the forest of its file in two. -/
theorem scan_at :
    ∃ first last, readAll file before = .ok first ∧
      readFrom file (1 + (Text.lines before).length + 1) none (Text.lines after) = .ok last ∧
      (∀ next ∈ last.head?, next.column = 0) ∧ forest = layout first ++ .cons line .nil (layout last) := by
  obtain ⟨lines, hread, rfl⟩ := Except.map_eq_ok hscan
  rw [readAll, List.append_assoc, Text.lines_append hbefore, Text.lines_line_feed hfeed hreturn] at hread
  have hline : line ∈ lines := by
    have := hleaf.mem_preorder
    rwa [layout, Forest.preorder_layout] at this
  have hlocation := location_of_ofSource? hsource
  obtain ⟨first, rest, rfl, hfirst, hrest⟩ := readFrom_split hread hline (by rw [hlocation])
  rw [readFrom_line _ hsource hopens] at hrest
  obtain ⟨last, hlast, rfl⟩ := Except.map_eq_ok hrest
  have hlayout : layout (first ++ line :: last) = layout first ++ layout (line :: last) :=
    layout_append_of_column fun other hother => by cases hother; exact hcolumn
  have hnodup : (layout (first ++ line :: last)).preorder.Nodup := by
    rw [layout, Forest.preorder_layout]
    exact (readFrom_inOrder hread).pairwise.imp fun hlt heq => by
      rw [heq] at hlt
      exact Nat.lt_irrefl _ hlt
  -- Numbers tell lines apart, so the empty forest is all that is below this one.
  have hnil : ((layout last).span fun other => line.column < other.column).1 = .nil := by
    refine Forest.Has.unique hnodup ?_ hleaf
    rw [hlayout]
    exact .append_left .here _
  obtain ⟨hspan, hhead⟩ := Forest.span_of_fst_eq_nil hnil
  refine ⟨first, last, hfirst, hlast, fun next hnext => ?_, ?_⟩
  · rw [layout, Forest.head?_heads_layout] at hhead
    simpa [hcolumn] using hhead next hnext
  · rw [hlayout]
    show layout first ++ Forest.hang Line.column line (layout last) = _
    rw [Forest.hang, hspan]

/-- A source text written in place of a line: between the trees before the line and those after it come the
trees of the other text. -/
theorem scan_splice {file' inner : Text} (hinner : inner = [] ∨ inner.getLast? = some '\n')
    {forest' : Forest Line} (hscan' : scan file' inner = .ok forest')
    (hhead' : ∀ next ∈ forest'.preorder.head?, next.column = 0) :
    ∃ first last copy last', forest = first ++ .cons line .nil last ∧
      scan file (before ++ inner ++ after) = .ok (first ++ (copy ++ last')) ∧
      forest'.Rel (Copy file' file) copy ∧ last.Rel (Copy file file) last' := by
  obtain ⟨first, last, hfirst, hlast, hhead, rfl⟩ :=
    scan_at hbefore hfeed hreturn hsource hopens hcolumn hscan hleaf
  obtain ⟨lines, hlines, rfl⟩ := Except.map_eq_ok hscan'
  obtain ⟨copy, hcopy, hsame⟩ := readFrom_copy hlines file (1 + (Text.lines before).length)
  obtain ⟨last', hlast', hsame'⟩ :=
    readFrom_copy hlast file (1 + (Text.lines before).length + (Text.lines inner).length)
  rw [layout, Forest.preorder_layout] at hhead'
  refine ⟨layout first, layout last, layout copy, layout last', rfl, ?_, Copy.layout hsame, Copy.layout hsame'⟩
  have hread : readAll file (before ++ inner ++ after) = .ok (first ++ (copy ++ last')) := by
    rw [readAll, List.append_assoc, Text.lines_append hbefore, Text.lines_append hinner, readFrom_append hfirst,
      readFrom_append hcopy, hlast']
    rfl
  have hcopies := column_head_of_copy hsame hhead'
  have hlasts := column_head_of_copy hsame' hhead
  have hheads : ∀ next ∈ (copy ++ last').head?, next.column = 0 := by
    cases copy with
    | nil => exact hlasts
    | cons next others => exact hcopies
  rw [scan, hread]
  show Except.ok (layout (first ++ (copy ++ last'))) = _
  rw [layout_append_of_column hheads, layout_append_of_column hlasts]

end

end Scl.Line
