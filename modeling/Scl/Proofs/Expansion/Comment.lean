import Scl.Proofs.Expansion.Rewriting
import Scl.Proofs.Forest.Pruning
import Scl.Proofs.Line.Style

/-!
# Comment lines

A comment line that has nothing below it and is not all that its parent has can be put into a source text or taken out:

* `follows_pruned`, `follows_expand_pruned`: forests that differ in such lines expand alike;
* `CommentLine`: a comment line in a source text, outside of heredocs;
* `CommentLine.Reads.agree`: an empty source line in its place gives the forest without the line;
* `CommentLine.Reads.scan_source`: without the empty source line all others only move up;
* `expandFile_commented_iff`: the output is the same with the comment line and without it.
-/

namespace Scl

open Expansion

/-! ## Expansions -/

/-- A comment and nothing else. -/
def Line.IsComment (line : Line) : Prop :=
  ∃ text, line.statement = .ok (.comment text)

namespace Expansion

variable {env env' : Environment}

/-- A comment with nothing below it does nothing. -/
theorem expandForest_comment {line : Line} (h : line.IsComment) (env : Environment) (run : Expander)
    (above : List Line) (next : Forest Line) (id : Nat) :
    env.expandForest run above (.cons line .nil next) id = env.expandForest run (line :: above) next id := by
  obtain ⟨text, htext⟩ := h
  rw [Environment.expandForest, expandLine_eq, htext]
  show (pure Output.nil >>= fun here => _) = _
  simp only [pure_bind]
  exact bind_pure _

theorem follows_pruned {run run' : Expander} (hrun : Related False (Forest.Pruned Line.IsComment) run run')
    (hc : ∀ forest, Confined (run forest)) (hc' : ∀ forest, Confined (run' forest))
    (hfiles : SameFiles False (Forest.Pruned Line.IsComment) env env') {forest forest' : Forest Line}
    (h : forest.Pruned Line.IsComment forest') (above above' : List Line) (link : Nat → Nat → Prop) (i j : Nat) :
    Follows False (Scopes.InStep False (Forest.Pruned Line.IsComment) link i j)
      (env.expandForest run above forest i) (env'.expandForest run' above' forest' j) := by
  induction h generalizing above above' link i j with
  | nil => exact .pure Output.nil
  | @cons line below below' next next' hempty hbelow _ ihBelow ihNext =>
    have hline := follows_expandLine hrun hc hc' hfiles (ihBelow [] []) (confined_expandForest hc env [] below)
      (confined_expandForest hc' env' [] below') above above' line hbelow hempty link i j
    exact .bind hline fun here => .bind (ihNext (line :: above) (line :: above') link i j) fun rest =>
      .pure (here ++ rest)
  | @leaf line next next' hcomment _ ih =>
    rw [expandForest_comment hcomment]
    exact ih (line :: above) above' link i j

theorem follows_expand_pruned (hfiles : SameFiles False (Forest.Pruned Line.IsComment) env env') (depth : Nat) :
    Related False (Forest.Pruned Line.IsComment) (env.expand depth) (env'.expand depth) :=
  related_expand (fun hrun hc hc' _ _ h => follows_pruned hrun hc hc' hfiles h [] []) depth

end Expansion

/-! ## Source texts -/

/-- A source line that starts with `//` is read as a comment, which opens nothing. -/
theorem Line.ofSource?_comment (location : Location) {indent : Text} (hindent : ∀ c ∈ indent, Text.isWhiteSpace c)
    (text : Text) : ∃ line, ofSource? location (indent ++ '/' :: '/' :: text) = some line ∧
      line.column = indent.length ∧ line.opens? = none ∧ line.IsComment := by
  obtain ⟨trailers, htext, htrailers⟩ := Text.exists_dropEndWhile_append isTrailer text
  have hslashes : ∀ c ∈ ['/', '/'].getLast?, ¬isTrailer c := by
    rintro c ⟨⟩
    decide
  have hkept := Text.dropEndWhile_append_right hslashes text
  have hlast := Text.getLast?_dropEndWhile isTrailer (['/', '/'] ++ text)
  rw [hkept] at hlast
  generalize Text.dropEndWhile isTrailer text = kept at htext hlast
  refine ⟨⟨location, indent.length, '/' :: '/' :: kept⟩, ?_, rfl, rfl, Text.trim kept, rfl⟩
  have hbare : Bare ('/' :: '/' :: kept) := ⟨by simp, by rintro c ⟨⟩; decide, hlast⟩
  rw [htext, ← hbare.ofSource?_eq location hindent htrailers]
  simp

/-- A comment line in a source text that otherwise consists of lines without carriage returns. It stands outside of
heredocs. -/
structure CommentLine where
  before : List Text
  after : List Text
  indent : Text
  text : Text
  plain : ∀ line ∈ before ++ after, '\n' ∉ line ∧ '\r' ∉ line
  blank : ∀ c ∈ indent, c = ' ' ∨ c = '\t'
  oneLine : '\n' ∉ text
  outside : Line.Outside (before ++ after) before.length

namespace CommentLine

variable (comment : CommentLine)

/-- The source text without the comment line. -/
def source : Text :=
  Text.unlines (comment.before ++ comment.after)

/-- The source text with the comment line. -/
def commented : Text :=
  Text.unlines (comment.before ++ (comment.indent ++ '/' :: '/' :: comment.text) :: comment.after)

/-- The source text with an empty line in place of the comment line. -/
def blanked : Text :=
  Text.unlines (comment.before ++ [] :: comment.after)

/-- Whether a line is the comment line, by its number. -/
def isHere (line : Line) : Bool :=
  line.location.line = comment.before.length + 1

theorem lines_source : Text.lines comment.source = comment.before ++ comment.after :=
  (Text.terminated_unlines _).lines_eq comment.plain

theorem lines_blanked : Text.lines comment.blanked = comment.before ++ [] :: comment.after := by
  refine (Text.terminated_unlines _).lines_eq ?_
  have hplain := comment.plain
  rw [List.forall_mem_append] at hplain ⊢
  exact ⟨hplain.1, List.forall_mem_cons.mpr ⟨by simp, hplain.2⟩⟩

/-- The text of the comment line may end in a carriage return, which is dropped. -/
theorem lines_commented : ∃ text,
    Text.lines comment.commented = comment.before ++ (comment.indent ++ '/' :: '/' :: text) :: comment.after := by
  have hplain := comment.plain
  rw [List.forall_mem_append] at hplain
  have hfeed : '\n' ∉ comment.indent ++ '/' :: '/' :: comment.text := by
    rw [List.mem_append, List.mem_cons, List.mem_cons]
    rintro (hmem | hmem | hmem | hmem)
    · exact absurd (comment.blank _ hmem) (by decide)
    · exact absurd hmem (by decide)
    · exact absurd hmem (by decide)
    · exact comment.oneLine hmem
  obtain ⟨kept, hkept, hlines⟩ := Text.exists_lines_feed hfeed (Text.unlines comment.after)
  have hline : ∃ text, kept = comment.indent ++ '/' :: '/' :: text := by
    rcases hkept with hkept | hkept
    · exact ⟨comment.text, hkept.symm⟩
    · rcases List.eq_nil_or_concat comment.text with hnil | ⟨text, last, htext⟩
      · rw [hnil] at hkept
        have hlast := congrArg List.getLast? hkept
        simp at hlast
      · rw [htext, List.concat_eq_append, ← List.cons_append, ← List.cons_append, ← List.append_assoc] at hkept
        exact ⟨text, (List.append_inj' hkept rfl).1.symm⟩
  obtain ⟨text, rfl⟩ := hline
  refine ⟨text, ?_⟩
  rw [commented, Text.unlines_append, Text.unlines_cons, Text.lines_append (Text.unlines_ended _), hlines,
    (Text.terminated_unlines _).lines_eq hplain.1, (Text.terminated_unlines _).lines_eq hplain.2]

/-- The lines of the source text in a file: those before the comment line, the comment line, and those after it. -/
structure Reads (file : Text) (first : List Line) (line : Line) (last : List Line) : Prop where
  before : Line.readFrom file 1 none comment.before = .ok first
  after : Line.readFrom file (1 + comment.before.length + 1) none comment.after = .ok last
  number : line.location.line = comment.before.length + 1
  column : line.column = comment.indent.length
  isComment : line.IsComment
  commented : Line.readAll file comment.commented = .ok (first ++ line :: last)
  blanked : Line.readAll file comment.blanked = .ok (first ++ last)

variable {comment} {file : Text} {first last : List Line} {line : Line}

theorem exists_before (comment : CommentLine) (file : Text) :
    ∃ first, Line.readFrom file 1 none comment.before = .ok first := by
  refine Line.readFrom_eq_ok_of_outside (Line.outside_iff.mpr ?_) file
  have houtside := Line.outside_iff.mp comment.outside
  rwa [List.take_left, ← List.take_length (l := comment.before)] at houtside

/-- Each source text is read in these parts, or none of them can be read. -/
theorem exists_reads (comment : CommentLine) (file : Text) :
    (∃ first line last, comment.Reads file first line last) ∨
      ∃ e, Line.readAll file comment.commented = .error e := by
  obtain ⟨first, hfirst⟩ := comment.exists_before file
  obtain ⟨text, htext⟩ := comment.lines_commented
  have hindent : ∀ c ∈ comment.indent, Text.isWhiteSpace c := by
    intro c hc
    rcases comment.blank c hc with rfl | rfl <;> decide
  obtain ⟨line, hline, hcolumn, hopens, hcomment⟩ :=
    Line.ofSource?_comment ⟨file, 1 + comment.before.length⟩ hindent text
  have hblank : Line.ofSource? ⟨file, 1 + comment.before.length⟩ [] = none := Line.ofSource?_eq_none (by simp) _
  have hcommented : Line.readAll file comment.commented = (first ++ ·) <$> (line :: ·) <$>
      Line.readFrom file (1 + comment.before.length + 1) none comment.after := by
    rw [Line.readAll, htext, Line.readFrom_append hfirst, Line.readFrom_line _ hline hopens]
  have hblanked : Line.readAll file comment.blanked = (first ++ ·) <$>
      Line.readFrom file (1 + comment.before.length + 1) none comment.after := by
    rw [Line.readAll, comment.lines_blanked, Line.readFrom_append hfirst, Line.readFrom_blank _ hblank]
  cases hlast : Line.readFrom file (1 + comment.before.length + 1) none comment.after with
  | error e =>
    rw [hlast] at hcommented
    exact .inr ⟨e, hcommented⟩
  | ok last =>
    rw [hlast] at hcommented hblanked
    refine .inl ⟨first, line, last, hfirst, hlast, ?_, hcolumn, hcomment, hcommented, hblanked⟩
    rw [Line.location_of_ofSource? hline, Nat.add_comm]

namespace Reads

theorem not_isHere (h : comment.Reads file first line last) :
    (∀ other ∈ first, ¬comment.isHere other) ∧ ∀ other ∈ last, ¬comment.isHere other := by
  simp only [isHere, decide_eq_true_eq]
  constructor
  · intro other hother
    have := ((Line.readFrom_inOrder h.before).bounds other hother).2
    omega
  · intro other hother
    have := ((Line.readFrom_inOrder h.after).bounds other hother).1
    omega

theorem isHere (h : comment.Reads file first line last) : comment.isHere line := by
  simp [CommentLine.isHere, h.number]

theorem filter_eq (h : comment.Reads file first line last) :
    (first ++ line :: last).filter (!comment.isHere ·) = first ++ last := by
  have hkept : ∀ lines : List Line, (∀ other ∈ lines, ¬comment.isHere other) →
      lines.filter (!comment.isHere ·) = lines := fun lines hlines =>
    List.filter_eq_self.mpr fun other hother => by simpa using hlines other hother
  rw [List.filter_append, List.filter_cons_of_neg (by simp [h.isHere]), hkept first h.not_isHere.1,
    hkept last h.not_isHere.2]

/-- A comment line that can be spared: an empty source line in its place gives the same forest without it. -/
theorem agree (h : comment.Reads file first line last)
    (hspare : (Line.layout (first ++ line :: last)).Spare comment.isHere) :
    Agree False (Forest.Pruned Line.IsComment) (Line.scan file comment.commented)
      (Line.scan file comment.blanked) := by
  rw [Line.scan, Line.scan, h.commented, h.blanked]
  refine .ok ?_
  have hprune := Forest.prune_layout hspare
  rw [h.filter_eq] at hprune
  rw [Line.layout, Line.layout, ← hprune]
  refine hspare.pruned ?_ ?_
  · -- No two lines have the same number.
    rw [Line.layout, Forest.preorder_layout]
    refine (Line.readFrom_inOrder h.commented).pairwise.imp fun hlt hboth => ?_
    simp only [CommentLine.isHere, decide_eq_true_eq] at hboth
    omega
  · rw [Line.layout, Forest.preorder_layout]
    intro other hother hhere
    rcases List.mem_append.mp hother with hother | hother
    · exact absurd hhere (h.not_isHere.1 other hother)
    · rcases List.mem_cons.mp hother with rfl | hother
      · exact h.isComment
      · exact absurd hhere (h.not_isHere.2 other hother)

/-- An empty source line moves the lines after it, and nothing else. -/
theorem scan_source (h : comment.Reads file first line last) : ∃ forest forest',
    Line.scan file comment.blanked = .ok forest ∧ Line.scan file comment.source = .ok forest' ∧
      forest'.Rel (Line.Copy file file) forest := by
  have hstyle : Line.Restyled (comment.before ++ comment.after) 0 (comment.before ++ comment.after)
      (comment.before ++ [] :: comment.after) := by
    refine .insert_at comment.after ?_ (by simp)
    rw [Nat.zero_add]
    exact comment.outside
  have hblanked : Line.scan file comment.blanked = .ok (Line.layout (first ++ last)) := by
    rw [Line.scan, h.blanked]
    rfl
  rcases hstyle.scan comment.lines_source comment.lines_blanked file with
    ⟨forest', forest, hscan', hscan, hrel⟩ | ⟨_, _, _, -, hscan⟩
  · exact ⟨forest, forest', hscan, hscan', hrel⟩
  · cases hscan.symm.trans hblanked

/-! ### Names of files -/

theorem elsewhere (h : comment.Reads file first line last) (file' : Text) :
    ∃ first' line' last', comment.Reads file' first' line' last' := by
  refine (comment.exists_reads file').resolve_right fun ⟨e, he⟩ => ?_
  obtain ⟨lines', hlines', -⟩ := Line.readFrom_elsewhere h.commented file' 1 .none
  cases hlines'.symm.trans he

/-- The forest has the same shape under every name. -/
theorem spare (h : comment.Reads file first line last)
    (hspare : (Line.layout (first ++ line :: last)).Spare comment.isHere) {file' : Text} {first' last' : List Line}
    {line' : Line} (h' : comment.Reads file' first' line' last') :
    (Line.layout (first' ++ line' :: last')).Spare comment.isHere := by
  let R (other other' : Line) : Prop :=
    other.column = other'.column ∧ comment.isHere other = comment.isHere other'
  -- Lines other than the comment line.
  have hothers : ∀ {lines lines' : List Line}, List.Forall₂ Line.SameText lines lines' →
      (∀ other ∈ lines, ¬comment.isHere other) → (∀ other ∈ lines', ¬comment.isHere other) →
      List.Forall₂ R lines lines' := by
    intro lines lines' hsame hlines hlines'
    have hall := (List.forall₂_and_left _ _).mpr ⟨hlines, hsame⟩
    have hall' := (List.forall₂_and_left _ _).mpr ⟨hlines', hall.flip⟩
    refine hall'.flip.imp fun other other' ⟨hother', hother, hline⟩ => ⟨hline.column, ?_⟩
    rw [Bool.eq_false_iff.mpr hother, Bool.eq_false_iff.mpr hother']
  obtain ⟨found, hfound, hfirst⟩ := Line.readFrom_elsewhere h.before file' 1 .none
  cases hfound.symm.trans h'.before
  obtain ⟨found, hfound, hlast⟩ := Line.readFrom_elsewhere h.after file' (1 + comment.before.length + 1) .none
  cases hfound.symm.trans h'.after
  have hlines : List.Forall₂ R (first ++ line :: last) (first' ++ line' :: last') :=
    List.rel_append (hothers hfirst h.not_isHere.1 h'.not_isHere.1)
      (.cons ⟨h.column.trans h'.column.symm, h.isHere.trans h'.isHere.symm⟩
        (hothers hlast h.not_isHere.2 h'.not_isHere.2))
  exact hspare.of_rel (.layout (fun _ _ hline => hline.1) hlines) fun _ _ hline => hline.2

end Reads

end CommentLine

/-! ## Files -/

/-- A comment line changes nothing, if it has nothing below it and is not all that its parent has: with and without it
the source text expands to the same output, or to none, in whatever files it stands. -/
theorem expandFile_commented_iff (comment : CommentLine) {file : Text} {forest : Forest Line}
    (hscan : Line.scan file comment.commented = .ok forest) (hspare : forest.Spare comment.isHere)
    {files files' : FileSystem} (hfiles : FileSystem.Rewritten comment.source comment.commented files files')
    (env : Environment) (params : List (Text × Text)) (path : Text) (output : Output) :
    (∃ depth, { env with files := files' }.expandFile params depth path = some (.ok output)) ↔
      ∃ depth, { env with files }.expandFile params depth path = some (.ok output) := by
  obtain ⟨lines, hlines, rfl⟩ := Except.map_eq_ok hscan
  have hreads : ∃ first line last, comment.Reads file first line last :=
    (comment.exists_reads file).resolve_right fun ⟨e, he⟩ => by cases hlines.symm.trans he
  obtain ⟨first, line, last, hreads⟩ := hreads
  cases hlines.symm.trans hreads.commented
  obtain ⟨between, hbefore, hafter⟩ := hfiles.exists_between comment.blanked
  have hagree : ∀ name, Agree False (Forest.Pruned Line.IsComment) (Line.scan name comment.commented)
      (Line.scan name comment.blanked) := fun name => by
    obtain ⟨first', line', last', hreads'⟩ := hreads.elsewhere name
    exact hreads'.agree (hreads.spare hspare hreads')
  -- With the comment line and with an empty one in its place.
  have hcommented : ∀ depth, { env with files := files' }.expandFile params depth path =
      { env with files := between }.expandFile params depth path := fun depth => by
    have hsame := hafter.symm.sameFiles (Forest.Pruned.refl Line.IsComment) hagree env
    exact expandFile_eq_of_related (Forest.Pruned.refl _) hsame (follows_expand_pruned hsame depth) params path
  simp only [hcommented]
  -- With the empty line and without it.
  refine @expandFile_iff_of_load { env with files := between } { env with files } rfl rfl hbefore.glob.symm
    (fun name => ?_) params path output
  rcases hbefore.read name with hread | ⟨hread, hread'⟩
  · refine .inl ?_
    rw [FileSystem.load, FileSystem.load, hread]
  · obtain ⟨first', line', last', hreads'⟩ := hreads.elsewhere name
    obtain ⟨forest, forest', hscan, hscan', hrel⟩ := hreads'.scan_source
    exact .inr ⟨forest, forest', load_of_scan hread' hscan, load_of_scan hread hscan',
      (hrel.moved rfl).symm.included _ _⟩

/-- A comment with braces at its end in the body of a mixin, between a heredoc and another line. -/
theorem expandFile_commented_iff_body :
    let comment : CommentLine :=
      { before := ["@m($a):".toList, "  x = <<E".toList, "  // $a".toList, "E".toList]
        after := ["  y = $a".toList, "m(1)".toList]
        indent := ['\t', ' ']
        text := " once \x7b\r".toList
        plain := by decide +kernel
        blank := by simp
        oneLine := by decide +kernel
        outside := by decide +kernel }
    let files := Files.ofList [("main.scl".toList, "import \"f.scl\"\n".toList), ("f.scl".toList, comment.source)]
    let env : Environment := { files := files.system }
    let output : Output := .line "x = <<E\n  // 1\nE".toList (.line "y = 1".toList .nil)
    env.expandFile [] 3 "main.scl".toList = some (.ok output) ∧
      ∃ depth, { env with files := (files.insert "f.scl".toList comment.commented).system }.expandFile [] depth
        "main.scl".toList = some (.ok output) := by
  intro comment files env output
  have h : env.expandFile [] 3 "main.scl".toList = some (.ok output) := by decide +kernel
  have hscan : ∃ forest, Line.scan ['f'] comment.commented = .ok forest ∧ forest.Spare comment.isHere :=
    ⟨.cons ⟨⟨['f'], 1⟩, 0, "@m($a):".toList⟩
      (.cons ⟨⟨['f'], 2⟩, 2, "x = <<E\n  // $a\nE".toList⟩ .nil (.cons ⟨⟨['f'], 5⟩, 2, "// once".toList⟩ .nil
        (.cons ⟨⟨['f'], 6⟩, 2, "y = $a".toList⟩ .nil .nil))) (.cons ⟨⟨['f'], 7⟩, 0, "m(1)".toList⟩ .nil .nil),
      by decide +kernel, by decide +kernel⟩
  obtain ⟨forest, hscan, hspare⟩ := hscan
  have hfile : ("f.scl".toList, comment.source) ∈ files := by decide +kernel
  have hfiles := Files.rewritten_insert (Files.sorted_ofList _) hfile comment.commented
  exact ⟨h, (expandFile_commented_iff comment hscan hspare hfiles env [] _ output).mpr ⟨3, h⟩⟩

end Scl
