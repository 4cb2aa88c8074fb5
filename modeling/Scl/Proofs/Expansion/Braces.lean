import Scl.Proofs.Expansion.Rewriting
import Scl.Proofs.Statement.Braces
import Scl.Proofs.Template.Reading

/-!
# Braces around references

A reference `${name}` is read as `$name` is, so that a line may have either:

* `Line.SameTemplate`: lines that differ in how the template of their text is written;
* `follows_rel`, `follows_expand_rel`: forests of such lines expand alike;
* `Reference`: a reference in a source text, with the line and the statement that it stands in;
* `Reference.scan_braced`, `Reference.fails_braced`: what becomes of the source text when the reference gets braces;
* `expandFile_braced`: the outcome is the same, unless nothing but blanks and braces follows the reference on its
  source line.
-/

namespace Scl

open Expansion

/-! ## Lines with the same template -/

/-- The same line, or lines at the same place whose texts have the same template. -/
inductive Line.SameTemplate : Line → Line → Prop
  | refl (line : Line) : SameTemplate line line
  | filled {line line' : Line} {head : Text → Statement} {text text' : Text} : Statement.Filled head →
    line.location = line'.location → line.column = line'.column → line.statement = .ok (head text) →
    line'.statement = .ok (head text') → Template.ofText text = Template.ofText text' → SameTemplate line line'

theorem Scopes.fill_congr {text text' : Text} (h : Template.ofText text = Template.ofText text') (scopes : Scopes)
    (id : Nat) : scopes.fill id text = scopes.fill id text' := by
  rw [fill, fill, h]

namespace Line.SameTemplate

variable {line line' : Line}

theorem column_eq (h : line.SameTemplate line') : line.column = line'.column := by
  cases h with
  | refl => rfl
  | filled _ _ hcolumn => exact hcolumn

/-- Of the text of a line, only the template matters. -/
theorem expandLine_eq (h : line.SameTemplate line') (env : Environment) (run : Expander)
    (inside : Nat → Expansion Output) (above : List Line) (below : Forest Line) (id : Nat) :
    env.expandLine run inside above line below id = env.expandLine run inside above line' below id := by
  cases h with
  | refl => rfl
  | filled hfilled hlocation _ hline hline' htemplate =>
    have hfill := Scopes.fill_congr htemplate
    rw [Expansion.expandLine_eq, Expansion.expandLine_eq, hline, hline']
    cases hfilled with
    | literal => simp only [literal, hfill, hlocation]
    | assignment target => simp only [assignment, hfill, hlocation]

end Line.SameTemplate

namespace Expansion

variable {env env' : Environment}

/-- Forests of lines with the same templates expand alike. -/
theorem follows_rel {run run' : Expander} (hrun : Related False (Forest.Rel Line.SameTemplate) run run')
    (hc : ∀ forest, Confined (run forest)) (hc' : ∀ forest, Confined (run' forest))
    (hfiles : SameFiles False (Forest.Rel Line.SameTemplate) env env') {forest forest' : Forest Line}
    (h : forest.Rel Line.SameTemplate forest') (above above' : List Line) (link : Nat → Nat → Prop) (i j : Nat) :
    Follows False (Scopes.InStep False (Forest.Rel Line.SameTemplate) link i j)
      (env.expandForest run above forest i) (env'.expandForest run' above' forest' j) := by
  induction h generalizing above above' link i j with
  | nil => exact .pure Output.nil
  | @cons line line' below next below' next' hline hbelow _ ihBelow ihNext =>
    have hfollows := follows_expandLine hrun hc hc' hfiles (ihBelow [] []) (confined_expandForest hc env [] below)
      (confined_expandForest hc' env' [] below') above above' line hbelow hbelow.isEmpty_eq link i j
    rw [hline.expandLine_eq env'] at hfollows
    exact .bind hfollows fun here => .bind (ihNext (line :: above) (line' :: above') link i j) fun rest =>
      .pure (here ++ rest)

theorem follows_expand_rel (hfiles : SameFiles False (Forest.Rel Line.SameTemplate) env env') (depth : Nat) :
    Related False (Forest.Rel Line.SameTemplate) (env.expand depth) (env'.expand depth) :=
  related_expand (fun hrun hc hc' _ _ h => follows_rel hrun hc hc' hfiles h [] []) depth

end Expansion

/-- Files of lines with the same templates have the same outcome. -/
theorem expandFile_sameTemplate {env env' : Environment}
    (hfiles : SameFiles False (Forest.Rel Line.SameTemplate) env env') (params : List (Text × Text)) (depth : Nat)
    (path : Text) : env.expandFile params depth path = env'.expandFile params depth path :=
  expandFile_eq_of_related (Forest.Rel.of_refl Line.SameTemplate.refl) hfiles (follows_expand_rel hfiles depth) params
    path

/-- A line that fails wherever it is expanded. -/
def Line.Fails (line : Line) : Prop :=
  ∀ (env : Environment) (run : Expander) (inside : Nat → Expansion Output) (above : List Line) (below : Forest Line)
    (id : Nat) (scopes : Scopes), ∃ e, env.expandLine run inside above line below id scopes = some (.error e, scopes)

theorem Line.Fails.of_fill {line : Line} {head : Text → Statement} {text : Text} (hfilled : Statement.Filled head)
    (hline : line.statement = .ok (head text))
    (hfill : ∀ (scopes : Scopes) (id : Nat), ∃ cause, scopes.fill id text = .error cause) : line.Fails := by
  intro env run inside above below id scopes
  obtain ⟨cause, hcause⟩ := hfill scopes id
  rw [Expansion.expandLine_eq, hline]
  cases hfilled with
  | literal =>
    refine ⟨.located line.location cause, ?_⟩
    show literal env.inheritance inside line below text id scopes = _
    rw [literal, bind_apply, ask_apply, hcause]
    rfl
  | assignment target =>
    show ∃ e, assignment line below target text id scopes = _
    rw [assignment]
    split
    · exact ⟨_, rfl⟩
    · refine ⟨.located line.location cause, ?_⟩
      rw [bind_apply, ask_apply, hcause]
      rfl

/-! ## References in source texts -/

theorem Statement.Filled.moveTo_map {head : Text → Statement} (h : Filled head) (location : Location) (text : Text) :
    moveTo location <$> (.ok (head text) : Except TokenError Statement) = .ok (head text) := by
  cases h <;> rfl

/-- A reference `$name` in a source text, on a line that is a literal or an assignment and no heredoc. -/
structure Reference where
  /-- The source lines before that of the reference. -/
  before : Text
  /-- The white space at the start of the line. -/
  indent : Text
  /-- What stands before the text that is filled in; nothing, in a literal. -/
  start : Text
  /-- What precedes the reference in the text that is filled in. -/
  left : Text
  name : Text
  /-- What follows in the text that is filled in. -/
  right : Text
  /-- What follows in the source text. -/
  after : Text
  line : Line
  head : Text → Statement
  before_ended : before = [] ∨ before.getLast? = some '\n'
  /-- No heredoc is open where the line starts. -/
  before_read : ∃ file lines, Line.readAll file before = .ok lines
  oneLine : '\n' ∉ indent ++ (start ++ left)
  name_ne_nil : name ≠ []
  isNameChar : ∀ c ∈ name, Text.isNameChar c
  line_read : Line.ofSource? line.location
    (indent ++ (start ++ left ++ '$' :: (name ++ (Text.lines after).headD []))) = some line
  column : indent.length = line.column
  opens : line.opens? = none
  /-- Where the text that is filled in stands. -/
  code : line.code = start ++ left ++ '$' :: (name ++ right)
  filled : Statement.Filled head
  statement : line.statement = .ok (head (left ++ '$' :: (name ++ right)))
  /-- All of the name is taken. -/
  maximal : ∀ c ∈ right.head?, ¬Text.isNameChar c
  /-- The `$` is not escaped, and it stands neither in a raw span nor in a run of them. -/
  reaches : Template.Reaches ('$' :: (name ++ right)) left

namespace Reference

variable (reference : Reference)

/-- The source line up to the reference. -/
def front : Text :=
  reference.indent ++ (reference.start ++ reference.left)

/-- The source text. -/
def source : Text :=
  reference.before ++ (reference.front ++ '$' :: (reference.name ++ reference.after))

/-- The source text with braces around the name. -/
def braced : Text :=
  reference.before ++ (reference.front ++ '$' :: '{' :: (reference.name ++ '}' :: reference.after))

/-- The rest of the source line after the reference. -/
def rest : Text :=
  (Text.lines reference.after).headD []

theorem feed_notMem_name : '\n' ∉ reference.name :=
  fun hmem => absurd (reference.isNameChar _ hmem) (by decide)

/-- The source lines of a text that differs from the source text in what stands in the place of the reference. -/
theorem lines_eq {middle : Text} (hfeed : '\n' ∉ middle) {last : Char} (hlast : middle.getLast? = some last)
    (hreturn : last ≠ '\r') :
    Text.lines (reference.before ++ (reference.front ++ (middle ++ reference.after))) =
      Text.lines reference.before ++
        (reference.front ++ (middle ++ reference.rest)) :: (Text.lines reference.after).tail := by
  have hne : middle ≠ [] := by
    rintro rfl
    cases hlast
  rw [Text.lines_append reference.before_ended, ← List.append_assoc, Text.lines_start, List.append_assoc]
  · rfl
  · exact List.not_mem_append reference.oneLine hfeed
  · simp [hne]
  · rw [List.getLast?_append_of_ne_nil _ hne, hlast]
    simpa using hreturn

theorem lines_source : Text.lines reference.source = Text.lines reference.before ++
    (reference.front ++ '$' :: (reference.name ++ reference.rest)) :: (Text.lines reference.after).tail := by
  obtain ⟨others, last, hname⟩ := List.eq_nil_or_concat reference.name |>.resolve_left reference.name_ne_nil
  have hlast : ('$' :: reference.name).getLast? = some last := by
    rw [hname, List.concat_eq_append, ← List.cons_append, List.getLast?_concat]
  have hreturn : last ≠ '\r' := by
    rintro rfl
    exact absurd (reference.isNameChar '\r' (by simp [hname])) (by decide)
  exact reference.lines_eq (by simpa using reference.feed_notMem_name) hlast hreturn

theorem lines_braced : Text.lines reference.braced = Text.lines reference.before ++
    (reference.front ++ '$' :: '{' :: (reference.name ++ '}' :: reference.rest)) ::
      (Text.lines reference.after).tail := by
  have hlast : ('$' :: '{' :: (reference.name ++ ['}'])).getLast? = some '}' := by
    rw [← List.cons_append, ← List.cons_append, List.getLast?_concat]
  have hlines := reference.lines_eq (by simpa using reference.feed_notMem_name) hlast (by decide)
  simpa [braced] using hlines

theorem feed_notMem_rest : '\n' ∉ reference.rest := by
  rw [rest]
  cases hlines : Text.lines reference.after with
  | nil => exact List.not_mem_nil
  | cons line others => exact Text.feed_notMem_of_mem_lines reference.after line (hlines ▸ List.mem_cons_self)

/-- The line of the reference at another location. -/
theorem line_at (location : Location) : ∃ line,
    Line.ofSource? location (reference.indent ++ (reference.start ++ reference.left ++
      '$' :: (reference.name ++ reference.rest))) = some line ∧
    reference.indent.length = line.column ∧ line.opens? = none ∧ '\n' ∉ line.content ∧
    line.code = reference.start ++ reference.left ++ '$' :: (reference.name ++ reference.right) ∧
    line.statement = .ok (reference.head (reference.left ++ '$' :: (reference.name ++ reference.right))) := by
  have hstatement := Line.statement_moveTo location reference.line reference.line.column
  rw [reference.statement, reference.filled.moveTo_map] at hstatement
  have hfeed : '\n' ∉ reference.line.content := fun hmem => by
    have hsource := Line.mem_of_mem_content reference.line_read _ hmem
    rw [← List.append_assoc] at hsource
    rcases List.mem_append.mp hsource with hfront | hsource
    · exact reference.oneLine hfront
    · rcases List.mem_append.mp (List.mem_of_ne_of_mem (by decide) hsource) with hname | hrest
      · exact reference.feed_notMem_name hname
      · exact reference.feed_notMem_rest hrest
  refine ⟨{ reference.line with location }, ?_, reference.column, reference.opens, hfeed, reference.code, hstatement⟩
  rw [Line.ofSource?_elsewhere reference.line.location, rest, reference.line_read, Option.map_some]

/-- The line with braces. The closing one is lost if nothing but blanks and braces follows. -/
theorem line_braced (location : Location) : ∃ line line' braced,
    Line.ofSource? location (reference.front ++ '$' :: (reference.name ++ reference.rest)) = some line ∧
    Line.ofSource? location (reference.front ++ '$' :: '{' :: (reference.name ++ '}' :: reference.rest)) = some line' ∧
    line.location = line'.location ∧ line.column = line'.column ∧ line.opens? = none ∧ line'.opens? = none ∧
    line.statement = .ok (reference.head (reference.left ++ '$' :: (reference.name ++ reference.right))) ∧
    line'.statement = .ok (reference.head (reference.left ++ '$' :: (braced ++ reference.right))) ∧
    ((∃ c ∈ reference.rest, ¬Line.isTrailer c) ∧ braced = '{' :: (reference.name ++ ['}']) ∨
      (∀ c ∈ reference.rest, Line.isTrailer c) ∧ braced ++ reference.right = '{' :: reference.name) := by
  obtain ⟨line, hread, hcolumn, hopens, hfeed, hcode, hstatement⟩ := reference.line_at location
  obtain ⟨braced, kept, line', hcontent, hcontent', hlocation', hcolumn', hread', hcases⟩ :=
    Line.ofSource?_braced reference.name_ne_nil reference.isNameChar hread hcolumn
  have hbraced : Text.Braced reference.name braced := by
    rcases hcases with ⟨-, rfl⟩ | ⟨-, rfl, -⟩
    · exact .closed
    · exact .opened
  obtain ⟨-, hbare, -⟩ := Line.ofSource?_eq_some_iff.mp hread
  obtain ⟨-, hright, -, hopens'⟩ :=
    Line.code_braced reference.isNameChar hbraced hfeed hbare.head hcontent hcontent' hcode
  have hstatement' := Line.statement_braced reference.isNameChar hbraced hfeed hbare.head hcontent hcontent' hcode
    reference.filled hstatement
  simp only [front, List.append_assoc] at hread hread' ⊢
  refine ⟨line, line', braced, hread, hread', hlocation', hcolumn', hopens, hopens' hopens, hstatement, hstatement', ?_⟩
  refine hcases.imp_right fun hopened => ⟨hopened.1, ?_⟩
  rw [hopened.2.1, hright hopened.2.2, List.append_nil]

theorem scan_braced (h : ∃ c ∈ reference.rest, ¬Line.isTrailer c) (file : Text) :
    Agree False (Forest.Rel Line.SameTemplate) (Line.scan file reference.source) (Line.scan file reference.braced) := by
  obtain ⟨_, _, hbefore⟩ := reference.before_read
  obtain ⟨lines, hlines, -⟩ := Line.readFrom_elsewhere hbefore file 1 .none
  obtain ⟨line, line', braced, hline, hline', hlocation, hcolumn, hopens, hopens', hstatement, hstatement', hcases⟩ :=
    reference.line_braced ⟨file, 1 + (Text.lines reference.before).length⟩
  have hsame : line.SameTemplate line' := by
    rcases hcases with ⟨-, rfl⟩ | ⟨hall, -⟩
    · have htemplate := Template.ofText_braced reference.name_ne_nil reference.isNameChar reference.maximal
        reference.reaches
      refine .filled reference.filled hlocation hcolumn hstatement hstatement' ?_
      rw [← htemplate]
      simp
    · obtain ⟨c, hc, hstays⟩ := h
      exact absurd (hall c hc) hstays
  rw [Line.scan, Line.scan, Line.readAll, Line.readAll, lines_source, lines_braced, Line.readFrom_append hlines,
    Line.readFrom_append hlines, Line.readFrom_line _ hline hopens, Line.readFrom_line _ hline' hopens']
  cases Line.readFrom file (1 + (Text.lines reference.before).length + 1) none (Text.lines reference.after).tail with
  | error e => exact .error e
  | ok others =>
    refine .ok (Forest.Rel.layout (fun _ _ h => h.column_eq) ?_)
    have hrefl : ∀ lines : List Line, List.Forall₂ Line.SameTemplate lines lines :=
      fun lines => List.forall₂_same.mpr fun line _ => .refl line
    exact List.rel_append (hrefl lines) (.cons hsame (hrefl others))

/-- At the end of a source line the braces make the line fail. -/
theorem fails_braced (h : ∀ c ∈ reference.rest, Line.isTrailer c) (location : Location) : ∃ line',
    Line.ofSource? location (reference.front ++ '$' :: '{' :: (reference.name ++ '}' :: reference.rest)) = some line' ∧
      line'.Fails := by
  obtain ⟨_, line', braced, -, hline', -, -, -, -, -, hstatement', ⟨⟨c, hc, hstays⟩, -⟩ | ⟨-, hopened⟩⟩ :=
    reference.line_braced location
  · exact absurd (h c hc) hstays
  · refine ⟨line', hline', .of_fill reference.filled hstatement' fun scopes id => ?_⟩
    obtain ⟨failure, hfill⟩ := Template.fill_open reference.name_ne_nil reference.isNameChar reference.reaches
      (scopes.value? id)
    rw [hopened, Scopes.fill, hfill]
    exact ⟨_, rfl⟩

end Reference

/-- Braces around the name of a reference change nothing, wherever the source text is read: in the file that is
expanded, or in any file that is imported. But if nothing other than blanks and braces follows the reference on its
source line, then the closing brace is dropped with them, and the line fails wherever it is expanded. -/
theorem expandFile_braced (reference : Reference) {files files' : FileSystem}
    (hfiles : FileSystem.Rewritten reference.source reference.braced files files') (env : Environment)
    (params : List (Text × Text)) (depth : Nat) (path : Text) :
    ((∃ c ∈ reference.rest, ¬Line.isTrailer c) →
        { env with files := files' }.expandFile params depth path =
          { env with files }.expandFile params depth path) ∧
      ((∀ c ∈ reference.rest, Line.isTrailer c) → ∀ location, ∃ line,
        Line.ofSource? location (reference.front ++ '$' :: '{' :: (reference.name ++ '}' :: reference.rest)) =
          some line ∧ line.Fails) := by
  refine ⟨fun h => ?_, reference.fails_braced⟩
  have hsame := hfiles.sameFiles (Forest.Rel.of_refl Line.SameTemplate.refl) (reference.scan_braced h) env
  exact (expandFile_sameTemplate hsame params depth path).symm

/-- The reference of `x\$$v/b // c`, after an escaped `$` and before a comment, in a block. -/
def Reference.escaped : Reference where
  before := "block\n".toList
  indent := "  ".toList
  start := []
  left := "x\\$".toList
  name := ['v']
  right := ['/', 'b']
  after := "/b // c\n".toList
  line := ⟨⟨"f.scl".toList, 2⟩, 2, "x\\$$v/b // c".toList⟩
  head := .literal
  before_ended := .inr (by decide +kernel)
  before_read := ⟨"f.scl".toList, [⟨⟨"f.scl".toList, 1⟩, 0, "block".toList⟩], by decide +kernel⟩
  oneLine := by decide +kernel
  name_ne_nil := by decide
  isNameChar := List.forall_mem_singleton.mpr (by decide)
  line_read := by decide +kernel
  column := by decide +kernel
  opens := by decide +kernel
  code := by decide +kernel
  filled := .literal
  statement := by decide +kernel
  maximal := by
    rintro c ⟨⟩
    decide
  reaches := @Template.Reaches.step _ _ [] _ (by decide +kernel)
    (@Template.Reaches.step _ _ ['$'] _ (by decide +kernel) .here)

/-- Braces around the reference, in a file that is imported. -/
theorem expandFile_braced_escaped :
    let reference := Reference.escaped
    let files := Files.ofList
      [("main.scl".toList, "import \"f.scl\"".toList), ("f.scl".toList, reference.source)]
    let env : Environment := { files := files.system }
    let output : Output := .block "block".toList (.block "x$1/b".toList .nil .nil) .nil
    reference.source = "block\n  x\\$$v/b // c\n".toList ∧
      reference.braced = "block\n  x\\$$\x7bv\x7d/b // c\n".toList ∧
      env.expandFile [(['v'], ['1'])] 2 "main.scl".toList = some (.ok output) ∧
      { env with files := (files.insert "f.scl".toList reference.braced).system }.expandFile [(['v'], ['1'])] 2
        "main.scl".toList = some (.ok output) := by
  intro reference files env output
  have houtput : env.expandFile [(['v'], ['1'])] 2 "main.scl".toList = some (.ok output) := by decide +kernel
  have hfile : ("f.scl".toList, reference.source) ∈ files := by decide +kernel
  have hfiles := Files.rewritten_insert (Files.sorted_ofList _) hfile reference.braced
  refine ⟨by decide +kernel, by decide +kernel, houtput, ?_⟩
  have hrest : ∃ c ∈ reference.rest, ¬Line.isTrailer c := ⟨'/', by decide +kernel, by decide⟩
  exact ((expandFile_braced reference hfiles env _ 2 _).1 hrest).trans houtput

/-- The reference of `x = $n`, at the end of a line. -/
def Reference.lineEnd : Reference where
  before := []
  indent := []
  start := []
  left := "x = ".toList
  name := ['n']
  right := []
  after := []
  line := ⟨⟨"main.scl".toList, 1⟩, 0, "x = $n".toList⟩
  head := .literal
  before_ended := .inl rfl
  before_read := ⟨"main.scl".toList, [], rfl⟩
  oneLine := by decide +kernel
  name_ne_nil := by decide
  isNameChar := List.forall_mem_singleton.mpr (by decide)
  line_read := by decide +kernel
  column := rfl
  opens := by decide +kernel
  code := by decide +kernel
  filled := .literal
  statement := by decide +kernel
  maximal := nofun
  reaches := @Template.Reaches.step _ _ [] _ (by decide +kernel) (@Template.Reaches.step _ _ [] _ (by decide +kernel)
    (@Template.Reaches.step _ _ [] _ (by decide +kernel) (@Template.Reaches.step _ _ [] _ (by decide +kernel) .here)))

/-- At the end of a line the closing brace is dropped, and what is left of the reference cannot be filled in. -/
theorem expandFile_braced_lineEnd :
    let reference := Reference.lineEnd
    let files := Files.ofList [("main.scl".toList, reference.source)]
    let env : Environment := { files := files.system }
    let env' : Environment := { files := (files.insert "main.scl".toList reference.braced).system }
    reference.source = "x = $n".toList ∧ reference.braced = "x = $\x7bn\x7d".toList ∧
      env.expandFile [(['n'], ['v'])] 1 "main.scl".toList = some (.ok (.line "x = v".toList .nil)) ∧
      env'.expandFile [(['n'], ['v'])] 1 "main.scl".toList =
        some (.error (.located ⟨"main.scl".toList, 1⟩ (.template (.unclosedBrace ['n'])))) := by
  decide +kernel

end Scl
