import Scl.Proofs.Expansion.Outcome
import Scl.Proofs.Line.Folding
import Scl.Proofs.Statement.Classification
import Scl.Proofs.Template.Reading

/-!
# Raw quoting

Any text can be quoted so that it stands for itself: its segments between backticks become raw spans, with
escaped backticks between them. Templates read it back, but comments do not know of the escapes. To them the
spans begin and end elsewhere, and `//` in a segment may cut the line:

* `ofText_raw`: quoted text is read back, and it is an unterminated span without its last backtick;
* `slashes_of_hasComment`: a comment starts at two slashes of the text, in what the template reads as a span;
* `expandFile_rawQuoted`: a line of quoted text expands to the text, or fails, and when;
* `expandFile_rawQuoted_cut`: two slashes after a backtick are lost.
-/

namespace Scl

namespace Text

/-- A text quoted to stand for itself: each segment between its backticks in backticks, and a backslash and a
backtick between the segments. -/
def rawQuoted (text : Text) : Text :=
  join ['\\', backtick] ((text.splitOn backtick).map fun segment => backtick :: segment ++ [backtick])

/-- A character of a text in the quoted text: a backtick ends a span, comes escaped, and starts the next span. -/
def rawChar (c : Char) : Text :=
  if c = backtick then [backtick, '\\', backtick, backtick] else [c]

theorem rawQuoted_eq (text : Text) : rawQuoted text = backtick :: text.flatMap rawChar ++ [backtick] := by
  induction text with
  | nil => rfl
  | cons c rest ih =>
    rw [rawQuoted, List.splitOn] at ih ⊢
    obtain ⟨segment, others, hsplit⟩ := List.exists_cons_of_ne_nil (List.splitOnP_ne_nil (· == backtick) rest)
    rw [List.splitOnP_cons_eq_if_modifyHead, List.flatMap_cons, rawChar]
    rw [hsplit] at ih ⊢
    by_cases hc : c = backtick
    · rw [if_pos (by simpa using hc), if_pos hc]
      rw [List.map_cons] at ih
      simp only [join, List.map_cons, List.intercalate_cons_cons] at ih ⊢
      rw [ih]
      rfl
    · rw [if_neg (by simpa using hc), if_neg hc]
      cases others with
      | nil => simpa [join] using ih
      | cons other others => simpa [join, List.intercalate_cons_cons] using ih

theorem rawQuoted_ne_nil (text : Text) : rawQuoted text ≠ [] := by
  rw [rawQuoted_eq]
  exact List.cons_ne_nil _ _

theorem getLast?_rawQuoted (text : Text) : (rawQuoted text).getLast? = some backtick := by
  rw [rawQuoted_eq]
  exact List.getLast?_concat

theorem rawChar_ne_nil (c : Char) : rawChar c ≠ [] := by
  rw [rawChar]
  split <;> simp

theorem slash_notMem_rawChar {c : Char} (h : c ≠ '/') : '/' ∉ rawChar c := by
  rw [rawChar]
  split
  · decide
  · simpa using h.symm

/-- What stands before and after a slash of a quoted text comes from what stands before and after it in the
text. -/
theorem flatMap_rawChar_slash {text before after : Text}
    (h : text.flatMap rawChar ++ [backtick] = before ++ '/' :: after) :
    ∃ first second, text = first ++ '/' :: second ∧ before = first.flatMap rawChar ∧
      after = second.flatMap rawChar ++ [backtick] := by
  induction text generalizing before with
  | nil =>
    rw [List.flatMap_nil, List.nil_append] at h
    have hmem : '/' ∈ [backtick] := by simp [h]
    exact absurd hmem (by decide)
  | cons c rest ih =>
    rw [List.flatMap_cons, List.append_assoc] at h
    by_cases hslash : c = '/'
    · subst hslash
      cases before with
      | nil =>
        obtain ⟨-, rfl⟩ := List.cons.inj h
        exact ⟨[], rest, rfl, rfl, rfl⟩
      | cons d before =>
        obtain ⟨rfl, hrest⟩ := List.cons.inj h
        obtain ⟨first, second, rfl, rfl, rfl⟩ := ih hrest
        exact ⟨'/' :: first, second, rfl, rfl, rfl⟩
    · obtain ⟨others, rfl, hrest⟩ := append_eq_append_cons (slash_notMem_rawChar hslash) h
      obtain ⟨first, second, rfl, rfl, rfl⟩ := ih hrest
      exact ⟨c :: first, second, rfl, rfl, rfl⟩

theorem flatMap_rawChar_of_notMem {text : Text} (h : backtick ∉ text) : text.flatMap rawChar = text := by
  induction text with
  | nil => rfl
  | cons c rest ih =>
    rw [List.mem_cons, not_or] at h
    rw [List.flatMap_cons, rawChar, if_neg (Ne.symm h.1), ih h.2]
    rfl

end Text

open Text (backtick rawQuoted rawChar HasComment)

/-! ## Templates -/

namespace Template

/-- Reading goes on inside a span. The quoted text is read back, and without the last backtick the last span
has no end. -/
theorem ofText_raw {segment : Text} (h : backtick ∉ segment) (text : Text) :
    ∃ texts : List Text, texts.flatten = segment ++ text ∧
      ofText (backtick :: (segment ++ text.flatMap rawChar ++ [backtick])) = texts.map .text ∧
      ofText (backtick :: (segment ++ text.flatMap rawChar)) = texts.map .text ++ [.unterminated] := by
  induction text generalizing segment with
  | nil =>
    refine ⟨[segment], by simp, ?_, ?_⟩
    · rw [List.flatMap_nil, List.append_nil, ofText_span h]
      rfl
    · rw [List.flatMap_nil, List.append_nil, ofText_span_open h]
      rfl
  | cons c rest ih =>
    rw [List.flatMap_cons, rawChar]
    by_cases hc : c = backtick
    · subst hc
      obtain ⟨texts, htexts, hclosed, hopen⟩ := @ih [] nofun
      -- The span ends, and after an escaped backtick the next one starts.
      have hescape : ∀ rest, ofText (backtick :: (segment ++ ([backtick, '\\', backtick, backtick] ++ rest))) =
          .text segment :: .text [backtick] :: ofText (backtick :: rest) := fun rest => ofText_span h _
      refine ⟨segment :: [backtick] :: texts, ?_, ?_, ?_⟩
      · simp [htexts]
      · rw [if_pos rfl, List.append_assoc, List.append_assoc, hescape]
        rw [List.nil_append] at hclosed
        rw [hclosed]
        rfl
      · rw [if_pos rfl, hescape]
        rw [List.nil_append] at hopen
        rw [hopen]
        rfl
    · have hlonger : backtick ∉ segment ++ [c] := by simp [h, Ne.symm hc]
      obtain ⟨texts, htexts, hclosed, hopen⟩ := ih hlonger
      refine ⟨texts, ?_, ?_, ?_⟩
      · rw [htexts, List.append_assoc]
        rfl
      · rw [if_neg hc, ← List.append_assoc]
        exact hclosed
      · rw [if_neg hc, ← List.append_assoc]
        exact hopen

theorem fill_texts (value? : Text → Option Text) (texts : List Text) :
    fill value? (texts.map .text) = .ok texts.flatten := by
  have hfault : (texts.map Piece.text).findSome? (Piece.fault? value?) = none := by
    simp [List.findSome?_eq_none_iff, Piece.fault?]
  rw [fill, hfault, List.flatMap_map]
  exact congrArg Except.ok (List.flatMap_id ..)

theorem fill_unterminated (value? : Text → Option Text) (texts : List Text) :
    ∃ output, fill value? (texts.map .text ++ [.unterminated]) = .error ⟨.unterminatedBacktick, output⟩ := by
  have hfault : (texts.map Piece.text ++ [Piece.unterminated]).findSome? (Piece.fault? value?) =
      some .unterminatedBacktick := by
    induction texts with
    | nil => rfl
    | cons text texts ih => exact ih
  rw [fill, hfault]
  exact ⟨_, rfl⟩

end Template

/-! ## Files of one line -/

section

variable {path source content : Text} (hlines : Text.lines source = [content]) (hbare : Line.Bare content)

include hlines hbare

theorem Line.scan_single (hopens : heredocMarker? (Text.stripComment content) = none) :
    scan path source = .ok (.cons ⟨⟨path, 1⟩, 0, content⟩ .nil .nil) := by
  have hsource : ofSource? ⟨path, 1⟩ ([] ++ content ++ []) = some ⟨⟨path, 1⟩, 0, content⟩ :=
    hbare.ofSource?_eq ⟨path, 1⟩ nofun nofun
  rw [List.nil_append, List.append_nil] at hsource
  rw [scan, readAll, hlines, readFrom_line _ hsource hopens]
  rfl

theorem Line.scan_single_heredoc {marker : Text} (hopens : heredocMarker? (Text.stripComment content) = some marker) :
    scan path source = .error (.unterminatedHeredoc marker 1) := by
  have hsource : ofSource? ⟨path, 1⟩ ([] ++ content ++ []) = some ⟨⟨path, 1⟩, 0, content⟩ :=
    hbare.ofSource?_eq ⟨path, 1⟩ nofun nofun
  rw [List.nil_append, List.append_nil] at hsource
  rw [scan, readAll, hlines, readFrom_opener _ hsource hopens]
  rfl

/-- A file with a literal line alone. -/
theorem expandFile_literal {env : Environment} (hread : env.files.read path = .ok source)
    (hopens : heredocMarker? (Text.stripComment content) = none) {text : Text}
    (hstatement : Line.statement ⟨⟨path, 1⟩, 0, content⟩ = .ok (.literal text)) (params : List (Text × Text))
    (depth : Nat) :
    env.expandFile params (depth + 1) path =
      some ((((Scopes.ofParams params).fill Scopes.rootId text).mapError (.located ⟨path, 1⟩)).map .leaf) := by
  have hload := Expansion.load_of_scan hread (Line.scan_single hlines hbare hopens)
  have hline : env.expandLine (env.expand depth) (env.expandForest (env.expand depth) [] .nil) []
      ⟨⟨path, 1⟩, 0, content⟩ .nil Scopes.rootId (Scopes.ofParams params) =
        some ((((Scopes.ofParams params).fill Scopes.rootId text).mapError (.located ⟨path, 1⟩)).map .leaf,
          Scopes.ofParams params) := by
    rw [Expansion.expandLine_eq, hstatement]
    show Expansion.literal env.inheritance _ _ .nil text Scopes.rootId _ = _
    rw [Expansion.literal, Expansion.bind_apply, Expansion.ask_apply]
    cases (Scopes.ofParams params).fill Scopes.rootId text <;> rfl
  rw [Environment.expandFile, hload]
  show Option.map Prod.fst (env.expandForest (env.expand depth) [] (.cons _ .nil .nil) Scopes.rootId _) = _
  rw [Environment.expandForest, Expansion.bind_apply, hline]
  cases (Scopes.ofParams params).fill Scopes.rootId text with
  | error cause => rfl
  | ok filled =>
    have happend : Output.leaf filled ++ .nil = Output.leaf filled := by
      rw [Output.leaf]
      split <;> rfl
    exact congrArg (fun output => some (Except.ok output)) happend

end

/-! ## Lines of quoted text -/

/-- A line that gives `x` a value. -/
def entry (value : Text) : Text :=
  'x' :: ' ' :: '=' :: ' ' :: value

theorem trim_entry {value : Text} (h : ∀ c ∈ value.getLast?, ¬Text.isWhiteSpace c) (hne : value ≠ []) {blanks : Text}
    (hblanks : ∀ c ∈ blanks, Text.isWhiteSpace c) : Text.trim (entry (value ++ blanks)) = entry value := by
  have hlast : ∀ c ∈ (entry value).getLast?, ¬Text.isWhiteSpace c := by
    have heq : (entry value).getLast? = value.getLast? :=
      List.getLast?_append_of_ne_nil ['x', ' ', '=', ' '] hne
    rw [heq]
    exact h
  show Text.trimEnd (entry (value ++ blanks)) = entry value
  rw [← Text.dropEndWhile_of_getLast? hlast]
  exact Text.dropEndWhile_append (entry value) hblanks

/-- An entry is a literal, whatever its value. -/
theorem statement_entry {location : Location} {column : Nat} {value rest : Text} (hfeed : '\n' ∉ value)
    (hstrip : Text.stripComment (entry value) = entry rest) :
    Line.statement ⟨location, column, entry value⟩ = .ok (.literal (entry rest)) := by
  have hcode : Line.code ⟨location, column, entry value⟩ = entry rest := by
    rw [Line.code_of_notMem (by simpa [entry] using hfeed), hstrip]
  rw [Line.statement_eq_literal_iff, hcode]
  exact ⟨by simp [entry], ⟨by simp [entry], Bool.false_ne_true, rfl⟩, rfl, rfl⟩

theorem ofText_entry (value : Text) :
    Template.ofText (entry value) = [['x'], [' '], ['='], [' ']].map .text ++ Template.ofText value := by
  rw [entry, Template.ofText_plain (by decide), Template.ofText_plain (by decide),
    Template.ofText_plain (by decide), Template.ofText_plain (by decide)]
  rfl

variable {text : Text}

theorem getLast?_entry_rawQuoted (text : Text) : (entry (rawQuoted text)).getLast? = some backtick := by
  rw [← Text.getLast?_rawQuoted text]
  exact List.getLast?_append_of_ne_nil ['x', ' ', '=', ' '] (Text.rawQuoted_ne_nil text)

theorem bare_entry_rawQuoted (text : Text) : Line.Bare (entry (rawQuoted text)) := by
  refine ⟨by simp [entry], ?_, ?_⟩
  · rintro c ⟨⟩
    decide
  · rw [getLast?_entry_rawQuoted]
    rintro c ⟨⟩
    decide

/-- The quoted text as a value, if no comment cuts it. -/
theorem stripComment_entry_rawQuoted (h : ¬HasComment .outside (entry (rawQuoted text))) :
    Text.stripComment (entry (rawQuoted text)) = entry (rawQuoted text) := by
  have hlast : ∀ c ∈ (rawQuoted text).getLast?, ¬Text.isWhiteSpace c := by
    rw [Text.getLast?_rawQuoted]
    rintro c ⟨⟩
    decide
  have htrim : Text.trim (entry (rawQuoted text ++ [])) = entry (rawQuoted text) :=
    trim_entry hlast (Text.rawQuoted_ne_nil text) nofun
  rw [Text.stripComment_eq, Text.uncommented_eq_self h]
  rwa [List.append_nil] at htrim

/-- A comment in a line of quoted text starts at two slashes of the text. -/
theorem slashes_of_hasComment (h : HasComment .outside (entry (rawQuoted text))) :
    ∃ first second, text = first ++ '/' :: '/' :: second ∧
      Text.uncommented .outside (entry (rawQuoted text)) = entry (backtick :: first.flatMap rawChar) := by
  obtain ⟨after, hcut, -⟩ := h.cut
  have hsplit : entry (rawQuoted text) = entry [backtick] ++ (text.flatMap rawChar ++ [backtick]) := by
    rw [Text.rawQuoted_eq]
    rfl
  rw [hsplit] at hcut
  obtain ⟨others, hothers, hrest⟩ := Text.append_eq_append_cons (by decide) hcut
  obtain ⟨first, second, rfl, rfl, hafter⟩ := Text.flatMap_rawChar_slash hrest
  obtain ⟨blank, second, rfl, hblank, -⟩ := @Text.flatMap_rawChar_slash _ [] after hafter.symm
  -- The second slash comes directly after the first one.
  have hnil : blank = [] := by
    cases blank with
    | nil => rfl
    | cons c blank => exact absurd (List.append_eq_nil_iff.mp hblank.symm).1 (Text.rawChar_ne_nil c)
  subst hnil
  refine ⟨first, second, rfl, ?_⟩
  rw [hsplit, hothers]
  rfl

/-- No comment starts in a raw span. -/
theorem not_hasComment_span {segment : Text} (h : backtick ∉ segment) :
    ¬HasComment (.inside backtick false) (segment ++ [backtick]) := by
  induction segment with
  | nil =>
    rw [List.nil_append, Text.hasComment_cons]
    rintro (⟨⟨⟩, -⟩ | hrest)
    exact Text.hasComment_nil hrest
  | cons c segment ih =>
    rw [List.mem_cons, not_or] at h
    have hstep : (Text.Quoting.inside backtick false).step c = .inside backtick false := by
      simp [Text.Quoting.step, Ne.symm h.1]
    rw [List.cons_append, Text.hasComment_cons, hstep]
    rintro (⟨⟨⟩, -⟩ | hrest)
    exact ih h.2 hrest

theorem not_hasComment_of_notMem (h : backtick ∉ text) : ¬HasComment .outside (entry (rawQuoted text)) := by
  rw [Text.rawQuoted_eq, Text.flatMap_rawChar_of_notMem h, List.cons_append, entry]
  iterate 5
    rw [Text.hasComment_cons]
    rintro (⟨-, ⟨⟩, -⟩ | hrest)
    revert hrest
  exact not_hasComment_span h

/-- What is left of quoted text before a comment: quoted text without its last backtick. -/
theorem stripComment_entry_cut (h : HasComment .outside (entry (rawQuoted text))) :
    ∃ kept : Text, Text.stripComment (entry (rawQuoted text)) = entry (backtick :: kept.flatMap rawChar) := by
  obtain ⟨first, second, -, hcut⟩ := slashes_of_hasComment h
  obtain ⟨blanks, hfirst, hblanks⟩ := Text.exists_dropEndWhile_append Text.isWhiteSpace first
  have hkept := Text.getLast?_dropEndWhile Text.isWhiteSpace first
  generalize Text.dropEndWhile Text.isWhiteSpace first = kept at hfirst hkept
  have hbacktick : backtick ∉ blanks := fun hmem => absurd (hblanks _ hmem) (by decide)
  have hlast : ∀ c ∈ (backtick :: kept.flatMap rawChar).getLast?, ¬Text.isWhiteSpace c := by
    rcases List.eq_nil_or_concat kept with rfl | ⟨before, c, rfl⟩
    · rintro c ⟨⟩
      decide
    · have hc : ¬Text.isWhiteSpace c := hkept c (by simp)
      rw [List.concat_eq_append, List.flatMap_append, List.flatMap_singleton, rawChar, ← List.cons_append]
      split
      · rw [List.getLast?_append_of_ne_nil _ (by simp)]
        rintro c ⟨⟩
        decide
      · rw [List.getLast?_concat]
        rintro c ⟨⟩
        exact hc
  refine ⟨kept, ?_⟩
  rw [Text.stripComment_eq, hcut, hfirst, List.flatMap_append, Text.flatMap_rawChar_of_notMem hbacktick,
    ← List.cons_append]
  exact trim_entry hlast (by simp) hblanks

/-! ## The whole line -/

theorem fill_entry (scopes : Scopes) (id : Nat) (text : Text) :
    scopes.fill id (entry (rawQuoted text)) = .ok (entry text) ∧
      scopes.fill id (entry (backtick :: text.flatMap rawChar)) = .error (.template .unterminatedBacktick) := by
  obtain ⟨texts, htexts, hclosed, hopen⟩ := @Template.ofText_raw [] nofun text
  rw [List.nil_append] at htexts hclosed hopen
  constructor
  · rw [Scopes.fill, ofText_entry, Text.rawQuoted_eq, List.cons_append, hclosed, ← List.map_append,
      Template.fill_texts, List.flatten_append, htexts]
    rfl
  · obtain ⟨output, houtput⟩ :=
      Template.fill_unterminated (scopes.value? id) ([['x'], [' '], ['='], [' ']] ++ texts)
    rw [List.map_append, List.append_assoc] at houtput
    rw [Scopes.fill, ofText_entry, hopen, houtput]

section

variable {env : Environment} {path source : Text} (hread : env.files.read path = .ok source)
  (hlines : Text.lines source = [entry (rawQuoted text)]) (params : List (Text × Text)) (depth : Nat)

include hlines in
theorem feed_notMem_rawQuoted : '\n' ∉ rawQuoted text := by
  have hline := Text.feed_notMem_of_mem_lines source _ (hlines ▸ List.mem_singleton_self _)
  simpa [entry] using hline

include hread hlines

theorem expandFile_of_not_hasComment (h : ¬HasComment .outside (entry (rawQuoted text))) :
    env.expandFile params (depth + 1) path = some (.ok (.line (entry text) .nil)) := by
  have hstrip := stripComment_entry_rawQuoted h
  have hopens : heredocMarker? (Text.stripComment (entry (rawQuoted text))) = none := by
    rw [hstrip]
    apply heredocMarker?_eq_none
    rw [getLast?_entry_rawQuoted]
    rintro c ⟨⟩
    decide
  have hstatement : Line.statement ⟨⟨path, 1⟩, 0, entry (rawQuoted text)⟩ = _ :=
    statement_entry (feed_notMem_rawQuoted hlines) hstrip
  rw [expandFile_literal hlines (bare_entry_rawQuoted text) hread hopens hstatement, (fill_entry _ _ text).1]
  rfl

theorem expandFile_of_hasComment (h : HasComment .outside (entry (rawQuoted text))) :
    ∃ e, env.expandFile params (depth + 1) path = some (.error e) ∧
      (e = .located ⟨path, 1⟩ (.template .unterminatedBacktick) ∨
        ∃ marker, e = .scan path (.unterminatedHeredoc marker 1)) := by
  obtain ⟨kept, hstrip⟩ := stripComment_entry_cut h
  cases hopens : heredocMarker? (Text.stripComment (entry (rawQuoted text))) with
  | some marker =>
    refine ⟨_, ?_, .inr ⟨marker, rfl⟩⟩
    rw [Environment.expandFile, FileSystem.load, hread]
    simp only [Line.scan_single_heredoc hlines (bare_entry_rawQuoted text) hopens]
  | none =>
    have hstatement : Line.statement ⟨⟨path, 1⟩, 0, entry (rawQuoted text)⟩ = _ :=
      statement_entry (feed_notMem_rawQuoted hlines) hstrip
    refine ⟨_, ?_, .inl rfl⟩
    rw [expandFile_literal hlines (bare_entry_rawQuoted text) hread hopens hstatement, (fill_entry _ _ kept).2]
    rfl

end

/-- A file with one line of quoted text expands to a line of that text, with any parameters, if and only if
the quoted text has no `//` that stands outside of quoted spans, escapes left aside. If it has, then the file
fails, for the raw span in which the slashes stand or for a heredoc that seems to start before them. This can
only happen to a text with both a backtick and `//`. -/
theorem expandFile_rawQuoted {env : Environment} {path source text : Text}
    (hread : env.files.read path = .ok source) (hlines : Text.lines source = [entry (rawQuoted text)])
    (params : List (Text × Text)) (depth : Nat) :
    (env.expandFile params (depth + 1) path = some (.ok (.line (entry text) .nil)) ↔
        ¬HasComment .outside (entry (rawQuoted text))) ∧
      (HasComment .outside (entry (rawQuoted text)) →
        backtick ∈ text ∧ ['/', '/'] <:+: text ∧
          ∃ e, env.expandFile params (depth + 1) path = some (.error e) ∧
            (e = .located ⟨path, 1⟩ (.template .unterminatedBacktick) ∨
              ∃ marker, e = .scan path (.unterminatedHeredoc marker 1))) := by
  have hwhole := expandFile_of_not_hasComment hread hlines params depth
  have hcut := expandFile_of_hasComment hread hlines params depth
  refine ⟨⟨fun h hcomment => ?_, hwhole⟩, fun hcomment => ⟨?_, ?_, hcut hcomment⟩⟩
  · obtain ⟨e, he, -⟩ := hcut hcomment
    rw [he] at h
    cases h
  · exact Decidable.byContradiction fun hmem => not_hasComment_of_notMem hmem hcomment
  · obtain ⟨first, second, rfl, -⟩ := slashes_of_hasComment hcomment
    exact ⟨first, second, by simp⟩

/-- References, slashes, quotes, braces and what looks like a heredoc, on both sides of a backtick. -/
theorem expandFile_rawQuoted_quotes :
    let text := "// $x \\$ `'//' \"\x7b\x7d\" <<E".toList
    let files : Files := [(['f'], entry (rawQuoted text) ++ ['\n'])]
    let env : Environment := { files := files.system }
    ¬HasComment .outside (entry (rawQuoted text)) ∧
      env.expandFile [(['x'], ['y'])] 1 ['f'] = some (.ok (.line (entry text) .nil)) := by
  intro text files env
  have hnone : ¬HasComment .outside (entry (rawQuoted text)) := by decide +kernel
  have hread : env.files.read ['f'] = .ok (entry (rawQuoted text) ++ ['\n']) := by decide +kernel
  have hlines : Text.lines (entry (rawQuoted text) ++ ['\n']) = [entry (rawQuoted text)] := by decide +kernel
  exact ⟨hnone, (expandFile_rawQuoted hread hlines [(['x'], ['y'])] 0).1.mpr hnone⟩

/-- Two slashes after a backtick do not survive quoting: to the comment the span that they stand in is two
spans, and the slashes stand after both. -/
theorem expandFile_rawQuoted_cut :
    let text := "`//".toList
    let files : Files := [(['f'], entry (rawQuoted text))]
    let env : Environment := { files := files.system }
    entry (rawQuoted text) = "x = ``\\``//`".toList ∧
      env.expandFile [] 1 ['f'] = some (.error (.located ⟨['f'], 1⟩ (.template .unterminatedBacktick))) ∧
      ¬∀ depth, env.expandFile [] (depth + 1) ['f'] = some (.ok (.line (entry text) .nil)) := by
  intro text files env
  have herror : env.expandFile [] 1 ['f'] =
      some (.error (.located ⟨['f'], 1⟩ (.template .unterminatedBacktick))) := by decide +kernel
  refine ⟨by decide +kernel, herror, fun h => ?_⟩
  have hline := h 0
  rw [herror] at hline
  cases hline

end Scl
