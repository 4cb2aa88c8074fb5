import Scl.Proofs.Expansion.Outcome
import Scl.Proofs.Expansion.Scoping
import Scl.Proofs.Line.Source
import Scl.Proofs.Statement.Location

/-!
# Reading output back

Rendered output is itself a source text. A text is `Plain` if it reads as one line that stands for itself. If
all texts of an output are, then a file with the rendered output expands to the output again:

* `Text.Plain.sources`: the source lines of a plain text are those of one line;
* `Output.Plain.readFrom_lines`: rendered lines are read as the lines that they were rendered from;
* `Output.Laid.layout_eq`: indentation by two spaces a level puts them back below each other;
* `Output.Laid.expandForest_eq`: they expand to themselves, and leave the scopes as they were;
* `expandFile_render`: the round trip.
-/

namespace Scl

/-- A text that reads as itself: the whole of it is one line, which is a literal without references. -/
structure Text.Plain (text : Text) : Prop where
  noReturn : '\r' ∉ text
  scanned : ∃ line, Line.scan [] text = .ok (.cons line .nil .nil) ∧ line.column = 0 ∧ line.content = text ∧
    line.statement = .ok (.literal text)
  filled : Scopes.initial.fill Scopes.rootId text = .ok text

namespace Output

/-- Output with plain texts, whose lines do not look like blocks, and whose blocks look like blocks, also
without a body. -/
inductive Plain : Output → Prop
  | nil : Plain nil
  | line {text : Text} {next : Output} : text.Plain → leaf text = line text nil → Plain next →
    Plain (line text next)
  | block {header : Text} {body next : Output} : header.Plain → '\n' ∉ header →
    (body = nil → leaf header = block header nil nil) → Plain body → Plain next → Plain (block header body next)

/-- The lines of an output at level `depth`, as a forest. -/
inductive Laid : Nat → Output → Forest Line → Prop
  | nil {depth : Nat} : Laid depth nil .nil
  | line {depth : Nat} {text : Text} {next : Output} {line : Line} {forest : Forest Line} :
    line.column = 2 * depth → line.content = text → Laid depth next forest →
    Laid depth (.line text next) (.cons line .nil forest)
  | block {depth : Nat} {header : Text} {body next : Output} {line : Line} {below forest : Forest Line} :
    line.column = 2 * depth → line.content = header → Laid (depth + 1) body below → Laid depth next forest →
    Laid depth (.block header body next) (.cons line below forest)

end Output

/-! ## Plain texts -/

theorem heredocMarker?_ne_nil {text marker : Text} (h : heredocMarker? text = some marker) : marker ≠ [] := by
  rintro rfl
  simp only [heredocMarker?] at h
  split at h
  · rename_i hname
    split at h
    · rw [Option.some.inj h] at hname
      cases hname
    · rw [Option.some.inj h] at hname
      cases hname
    · cases h
  · cases h

namespace Text.Plain

variable {text : Text}

/-- A plain text is a source line on its own, or one that opens a heredoc and those of the heredoc. -/
theorem sources (h : text.Plain) : ∃ line body, lines text = line.content :: body ∧
    text = line.content ++ body.flatMap ('\n' :: ·) ∧ line.column = 0 ∧
    Line.ofSource? line.location line.content = some line ∧ Line.Closes line.opens? body := by
  obtain ⟨line, hscan, hcolumn, hcontent, -⟩ := h.scanned
  obtain ⟨all, hread, hlayout⟩ := Except.map_eq_ok hscan
  obtain rfl : all = [line] := by
    rw [← Forest.preorder_layout Line.column all, ← Line.layout, hlayout]
    rfl
  obtain ⟨blanks, source, opener, body, rest, hsources, hopener, hcloses, rfl⟩ := Line.readFrom_eq_cons hread
  replace hcontent : opener.content ++ body.flatMap ('\n' :: ·) = text := hcontent
  -- Every source line but the opener puts one line feed into the text, and there are no others in it.
  have hfeed : ∀ other ∈ opener.content :: body, '\n' ∉ other := by
    have hlines := feed_notMem_of_mem_lines text
    rw [hsources] at hlines
    refine List.forall_mem_cons.mpr ⟨fun hmem => ?_, fun other hother => hlines other (by simp [hother])⟩
    exact hlines source (by simp) (Line.mem_of_mem_content hopener _ hmem)
  obtain ⟨hfeedOpener, hfeedBody⟩ := List.forall_mem_cons.mp hfeed
  have hlength := length_lines_le text
  rw [← hcontent, List.count_append, List.count_eq_zero_of_not_mem hfeedOpener, count_feed_flatMap hfeedBody,
    hcontent, hsources, List.length_append, List.length_cons, List.length_append] at hlength
  obtain rfl := List.eq_nil_of_length_eq_zero (l := blanks) (by omega)
  obtain rfl := List.eq_nil_of_length_eq_zero (l := rest) (by omega)
  rw [List.nil_append, List.append_nil] at hsources
  -- The first line of the text ends at its first line feed, and that is where the opener ends.
  have hsource : source = opener.content := by
    have hhead := headD_lines h.noReturn
    have hopens : ∀ c ∈ opener.content, (c != '\n') = true := fun c hc => bne_iff_ne.mpr fun heq =>
      hfeedOpener (heq ▸ hc)
    rw [hsources, ← hcontent, List.takeWhile_append_of_pos hopens] at hhead
    cases body with
    | nil => simpa using hhead
    | cons => simpa using hhead
  subst hsource
  refine ⟨opener, body, hsources, hcontent.symm, hcolumn, ?_, hcloses⟩
  rw [Line.location_of_ofSource? hopener]
  exact hopener

theorem ne_nil (h : text.Plain) : text ≠ [] := by
  rintro rfl
  obtain ⟨line, body, hlines, -⟩ := h.sources
  cases hlines

theorem getLast?_ne_feed (h : text.Plain) : text.getLast? ≠ some '\n' := by
  obtain ⟨line, body, hlines, htext, -, -, hcloses⟩ := h.sources
  have hfeed := feed_notMem_of_mem_lines text
  rw [hlines] at hfeed
  cases hopens : line.opens? with
  | none =>
    rw [hopens] at hcloses
    cases hcloses
    rw [htext, List.flatMap_nil, List.append_nil]
    exact fun hlast => hfeed line.content List.mem_cons_self (List.mem_of_getLast? hlast)
  | some marker =>
    rw [hopens] at hcloses
    cases hcloses with
    | @heredoc _ last body _ hlast =>
      have hne : last ≠ [] := by
        rintro rfl
        exact heredocMarker?_ne_nil hopens hlast.symm
      have hsplit : text = (line.content ++ body.flatMap ('\n' :: ·) ++ ['\n']) ++ last := by
        rw [htext]
        simp
      rw [hsplit, List.getLast?_append_of_ne_nil _ hne]
      exact fun hlast => hfeed last (by simp) (List.mem_of_getLast? hlast)

/-- A plain text after spaces is read as one line, which is indented. -/
theorem readFrom_spaces (h : text.Plain) (file : Text) (number count : Nat) (rest : List Text) :
    Line.readFrom file number none (lines (spaces count ++ text) ++ rest) =
      (⟨⟨file, number⟩, count, text⟩ :: ·) <$>
        Line.readFrom file (number + (lines (spaces count ++ text)).length) none rest := by
  obtain ⟨line, body, hlines, htext, -, hsource, hcloses⟩ := h.sources
  have hindent : Line.ofSource? ⟨file, number⟩ (spaces count ++ line.content ++ []) = _ :=
    Line.ofSource?_indent hsource rfl ⟨file, number⟩ count nofun
  rw [List.append_nil] at hindent
  have hline : (⟨⟨file, number⟩, count, text⟩ : Line) = Line.extend ⟨⟨file, number⟩, count, line.content⟩ body := by
    rw [Line.extend, ← htext]
  rw [hline, lines_spaces hlines, List.cons_append, Line.readFrom_closes hindent hcloses, List.length_cons,
    Nat.add_comm body.length, ← Nat.add_assoc]

/-- A plain text without line feeds is read as a line also with blanks or braces after it. -/
theorem readFrom_trailers (h : text.Plain) (hfeed : '\n' ∉ text) (file : Text) (number count : Nat)
    {trailers : Text} (htrailers : ∀ c ∈ trailers, Line.isTrailer c) (rest : List Text) :
    Line.readFrom file number none (lines (spaces count ++ text ++ trailers) ++ rest) =
      (⟨⟨file, number⟩, count, text⟩ :: ·) <$> Line.readFrom file (number + 1) none rest := by
  obtain ⟨line, body, hlines, htext, -, hsource, hcloses⟩ := h.sources
  rw [lines_singleton h.ne_nil hfeed] at hlines
  obtain ⟨rfl, rfl⟩ := List.cons.inj hlines
  have hindent := Line.ofSource?_indent hsource rfl ⟨file, number⟩ count htrailers
  have hread := Line.readFrom_closes hindent hcloses rest
  rw [Line.extend_nil] at hread
  rw [lines_singleton (by simp [h.ne_nil])]
  · exact hread
  · rw [List.mem_append, List.mem_append, not_or, not_or]
    exact ⟨⟨by simp [spaces], hfeed⟩, fun hmem => absurd (htrailers _ hmem) (by decide)⟩

theorem statement_eq (h : text.Plain) {line : Line} (hline : line.content = text) :
    line.statement = .ok (.literal text) := by
  obtain ⟨other, -, -, hcontent, hother⟩ := h.scanned
  have hmoved := Line.statement_moveTo line.location other line.column
  rw [hcontent, hother, ← hline] at hmoved
  rw [← hline]
  exact hmoved

/-- Nothing is bound in the root at first, so a text that can be filled in there has no references. -/
theorem fill_eq (h : text.Plain) (scopes : Scopes) (id : Nat) : scopes.fill id text = .ok text := by
  have hfilled := h.filled
  rw [Scopes.fill] at hfilled ⊢
  cases hfirst : (Template.ofText text).fill (Scopes.initial.value? Scopes.rootId) with
  | error failure => rw [hfirst] at hfilled; cases hfilled
  | ok filled =>
    rw [hfirst] at hfilled
    rw [Template.fill_eq_ok (fun name => .inr ⟨trivial, rfl⟩) hfirst]
    exact hfilled

section

variable (h : text.Plain) {line : Line} (hline : line.content = text) (env : Environment) (run : Expander)
  (inside : Nat → Expansion Output) (above : List Line) {below : Forest Line} (id : Nat) {scopes : Scopes}

include h hline

theorem expandLine_leaf :
    env.expandLine run inside above line .nil id scopes = some (.ok (.leaf text), scopes) := by
  rw [Expansion.expandLine_eq, h.statement_eq hline]
  show Expansion.literal env.inheritance inside line .nil text id scopes = _
  rw [Expansion.literal, Expansion.bind_apply, Expansion.ask_apply, h.fill_eq scopes id]
  rfl

/-- A block gets the output of the lines below, in a scope that is gone afterwards. -/
theorem expandLine_block (hbelow : below.isEmpty = false) (hpos : 0 < scopes.count) {body : Output}
    (hinside : inside scopes.count (scopes.enter env.inheritance id) =
      some (.ok body, scopes.enter env.inheritance id)) :
    env.expandLine run inside above line below id scopes = some (.ok (.block text body .nil), scopes) := by
  rw [Expansion.expandLine_eq, h.statement_eq hline]
  show Expansion.literal env.inheritance inside line below text id scopes = _
  rw [Expansion.literal, Expansion.bind_apply, Expansion.ask_apply, h.fill_eq scopes id]
  simp only [Except.mapError, hbelow, Bool.false_eq_true, if_false, Expansion.bind_apply, Expansion.inScope,
    hinside, Scopes.release_enter _ _ _ hpos, Expansion.pure_apply]

end

end Text.Plain

/-! ## Rendered lines -/

namespace Output

/-- Lines rendered from plain texts can be told apart again. -/
theorem Plain.mem_lines {output : Output} (h : output.Plain) (depth : Nat) :
    ∀ text ∈ output.lines depth, text ≠ [] ∧ text.getLast? ≠ some '\n' ∧ '\r' ∉ text := by
  induction h generalizing depth with
  | nil => exact nofun
  | @line text next htext _ _ ih =>
    refine List.forall_mem_cons.mpr ⟨⟨?_, ?_, ?_⟩, ih depth⟩
    · simp [htext.ne_nil]
    · rw [List.getLast?_append_of_ne_nil _ htext.ne_nil]
      exact htext.getLast?_ne_feed
    · simp [Text.spaces, htext.noReturn]
  | @block header body next hheader hfeed _ _ _ ihBody ihNext =>
    rw [lines]
    split
    · refine List.forall_mem_cons.mpr ⟨?_, ihNext depth⟩
      simp [Text.spaces, hheader.noReturn]
    · refine List.forall_mem_cons.mpr ⟨?_, List.forall_mem_append.mpr ⟨ihBody (depth + 1), ?_⟩⟩
      · simp [Text.spaces, hheader.noReturn]
      · refine List.forall_mem_cons.mpr ⟨?_, ihNext depth⟩
        simp [Text.spaces]

theorem lines_block_of_ne_nil {body : Output} (h : body ≠ nil) (depth : Nat) (header : Text) (next : Output) :
    (block header body next).lines depth = (Text.spaces (2 * depth) ++ header ++ [' ', '{']) ::
      (body.lines (depth + 1) ++ (Text.spaces (2 * depth) ++ ['}']) :: next.lines depth) := by
  cases body with
  | nil => exact absurd rfl h
  | line | block => rfl

/-- Rendered lines are read as the lines that they were rendered from. -/
theorem Plain.readFrom_lines {output : Output} (h : output.Plain) (file : Text) (number depth : Nat) :
    ∃ forest, output.Laid depth forest ∧
      Line.readFrom file number none ((output.lines depth).flatMap Text.lines) = .ok forest.preorder := by
  induction h generalizing number depth with
  | nil => exact ⟨.nil, .nil, rfl⟩
  | @line text next htext _ _ ih =>
    obtain ⟨forest, hlaid, hread⟩ := ih (number + (Text.lines (Text.spaces (2 * depth) ++ text)).length) depth
    refine ⟨.cons ⟨⟨file, number⟩, 2 * depth, text⟩ .nil forest, .line rfl rfl hlaid, ?_⟩
    rw [lines, List.flatMap_cons, htext.readFrom_spaces, hread]
    rfl
  | @block header body next hheader hfeed _ _ _ ihBody ihNext =>
    by_cases hbody : body = .nil
    · subst hbody
      obtain ⟨forest, hlaid, hread⟩ := ihNext (number + 1) depth
      refine ⟨.cons ⟨⟨file, number⟩, 2 * depth, header⟩ .nil forest, .block rfl rfl .nil hlaid, ?_⟩
      have hlines : (Output.block header .nil next).lines depth =
        (Text.spaces (2 * depth) ++ header ++ [' ', '{', '}']) :: next.lines depth := rfl
      rw [hlines, List.flatMap_cons, hheader.readFrom_trailers hfeed _ _ _ (by simp [Line.isTrailer]), hread]
      rfl
    · obtain ⟨below, hbelow, hinside⟩ := ihBody (number + 1) (depth + 1)
      obtain ⟨forest, hlaid, hread⟩ :=
        ihNext (number + 1 + ((body.lines (depth + 1)).flatMap Text.lines).length + 1) depth
      refine ⟨.cons ⟨⟨file, number⟩, 2 * depth, header⟩ below forest, .block rfl rfl hbelow hlaid, ?_⟩
      have hclosing : ∀ c ∈ Text.spaces (2 * depth) ++ ['}'], Line.isTrailer c := by
        refine List.forall_mem_append.mpr ⟨fun c hc => ?_, by simp [Line.isTrailer]⟩
        rw [List.eq_of_mem_replicate hc]
        rfl
      rw [lines_block_of_ne_nil hbody, List.flatMap_cons,
        hheader.readFrom_trailers hfeed _ _ _ (by simp [Line.isTrailer]), List.flatMap_append,
        Line.readFrom_append hinside, List.flatMap_cons, Text.lines_singleton (by simp) (by simp [Text.spaces]),
        List.singleton_append, Line.readFrom_blank _ (Line.ofSource?_eq_none hclosing _), hread]
      rfl

theorem Laid.ranked {depth : Nat} {output : Output} {forest : Forest Line} (h : output.Laid depth forest) :
    forest.Ranked Line.column ∧ ∀ line ∈ forest.heads, line.column = 2 * depth := by
  induction h with
  | nil => exact ⟨.nil, nofun⟩
  | line hcolumn _ _ ih =>
    obtain ⟨hranked, hheads⟩ := ih
    refine ⟨.cons nofun (fun other hother => ?_) .nil hranked, List.forall_mem_cons.mpr ⟨hcolumn, hheads⟩⟩
    exact Nat.le_of_eq ((hheads other hother).trans hcolumn.symm)
  | @block depth _ _ _ _ _ _ hcolumn _ _ _ ihBody ihNext =>
    obtain ⟨hbelow, hinner⟩ := ihBody
    obtain ⟨hranked, hheads⟩ := ihNext
    refine ⟨.cons ?_ (fun other hother => ?_) hbelow hranked, List.forall_mem_cons.mpr ⟨hcolumn, hheads⟩⟩
    · rw [hcolumn]
      exact hbelow.le_rank fun other hother => by rw [hinner other hother]; omega
    · exact Nat.le_of_eq ((hheads other hother).trans hcolumn.symm)

theorem Laid.layout_eq {depth : Nat} {output : Output} {forest : Forest Line} (h : output.Laid depth forest) :
    Line.layout forest.preorder = forest :=
  Forest.layout_preorder h.ranked.1

/-- A file of rendered output has the lines of the output. -/
theorem Plain.scan_render {output : Output} (h : output.Plain) (file : Text) :
    ∃ forest, output.Laid 0 forest ∧ Line.scan file output.render = .ok forest := by
  obtain ⟨forest, hlaid, hread⟩ := h.readFrom_lines file 1 0
  refine ⟨forest, hlaid, ?_⟩
  rw [Line.scan, Line.readAll, render, Text.lines_join (h.mem_lines 0), hread]
  exact congrArg Except.ok hlaid.layout_eq

/-! ## Expansion -/

/-- Plain lines expand to themselves in any scope, and leave all scopes as they were. -/
theorem Laid.expandForest_eq {depth : Nat} {output : Output} {forest : Forest Line}
    (hlaid : output.Laid depth forest) (h : output.Plain) (env : Environment) (run : Expander) (above : List Line)
    (id : Nat) {scopes : Scopes} (hpos : 0 < scopes.count) :
    env.expandForest run above forest id scopes = some (.ok output, scopes) := by
  induction hlaid generalizing above id scopes with
  | nil => rfl
  | @line _ text next line forest _ hcontent _ ih =>
    cases h with
    | line htext hleaf hnext =>
      rw [Environment.expandForest, Expansion.bind_apply, htext.expandLine_leaf hcontent, hleaf]
      simp only [Expansion.bind_apply, ih hnext (line :: above) id hpos]
      rfl
  | @block _ header body next line below forest _ hcontent hbelow _ ihBody ihNext =>
    cases h with
    | block hheader _ hleaf hbody hnext =>
      have hline : env.expandLine run (env.expandForest run [] below) above line below id scopes =
          some (.ok (.block header body .nil), scopes) := by
        cases hbelow with
        | nil => rw [hheader.expandLine_leaf hcontent, hleaf rfl]
        | line | block =>
          refine hheader.expandLine_block hcontent env run _ above id rfl hpos ?_
          exact ihBody hbody [] scopes.count (Nat.succ_pos _)
      rw [Environment.expandForest, Expansion.bind_apply, hline]
      simp only [Expansion.bind_apply, ihNext hnext (line :: above) id hpos]
      rfl

end Output

/-- A file of rendered output expands to the output that was rendered, if all its texts are plain. -/
theorem expandFile_render {output : Output} (h : output.Plain) {env : Environment} {path : Text}
    (hread : env.files.read path = .ok output.render) (params : List (Text × Text)) (depth : Nat) :
    env.expandFile params (depth + 1) path = some (.ok output) := by
  obtain ⟨forest, hlaid, hscan⟩ := h.scan_render path
  have hload := Expansion.load_of_scan hread hscan
  have hpos : 0 < (Scopes.ofParams params).count := by
    rw [(Scopes.ofParams_bare params).1]
    exact Nat.one_pos
  rw [Environment.expandFile, hload]
  show Option.map Prod.fst (env.expandForest (env.expand depth) [] forest Scopes.rootId _) = _
  rw [hlaid.expandForest_eq h env _ [] Scopes.rootId hpos]
  rfl

/-- A heredoc in a block, with a brace in it and its terminator indented, before a block without a body. -/
theorem expandFile_render_heredoc :
    let heredoc := "x = <<E\n \x7d\n  E".toList
    let output : Output := .block ['a'] (.line heredoc (.block ['b'] .nil .nil)) (.line ['#'] .nil)
    let files : Files := [(['f'], "a \x7b\n  x = <<E\n \x7d\n  E\n  b \x7b\x7d\n\x7d\n#".toList)]
    let env : Environment := { files := files.system }
    output.Plain ∧ env.files.read ['f'] = .ok output.render ∧
      env.expandFile [(['x'], ['y'])] 1 ['f'] = some (.ok output) := by
  intro heredoc output files env
  have plain (text : Text) (h : '\r' ∉ text ∧ Line.scan [] text = .ok (.cons ⟨⟨[], 1⟩, 0, text⟩ .nil .nil) ∧
      Line.statement ⟨⟨[], 1⟩, 0, text⟩ = .ok (.literal text) ∧
      Scopes.initial.fill Scopes.rootId text = .ok text) : text.Plain :=
    ⟨h.1, ⟨_, h.2.1, rfl, rfl, h.2.2.1⟩, h.2.2.2⟩
  have hbody : (Output.line heredoc (.block ['b'] .nil .nil)).Plain :=
    .line (plain _ (by decide +kernel)) (by decide +kernel)
      (.block (plain _ (by decide +kernel)) (by decide) (fun _ => by decide +kernel) .nil .nil)
  have hplain : output.Plain :=
    .block (plain _ (by decide +kernel)) (by decide) nofun hbody
      (.line (plain _ (by decide +kernel)) (by decide +kernel) .nil)
  have hread : env.files.read ['f'] = .ok output.render := by decide +kernel
  exact ⟨hplain, hread, expandFile_render hplain hread _ 0⟩

end Scl
