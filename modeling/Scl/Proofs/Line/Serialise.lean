import Scl.Proofs.Line.Folding

/-!
# Forests written as text

A scanned forest can be written as a text again: depth-first, each content after as many tabs as the line is
deep. Scanning that text gives the forest back, with depths for columns:

* `Whole.readFrom_tabs`: the content of a scanned line is read as one line after any number of tabs;
* `readFrom_serialiseFrom`: a written forest is read as lines whose columns are their depths;
* `layout_of_levels`: such lines are laid out as they were before;
* `scan_serialise`: the round trip.
-/

namespace Scl

namespace Text

/-- Where a carriage return stands before line feeds only, no line has one. -/
theorem return_notMem_of_mem_lines {text : Text}
    (h : ∀ before after, text = before ++ '\r' :: after → after.head? = some '\n') :
    ∀ line ∈ lines text, '\r' ∉ line := by
  -- What is left of the text after some characters keeps the condition.
  have hdrop : ∀ first rest : Text, (∀ before after, first ++ rest = before ++ '\r' :: after →
      after.head? = some '\n') → ∀ before after, rest = before ++ '\r' :: after → after.head? = some '\n' := by
    rintro first rest h before after rfl
    exact h (first ++ before) after (List.append_assoc ..).symm
  fun_induction lines text with
  | case1 =>
    intro line hline
    cases hline
  | case2 rest ih => simpa using ih (hdrop ['\n'] rest h)
  | case3 rest ih => simpa using ih (hdrop ['\r', '\n'] rest h)
  | case4 c rest hfeed hreturn hlines ih =>
    have hrest : rest = [] := Decidable.byContradiction fun hne => lines_ne_nil hne hlines
    subst hrest
    have hc : c ≠ '\r' := by
      rintro rfl
      cases h [] [] rfl
    simpa using hc.symm
  | case5 c rest hfeed hreturn line others hlines ih =>
    have hc : c ≠ '\r' := by
      rintro rfl
      have hnext := h [] rest rfl
      obtain ⟨more, rfl⟩ := List.head?_eq_some_iff.mp hnext
      exact hreturn more rfl rfl
    rw [hlines] at ih
    obtain ⟨hline, hothers⟩ := List.forall_mem_cons.mp (ih (hdrop [c] rest h))
    refine List.forall_mem_cons.mpr ⟨?_, hothers⟩
    simpa [hc.symm] using hline

/-- The lines of texts that are written with a line feed after each. -/
theorem lines_flatMap_feed {first : Text} {others : List Text}
    (h : ∀ line ∈ first :: others, '\n' ∉ line ∧ '\r' ∉ line) :
    lines (first ++ others.flatMap ('\n' :: ·) ++ ['\n']) = first :: others := by
  induction others generalizing first with
  | nil =>
    obtain ⟨hfeed, hreturn⟩ := h first List.mem_cons_self
    rw [List.flatMap_nil, List.append_nil, lines_line_feed hfeed hreturn, lines]
  | cons second others ih =>
    obtain ⟨⟨hfeed, hreturn⟩, hothers⟩ := List.forall_mem_cons.mp h
    rw [List.flatMap_cons, List.cons_append, List.append_assoc, List.cons_append, lines_line_feed hfeed hreturn,
      ih hothers]

end Text

namespace Forest

variable {α β : Type}

/-! ## Forests node by node -/

theorem size_map (f : α → β) (forest : Forest α) : (forest.map f).size = forest.size := by
  induction forest with
  | nil => rfl
  | cons root below next ihBelow ihNext => simp only [map, size, ihBelow, ihNext]

theorem roots_map (f : α → β) (forest : Forest α) (first : Nat) :
    (forest.map f).roots first = forest.roots first := by
  induction forest generalizing first with
  | nil => rfl
  | cons root below next _ ihNext => simp only [map, roots, size_map, ihNext]

theorem rows_map (f : α → β) (forest : Forest α) (first : Nat) :
    (forest.map f).rows first = (forest.rows first).map fun row => (f row.1, row.2) := by
  induction forest generalizing first with
  | nil => rfl
  | cons root below next ihBelow ihNext =>
    simp only [map, rows, roots_map, size_map, ihBelow, ihNext, List.map_cons, List.map_append]

theorem levels_map (f : α → β) (forest : Forest α) (depth : Nat) :
    (forest.map f).levels depth = (forest.levels depth).map fun entry => (entry.1, f entry.2) := by
  induction forest generalizing depth with
  | nil => rfl
  | cons root below next ihBelow ihNext =>
    simp only [map, levels, ihBelow, ihNext, List.map_cons, List.map_append]

end Forest

namespace Line

variable {file : Text} {number : Nat}

/-! ## Whole lines -/

/-- A content whose source lines are those of one line. -/
structure Whole (content first : Text) (body : List Text) : Prop where
  eq : content = first ++ body.flatMap ('\n' :: ·)
  bare : Bare first
  closes : Closes (heredocMarker? (Text.stripComment first)) body
  sources : ∀ source ∈ first :: body, '\n' ∉ source ∧ '\r' ∉ source

theorem Folds.whole {sources : List Text} {lines : List Line} (h : Folds file number sources lines)
    (hsources : ∀ source ∈ sources, '\n' ∉ source ∧ '\r' ∉ source) {line : Line} (hline : line ∈ lines) :
    ∃ first body, Whole line.content first body := by
  obtain ⟨before, first, opener, body, rest, rfl, hfirst, hcloses, rfl⟩ := h.origin hline
  obtain ⟨-, hbare, -⟩ := ofSource?_eq_some_iff.mp hfirst
  refine ⟨opener.content, body, rfl, hbare, hcloses, List.forall_mem_cons.mpr ⟨?_, ?_⟩⟩
  · obtain ⟨hfeed, hreturn⟩ := hsources first (by simp)
    have hmem := mem_of_mem_content hfirst
    exact ⟨fun hc => hfeed (hmem _ hc), fun hc => hreturn (hmem _ hc)⟩
  · exact fun source hsource => hsources source (by simp [hsource])

/-- A content at a depth, with its line feed. -/
def indented (depth : Nat) (content : Text) : Text :=
  List.replicate depth '\t' ++ content ++ ['\n']

/-- After tabs and before a line feed a whole content is read as one line again. -/
theorem Whole.readFrom_tabs {content first : Text} {body : List Text} (h : Whole content first body)
    (file : Text) (number depth : Nat) (rest : List Text) :
    readFrom file number none (Text.lines (indented depth content) ++ rest) =
      (⟨⟨file, number⟩, depth, content⟩ :: ·) <$>
        readFrom file (number + (Text.lines (indented depth content)).length) none rest := by
  obtain ⟨hfirst, hbody⟩ := List.forall_mem_cons.mp h.sources
  have hlines : Text.lines (indented depth content) = (List.replicate depth '\t' ++ first) :: body := by
    rw [indented, h.eq, ← List.append_assoc]
    refine Text.lines_flatMap_feed (List.forall_mem_cons.mpr ⟨⟨?_, ?_⟩, hbody⟩)
    · simp [hfirst.1]
    · simp [hfirst.2]
  have hsource : ofSource? ⟨file, number⟩ (List.replicate depth '\t' ++ first) =
      some ⟨⟨file, number⟩, depth, first⟩ := by
    have hwhite : ∀ c ∈ List.replicate depth '\t', Text.isWhiteSpace c := by
      intro c hc
      rw [List.eq_of_mem_replicate hc]
      rfl
    have hread : ofSource? ⟨file, number⟩ (List.replicate depth '\t' ++ first ++ []) = _ :=
      h.bare.ofSource?_eq ⟨file, number⟩ hwhite nofun
    rwa [List.append_nil, List.length_replicate] at hread
  have hline : (⟨⟨file, number⟩, depth, content⟩ : Line) = extend ⟨⟨file, number⟩, depth, first⟩ body := by
    rw [extend, h.eq]
  rw [hlines, hline, List.cons_append, readFrom_closes hsource h.closes, List.length_cons,
    Nat.add_comm body.length, ← Nat.add_assoc]

/-! ## Written forests -/

/-- A forest as a text, with the roots at depth `depth`. -/
def serialiseFrom (depth : Nat) (forest : Forest Line) : Text :=
  (forest.levels depth).flatMap fun (depth, line) => indented depth line.content

/-- A forest as a text: each content on lines of its own, after one tab for each line that it is below. -/
def serialise (forest : Forest Line) : Text :=
  serialiseFrom 0 forest

theorem serialiseFrom_cons (depth : Nat) (root : Line) (below next : Forest Line) :
    serialiseFrom depth (.cons root below next) =
      indented depth root.content ++ (serialiseFrom (depth + 1) below ++ serialiseFrom depth next) := by
  rw [serialiseFrom, Forest.levels, List.flatMap_cons, List.flatMap_append]
  rfl

theorem getLast?_serialiseFrom (depth : Nat) (forest : Forest Line) :
    serialiseFrom depth forest = [] ∨ (serialiseFrom depth forest).getLast? = some '\n' := by
  induction forest generalizing depth with
  | nil => exact .inl rfl
  | cons root below next ihBelow ihNext =>
    right
    have hroot : (indented depth root.content).getLast? = some '\n' := by simp [indented]
    rw [serialiseFrom_cons, List.getLast?_append, List.getLast?_append, hroot]
    rcases ihNext depth with hnext | hnext
    · rcases ihBelow (depth + 1) with hbelow | hbelow
      · simp [hnext, hbelow]
      · simp [hnext, hbelow]
    · simp [hnext]

/-- The text of a forest has nothing of its lines but their contents. -/
theorem serialise_congr {forest forest' : Forest Line} (h : forest'.map content = forest.map content) :
    serialise forest' = serialise forest := by
  have hmap : ∀ forest : Forest Line, serialise forest =
      ((forest.map content).levels 0).flatMap fun (depth, content) => indented depth content := by
    intro forest
    rw [serialise, serialiseFrom, Forest.levels_map, List.flatMap_map]
  rw [hmap, hmap, h]

/-- Written lines are read as lines of the same contents, whose columns are the depths. -/
theorem readFrom_serialiseFrom {forest : Forest Line}
    (h : ∀ line ∈ forest.preorder, ∃ first body, Whole line.content first body) (file : Text)
    (number depth : Nat) :
    ∃ forest' : Forest Line, forest'.map content = forest.map content ∧
      (∀ entry ∈ forest'.levels depth, entry.2.column = entry.1) ∧
      readFrom file number none (Text.lines (serialiseFrom depth forest)) = .ok forest'.preorder := by
  induction forest generalizing number depth with
  | nil => exact ⟨.nil, rfl, nofun, rfl⟩
  | cons root below next ihBelow ihNext =>
    obtain ⟨hroot, hrest⟩ := List.forall_mem_cons.mp h
    obtain ⟨hbelow, hnext⟩ := List.forall_mem_append.mp hrest
    obtain ⟨first, body, hwhole⟩ := hroot
    obtain ⟨below', hbelow', hcolumns, hread⟩ :=
      ihBelow hbelow (number + (Text.lines (indented depth root.content)).length) (depth + 1)
    obtain ⟨next', hnext', hcolumns', hread'⟩ :=
      ihNext hnext (number + (Text.lines (indented depth root.content)).length +
        (Text.lines (serialiseFrom (depth + 1) below)).length) depth
    refine ⟨.cons ⟨⟨file, number⟩, depth, root.content⟩ below' next', ?_, ?_, ?_⟩
    · rw [Forest.map, Forest.map, hbelow', hnext']
    · rw [Forest.levels, List.forall_mem_cons, List.forall_mem_append]
      exact ⟨rfl, hcolumns, hcolumns'⟩
    · rw [serialiseFrom_cons, Text.lines_append (.inr (by simp [indented])), hwhole.readFrom_tabs,
        Text.lines_append (getLast?_serialiseFrom _ below), readFrom_append hread, hread']
      rfl

theorem ranked_of_levels {forest : Forest Line} {depth : Nat}
    (h : ∀ entry ∈ forest.levels depth, entry.2.column = entry.1) :
    forest.Ranked column ∧ ∀ line ∈ forest.heads, line.column = depth := by
  induction forest generalizing depth with
  | nil => exact ⟨.nil, nofun⟩
  | cons root below next ihBelow ihNext =>
    rw [Forest.levels, List.forall_mem_cons, List.forall_mem_append] at h
    obtain ⟨hroot, hbelow, hnext⟩ := h
    obtain ⟨hranked, hinner⟩ := ihBelow hbelow
    obtain ⟨hranked', hheads⟩ := ihNext hnext
    have hcolumn : root.column = depth := hroot
    refine ⟨.cons ?_ (fun line hline => ?_) hranked hranked', List.forall_mem_cons.mpr ⟨hcolumn, hheads⟩⟩
    · rw [hcolumn]
      exact hranked.le_rank fun line hline => Nat.le_of_eq (hinner line hline).symm
    · exact Nat.le_of_eq ((hheads line hline).trans hcolumn.symm)

/-- Lines whose columns are their depths are laid out as they are. -/
theorem layout_of_levels {forest : Forest Line} (h : ∀ entry ∈ forest.levels 0, entry.2.column = entry.1) :
    layout forest.preorder = forest :=
  Forest.layout_preorder (ranked_of_levels h).1

/-- A forest that was scanned from a text without stray carriage returns can be written and scanned again: the
lines have the same numbers, contents and children, the roots are the same, and columns are depths. Writing the
new forest gives the same text. -/
theorem scan_serialise {file source : Text} {forest : Forest Line}
    (hreturns : ∀ before after, source = before ++ '\r' :: after → after.head? = some '\n')
    (h : scan file source = .ok forest) (file' : Text) :
    ∃ forest', scan file' (serialise forest) = .ok forest' ∧
      (forest'.rows 0).map (fun row => (row.1.content, row.2)) =
        (forest.rows 0).map (fun row => (row.1.content, row.2)) ∧
      forest'.roots 0 = forest.roots 0 ∧
      (∀ entry ∈ forest'.levels 0, entry.2.column = entry.1) ∧
      serialise forest' = serialise forest := by
  have hsources : ∀ line ∈ Text.lines source, '\n' ∉ line ∧ '\r' ∉ line := fun line hline =>
    ⟨Text.feed_notMem_of_mem_lines source line hline, Text.return_notMem_of_mem_lines hreturns line hline⟩
  have hwhole : ∀ line ∈ forest.preorder, ∃ first body, Whole line.content first body :=
    fun line hline => (scan_eq_ok h).whole hsources hline
  obtain ⟨forest', hmap, hcolumns, hread⟩ := readFrom_serialiseFrom hwhole file' 1 0
  refine ⟨forest', ?_, ?_, ?_, hcolumns, serialise_congr hmap⟩
  · rw [scan, readAll, serialise, hread]
    exact congrArg Except.ok (layout_of_levels hcolumns)
  · rw [← Forest.rows_map, ← Forest.rows_map, hmap]
  · rw [← Forest.roots_map content, ← Forest.roots_map content, hmap]

/-- Uneven columns, a no-break space, braces and a heredoc whose terminator is indented, with carriage returns. -/
theorem scan_serialise_uneven :
    let source := "  a \x7b\r\n\u00a0   b = <<E\r\n  x\r\n \x7d\r\n E\r\n   c\r\n\x7d\nd".toList
    let forest : Forest Line :=
      .cons ⟨⟨['f'], 1⟩, 2, ['a']⟩
        (.cons ⟨⟨['f'], 2⟩, 4, "b = <<E\n  x\n \x7d\n E".toList⟩ .nil
          (.cons ⟨⟨['f'], 6⟩, 3, ['c']⟩ .nil .nil))
        (.cons ⟨⟨['f'], 8⟩, 0, ['d']⟩ .nil .nil)
    scan ['f'] source = .ok forest ∧
      serialise forest = "a\n\tb = <<E\n  x\n \x7d\n E\n\tc\nd\n".toList ∧
      ∃ forest', scan ['g'] (serialise forest) = .ok forest' ∧
        (forest'.rows 0).map (fun row => (row.1.content, row.2)) =
          (forest.rows 0).map (fun row => (row.1.content, row.2)) ∧
        forest'.roots 0 = forest.roots 0 ∧
        (∀ entry ∈ forest'.levels 0, entry.2.column = entry.1) ∧
        serialise forest' = serialise forest := by
  intro source forest
  have h : scan ['f'] source = .ok forest := by decide +kernel
  have hfeeds : ∀ i < source.length, source[i]? = some '\r' → source[i + 1]? = some '\n' := by decide +kernel
  refine ⟨h, by decide +kernel, scan_serialise (fun before after heq => ?_) h ['g']⟩
  have hfeed := hfeeds before.length (by simp [heq]) (by simp [heq])
  rw [heq, List.getElem?_append_right (by omega), Nat.add_sub_cancel_left, List.getElem?_cons_succ] at hfeed
  exact (List.head?_eq_getElem? ..).trans hfeed

end Line

end Scl
