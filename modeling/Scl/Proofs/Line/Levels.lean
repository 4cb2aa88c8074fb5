import Scl.Proofs.Forest.Nearest
import Scl.Proofs.Line.Reading

/-!
# Layout with a stack of levels

Lines can also be laid out in one pass from the first to the last, with a stack of the indentation levels
that are open. A line leaves the levels that are deeper than it. It then belongs to the level on top, if
that has its column, or opens a level below the line added last; a line that is shallower than all others
moves the lowest level.

* `Level.settle`: the level to which a line belongs;
* `Table.build`: the table of lines, children and roots that this gives;
* `build_eq_layout`: it is the table of the layout;
* `scan_nearest`: the forest of a source text, by the columns of its lines.
-/

namespace Scl.Line

/-! ## Levels -/

/-- An indentation level that is open. -/
structure Level where
  indent : Nat
  /-- The line that the level hangs below, unless it is the lowest level. -/
  parent? : Option Nat
  /-- The line added last. -/
  last? : Option Nat
  deriving DecidableEq, Repr

namespace Level

/-- The level of a line that is no shallower than the level on top, with the levels under it. A deeper
line opens a level below the line added last. -/
def host (level : Level) (column : Nat) (under : List Level) : Level × List Level :=
  match level.last? with
  | some last => if level.indent < column then (⟨column, some last, none⟩, level :: under) else (level, under)
  | none => (level, under)

/-- The level of a line at `column`, with the levels under it, from the level on top and those under it. -/
def settle (column : Nat) (level : Level) : List Level → Level × List Level
  | [] => ({ level with indent := min column level.indent } : Level).host column []
  | next :: under =>
    if column < level.indent then settle column next under else level.host column (next :: under)

/-- A stack of levels that all have lines: each is deeper than the one under it, and hangs below the line
added last there. -/
inductive Stacked : Level → List Level → Prop
  | lowest {indent last : Nat} : Stacked ⟨indent, none, some last⟩ []
  | above {indent last : Nat} {next : Level} {under : List Level} : next.indent < indent →
    Stacked next under → Stacked ⟨indent, next.last?, some last⟩ (next :: under)

/-- The line added last to the topmost level that is shallower than `column`. -/
def search (column : Nat) (levels : List Level) : Option Nat :=
  (levels.find? (·.indent < column)).bind (·.last?)

theorem search_cons_of_lt {column : Nat} {level : Level} (h : level.indent < column) (under : List Level) :
    search column (level :: under) = level.last? := by
  rw [search, List.find?_cons_of_pos (by simpa using h), Option.bind_some]

theorem search_cons_of_le {column : Nat} {level : Level} (h : column ≤ level.indent) (under : List Level) :
    search column (level :: under) = search column under := by
  rw [search, List.find?_cons_of_neg (by simpa using h), search]

/-- What `settle` finds is a level of the line's column below the line that `search` finds, and whatever
is searched for at smaller columns is found as before. -/
structure Settled (column : Nat) (levels : List Level) (found : Level × List Level) : Prop where
  indent : found.1.indent = column
  parent : found.1.parent? = search column levels
  stacked (last : Nat) : Stacked { found.1 with last? := some last } found.2
  under (smaller : Nat) : smaller ≤ column → search smaller found.2 = search smaller levels

theorem Stacked.settled_host {level : Level} {under : List Level} (h : Stacked level under) {column : Nat}
    (hle : level.indent ≤ column) : Settled column (level :: under) (level.host column under) := by
  by_cases hlt : level.indent < column
  · have hhost : ∃ last, level.last? = some last ∧
        level.host column under = (⟨column, some last, none⟩, level :: under) := by
      cases h <;> exact ⟨_, rfl, if_pos hlt⟩
    obtain ⟨last, hlast, hhost⟩ := hhost
    rw [hhost]
    refine ⟨rfl, ?_, fun _ => ?_, fun _ _ => rfl⟩
    · rw [search_cons_of_lt hlt, hlast]
    · rw [← hlast]
      exact .above hlt h
  · have hcolumn : level.indent = column := by omega
    have hhost : level.host column under = (level, under) := by
      cases h <;> exact if_neg hlt
    rw [hhost]
    refine ⟨hcolumn, ?_, fun last => ?_, fun smaller hsmaller => ?_⟩
    · rw [search_cons_of_le (by omega)]
      cases h with
      | lowest => rfl
      | above hdeeper _ => rw [search_cons_of_lt (hcolumn ▸ hdeeper)]
    · cases h with
      | lowest => exact .lowest
      | above hdeeper hunder => exact .above hdeeper hunder
    · rw [search_cons_of_le (by omega)]

theorem Stacked.settled {level : Level} {under : List Level} (h : Stacked level under) (column : Nat) :
    Settled column (level :: under) (level.settle column under) := by
  induction h with
  | @lowest indent last =>
    rw [settle]
    have hmoved : Stacked ⟨min column indent, none, some last⟩ [] := .lowest
    obtain ⟨hindent, hparent, hstacked, hunder⟩ := hmoved.settled_host (Nat.min_le_left column indent)
    -- A search does not tell the moved level from the old one, unless the line is deeper than both.
    have hsearch : ∀ smaller ≤ column, search smaller [⟨min column indent, none, some last⟩] =
        search smaller [⟨indent, none, some last⟩] := by
      intro smaller hsmaller
      by_cases hlt : indent < smaller
      · rw [search_cons_of_lt (by simp only; omega), search_cons_of_lt hlt]
      · rw [search_cons_of_le (by simp only; omega), search_cons_of_le (by simp only; omega)]
    exact ⟨hindent, hparent.trans (hsearch column (Nat.le_refl _)), hstacked,
      fun smaller hsmaller => (hunder smaller hsmaller).trans (hsearch smaller hsmaller)⟩
  | @above indent last next under hdeeper hnext ih =>
    rw [settle]
    split
    · rename_i hlt
      refine ⟨ih.indent, ?_, ih.stacked, fun smaller hsmaller => ?_⟩
      · rw [ih.parent, search_cons_of_le (Nat.le_of_lt hlt)]
      · rw [ih.under smaller hsmaller, search_cons_of_le (Nat.le_of_lt (Nat.lt_of_le_of_lt hsmaller hlt))]
    · rename_i hlt
      exact (Stacked.above hdeeper hnext).settled_host (Nat.le_of_not_lt hlt)

end Level

/-! ## Tables -/

/-- Lines with the numbers of their children, and the numbers of the roots. -/
structure Table where
  rows : List (Line × List Nat) := []
  roots : List Nat := []
  deriving DecidableEq, Repr

namespace Table

/-- The table with one more line below `parent?`. -/
def add (table : Table) (parent? : Option Nat) (line : Line) : Table :=
  let number := table.rows.length
  let rows := table.rows ++ [(line, [])]
  match parent? with
  | none => { rows, roots := table.roots ++ [number] }
  | some parent =>
    { table with rows := rows.modify parent fun (other, children) => (other, children ++ [number]) }

/-- A layout in progress: the open levels and the table of the lines so far. -/
structure Progress where
  level : Level
  under : List Level
  table : Table

def Progress.place (progress : Progress) (line : Line) : Progress :=
  let (level, under) := progress.level.settle line.column progress.under
  { level := { level with last? := some progress.table.rows.length }
    under
    table := progress.table.add level.parent? line }

def build : List Line → Table
  | [] => {}
  | first :: rest =>
    ((first :: rest).foldl Progress.place ⟨⟨first.column, none, none⟩, [], {}⟩).table

/-- The table of some lines whose parents a function gives. -/
structure Shows (table : Table) (parent : Nat → Option Nat) (lines : List Line) : Prop where
  nodes : table.rows.map Prod.fst = lines
  children : table.rows.map Prod.snd = (List.range lines.length).map fun j =>
    (List.range lines.length).filter (parent · = some j)
  roots : table.roots = (List.range lines.length).filter (parent · = none)

theorem Shows.unique {table other : Table} {parent : Nat → Option Nat} {lines : List Line}
    (h : table.Shows parent lines) (h' : other.Shows parent lines) : table = other := by
  obtain ⟨rows, roots⟩ := table
  obtain ⟨rows', roots'⟩ := other
  have hrows : rows = rows' :=
    (List.zip_of_prod h.nodes h.children).trans (List.zip_of_prod h'.nodes h'.children).symm
  have hroots : roots = roots' := h.roots.trans h'.roots.symm
  rw [hrows, hroots]

theorem shows_empty (parent : Nat → Option Nat) : ({} : Table).Shows parent [] :=
  ⟨rfl, rfl, rfl⟩

section

variable (rows : List (Line × List Nat)) (parent : Nat) (f : List Nat → List Nat)

theorem map_fst_modify :
    (rows.modify parent fun (line, children) => (line, f children)).map Prod.fst = rows.map Prod.fst := by
  induction rows generalizing parent with
  | nil => rw [List.modify_nil]
  | cons row rows ih =>
    cases parent with
    | zero => rfl
    | succ parent => exact congrArg (row.1 :: ·) (ih parent)

theorem map_snd_modify :
    (rows.modify parent fun (line, children) => (line, f children)).map Prod.snd =
      (rows.map Prod.snd).modify parent f := by
  induction rows generalizing parent with
  | nil => rw [List.modify_nil, List.map_nil, List.modify_nil]
  | cons row rows ih =>
    cases parent with
    | zero => rfl
    | succ parent => exact congrArg (row.2 :: ·) (ih parent)

end

/-- A line is added below its parent, which is among the lines before it. -/
theorem Shows.add {table : Table} {parent : Nat → Option Nat} {lines : List Line}
    (h : table.Shows parent lines) (hparent : ∀ i j, parent i = some j → j < i) (line : Line) :
    (table.add (parent lines.length) line).Shows parent (lines ++ [line]) := by
  have hlength : table.rows.length = lines.length := by rw [← h.nodes, List.length_map]
  have hchildren : ∀ j, (List.range (lines.length + 1)).filter (parent · = some j) =
      (List.range lines.length).filter (parent · = some j) ++
        if parent lines.length = some j then [lines.length] else [] := by
    intro j
    rw [List.range_succ, List.filter_append, List.filter_cons, List.filter_nil]
    simp only [decide_eq_true_eq]
  -- The new line itself has no children yet.
  have hnone : (List.range lines.length).filter (parent · = some lines.length) = [] := by
    rw [List.filter_eq_nil_iff]
    intro i hi heq
    have := hparent i lines.length (of_decide_eq_true heq)
    have := List.mem_range.mp hi
    omega
  have hrows : (table.rows ++ [(line, [])]).map Prod.snd = (List.range (lines.length + 1)).map fun j =>
      (List.range lines.length).filter (parent · = some j) := by
    rw [List.map_append, h.children, List.range_succ, List.map_append, List.map_singleton, List.map_singleton,
      hnone]
  have hadded : (lines ++ [line]).length = lines.length + 1 := List.length_append
  cases hnew : parent lines.length with
  | none =>
    refine ⟨?_, ?_, ?_⟩
    · simp [Table.add, h.nodes]
    · rw [hadded]
      simp only [hchildren, hnew, reduceCtorEq, if_false, List.append_nil]
      exact hrows
    · rw [hadded, List.range_succ, List.filter_append, List.filter_cons_of_pos (by simpa using hnew)]
      simp [Table.add, h.roots, hlength]
  | some p =>
    refine ⟨?_, ?_, ?_⟩
    · refine (map_fst_modify (table.rows ++ [(line, [])]) p (· ++ [table.rows.length])).trans ?_
      rw [List.map_append, h.nodes, List.map_singleton]
    · refine (map_snd_modify (table.rows ++ [(line, [])]) p (· ++ [table.rows.length])).trans ?_
      rw [hadded, hrows, hlength]
      refine List.ext_getElem? fun i => ?_
      rw [List.getElem?_modify, List.getElem?_map, List.getElem?_map]
      cases hi : (List.range (lines.length + 1))[i]? with
      | none => rfl
      | some j =>
        obtain ⟨hlt, rfl⟩ := List.getElem?_eq_some_iff.mp hi
        simp only [Option.map_some, Option.map_eq_map, List.getElem_range, hchildren, hnew, Option.some.injEq]
        split
        · rfl
        · rw [List.append_nil]
    · rw [hadded, List.range_succ, List.filter_append, List.filter_cons_of_neg (by simp [hnew])]
      simp [Table.add, h.roots]

/-! ## The whole pass -/

/-- After some lines the table shows their parents, and a search through the levels finds the nearest
line of a smaller column. -/
structure Progress.Sound (progress : Progress) (columns : List Nat) (lines : List Line) : Prop where
  stacked : Level.Stacked progress.level progress.under
  search (column : Nat) :
    IsNearest columns lines.length column (Level.search column (progress.level :: progress.under))
  shows : progress.table.Shows (nearest? columns) lines

theorem nearest?_lt (columns : List Nat) (i j : Nat) (h : nearest? columns i = some j) : j < i :=
  (nearest?_eq_iff.mp h).1

/-- A line that is the next one goes below its parent. -/
theorem place_sound {levels : List Level} {level : Level} {under : List Level} {table : Table}
    {columns : List Nat} {lines : List Line} {line : Line}
    (hsettled : Level.Settled line.column levels (level, under))
    (hsearch : ∀ column, IsNearest columns lines.length column (Level.search column levels))
    (hshows : table.Shows (nearest? columns) lines) (hcolumn : rankAt columns lines.length = line.column) :
    Progress.Sound ⟨{ level with last? := some table.rows.length }, under, table.add level.parent? line⟩
      columns (lines ++ [line]) := by
  have hlength : table.rows.length = lines.length := by rw [← hshows.nodes, List.length_map]
  have hindent : level.indent = line.column := hsettled.indent
  have hparent : level.parent? = nearest? columns lines.length := by
    rw [Eq.comm, nearest?_eq_iff, hcolumn, hsettled.parent]
    exact hsearch line.column
  refine ⟨hsettled.stacked _, fun column => ?_, ?_⟩
  · rw [List.length_append, List.length_singleton, hlength]
    by_cases hlt : line.column < column
    · rw [Level.search_cons_of_lt (by rw [hindent]; exact hlt)]
      exact isNearest_last (by rw [hcolumn]; exact hlt)
    · rw [Level.search_cons_of_le (by rw [hindent]; exact Nat.le_of_not_lt hlt),
        hsettled.under column (Nat.le_of_not_lt hlt)]
      refine (hsearch column).extend (Nat.le_succ _) fun k hk hlt' => ?_
      have : k = lines.length := by omega
      rw [this, hcolumn]
      exact Nat.le_of_not_lt hlt
  · rw [hparent]
    exact hshows.add (nearest?_lt columns) line

theorem Progress.Sound.place {progress : Progress} {columns : List Nat} {lines : List Line}
    (h : progress.Sound columns lines) {line : Line} (hcolumn : rankAt columns lines.length = line.column) :
    (progress.place line).Sound columns (lines ++ [line]) :=
  place_sound (h.stacked.settled line.column) h.search h.shows hcolumn

theorem Progress.Sound.foldl_place {progress : Progress} {columns : List Nat} {lines rest : List Line}
    (h : progress.Sound columns lines) (hcolumns : columns = (lines ++ rest).map column) :
    (rest.foldl Progress.place progress).Sound columns (lines ++ rest) := by
  induction rest generalizing progress lines with
  | nil =>
    rw [List.append_nil]
    exact h
  | cons line rest ih =>
    have hcolumn : rankAt columns lines.length = line.column := by
      simp [hcolumns, rankAt, List.getD_eq_getElem?_getD]
    have hsplit : lines ++ line :: rest = lines ++ [line] ++ rest := by simp
    rw [hsplit] at hcolumns ⊢
    exact ih (h.place hcolumn) hcolumns

theorem shows_build (lines : List Line) : (build lines).Shows (nearest? (lines.map column)) lines := by
  cases lines with
  | nil => exact shows_empty _
  | cons first rest =>
    rw [build, List.foldl_cons]
    -- The first line finds the lowest level at its own column and without a line.
    have hsettled : Level.Settled first.column [] (⟨first.column, none, none⟩, []) :=
      ⟨rfl, rfl, fun _ => .lowest, fun _ _ => rfl⟩
    have hplace : Progress.place ⟨⟨first.column, none, none⟩, [], {}⟩ first =
        ⟨⟨first.column, none, some 0⟩, [], ({} : Table).add none first⟩ := by
      simp [Progress.place, Level.settle, Level.host]
    rw [hplace]
    have hsearch : ∀ column, IsNearest ((first :: rest).map Line.column) ([] : List Line).length column
        (Level.search column []) := fun _ _ hk => absurd hk (Nat.not_lt_zero _)
    have hsound := place_sound hsettled hsearch (shows_empty _) rfl
    exact (hsound.foldl_place rfl).shows

/-- One pass with a stack of levels gives the same as layout. -/
theorem build_eq_layout (lines : List Line) :
    build lines = { rows := (layout lines).rows 0, roots := (layout lines).roots 0 } := by
  refine (shows_build lines).unique ?_
  have hparented := Forest.parented_layout column lines
  have hsize := Forest.size_layout column lines
  refine ⟨?_, ?_, ?_⟩
  · rw [Forest.map_fst_rows]
    exact Forest.preorder_layout column lines
  · rw [layout, Forest.children_eq_filter hparented nofun, hsize, List.range_eq_range']
  · rw [layout, Forest.roots_eq_filter hparented nofun, hsize, List.range_eq_range']

end Table

/-! ## Scanning -/

/-- A source text that can be read gives the forest in which each line hangs below the nearest earlier line
of a smaller column. The lines have the numbers `0`, `1` and so on in the order of the source, which is also
the order of a depth-first walk; the children of each line and the roots are listed in that order, and no
line is listed twice. A single pass with a stack of levels finds the same. -/
theorem scan_nearest {file source : Text} {forest : Forest Line} (h : scan file source = .ok forest) :
    let lines := forest.preorder
    let numbers := List.range lines.length
    let parent := nearest? (lines.map column)
    let rows := forest.rows 0
    let roots := forest.roots 0
    lines.Pairwise (·.location.line < ·.location.line) ∧
      rows.map Prod.fst = lines ∧
      rows.map Prod.snd = numbers.map (fun j => numbers.filter (parent · = some j)) ∧
      roots = numbers.filter (parent · = none) ∧
      (roots ++ rows.flatMap Prod.snd).Perm numbers ∧
      Forest.DepthFirst (Forest.childrenAt rows) roots numbers ∧
      Table.build lines = { rows, roots } := by
  intro lines numbers parent rows roots
  obtain ⟨read, hread, rfl⟩ := Except.map_eq_ok h
  have hlines : lines = read := Forest.preorder_layout column read
  have hsize : (layout read).size = lines.length := (Forest.length_preorder _).symm
  have hbuild : Table.build lines = { rows, roots } := by
    rw [hlines]
    exact Table.build_eq_layout read
  have hshows := Table.shows_build lines
  rw [hbuild] at hshows
  refine ⟨?_, hshows.nodes, hshows.children, hshows.roots, ?_, ?_, hbuild⟩
  · rw [hlines]
    exact (readFrom_inOrder hread).pairwise
  · have hperm := Forest.perm_children (layout read) 0
    rw [hsize, ← List.range_eq_range'] at hperm
    exact hperm
  · have hwalk := Forest.depthFirst_roots (layout read)
    rw [hsize] at hwalk
    exact hwalk

/-- A line between two levels, and one that is shallower than the first line. -/
theorem scan_nearest_uneven :
    let source := "  a\n      b\n    c\n     d\ne".toList
    let forest : Forest Line :=
      .cons ⟨⟨['f'], 1⟩, 2, ['a']⟩
        (.cons ⟨⟨['f'], 2⟩, 6, ['b']⟩ .nil
          (.cons ⟨⟨['f'], 3⟩, 4, ['c']⟩ (.cons ⟨⟨['f'], 4⟩, 5, ['d']⟩ .nil .nil) .nil))
        (.cons ⟨⟨['f'], 5⟩, 0, ['e']⟩ .nil .nil)
    scan ['f'] source = .ok forest ∧ forest.roots 0 = [0, 4] ∧
      (forest.rows 0).map Prod.snd = [[1, 2], [], [3], [], []] ∧
      Forest.DepthFirst (Forest.childrenAt (forest.rows 0)) (forest.roots 0) [0, 1, 2, 3, 4] := by
  intro source forest
  have h : scan ['f'] source = .ok forest := by decide +kernel
  obtain ⟨-, -, -, -, -, hwalk, -⟩ := scan_nearest h
  exact ⟨h, rfl, rfl, hwalk⟩

end Scl.Line
