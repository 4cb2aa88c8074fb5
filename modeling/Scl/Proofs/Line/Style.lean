import Scl.Proofs.Line.Folding
import Scl.Proofs.Line.Splice

/-!
# Styles of source text

Outside of heredocs, blanks and braces at the end of source lines are a matter of style, and so are source lines
of nothing else and the line endings everywhere. Which source lines are outside is found by reading them, so a text
and a text of another style are read side by side:

* `Stands`: the heredoc that is open at a position;
* `outside_iff`: a position is outside if none is open after the source lines before it;
* `Restyled`: source lines of another style;
* `Restyled.sameReading`: they are read as the same lines, or get stuck in the same heredoc;
* `scan_restyled`: so they make the same forest.
-/

namespace Scl.Line

variable {file : Text} {number k : Nat} {sources : List Text} {heredoc? : Option Heredoc}

/-! ## Where reading stands -/

/-- The heredoc that is open at a position, if any: one that is opened outside of others, and whose marker has not
come since. -/
def Stands (sources : List Text) (k : Nat) : Option Heredoc → Prop
  | none => Outside sources k
  | some heredoc => ∃ j < k, Outside sources j ∧ OpensAt sources j heredoc.marker ∧
    ∀ i, j < i → i < k → sources[i]?.map Text.trim ≠ some heredoc.marker

theorem Stands.outside_iff (h : Stands sources k heredoc?) : Outside sources k ↔ heredoc? = none := by
  cases heredoc? with
  | none => exact iff_of_true h rfl
  | some heredoc =>
    refine iff_of_false (fun houtside => ?_) (Option.some_ne_none _)
    obtain ⟨j, hj, hj', hopens, hbody⟩ := h
    rw [Outside] at houtside
    obtain ⟨last, hlast, hlt⟩ := houtside j hj hj' heredoc.marker hopens
    exact hbody last hlast.after hlt hlast.terminator

/-- A source line of the body leaves the heredoc open. -/
theorem Stands.body {heredoc : Heredoc} (h : Stands sources k (some heredoc))
    (hsource : sources[k]?.map Text.trim ≠ some heredoc.marker) : Stands sources (k + 1) (some heredoc) := by
  obtain ⟨j, hj, houtside, hopens, hbody⟩ := h
  refine ⟨j, by omega, houtside, hopens, fun i hi hlt => ?_⟩
  rcases Nat.lt_succ_iff_lt_or_eq.mp hlt with hlt | rfl
  · exact hbody i hi hlt
  · exact hsource

theorem Stands.step {source : Text} (h : Stands sources k heredoc?) (hsource : sources[k]? = some source) :
    Stands sources (k + 1) (step file number heredoc? source).2 := by
  cases heredoc?, source using readFrom_cases file number with
  | blank source hblank =>
    simp only [Line.step, hblank]
    refine Outside.succ h fun marker hopens => ?_
    obtain ⟨other, hother, hmarker⟩ := hopens
    cases hsource.symm.trans hother
    rw [← heredocMarker?_eq_some_iff, ofSource?_eq_none_iff.mp hblank] at hmarker
    cases hmarker
  | line source line hline hopens =>
    simp only [Line.step, hline, hopens]
    refine Outside.succ h fun marker hmarker => ?_
    rw [opensAt_iff hline hsource, hopens] at hmarker
    cases hmarker
  | opener source line marker hline hopens =>
    simp only [Line.step, hline, hopens]
    exact ⟨k, Nat.lt_succ_self k, h, (opensAt_iff hline hsource marker).mpr hopens, fun i hi hlt => by omega⟩
  | terminator heredoc source htrim =>
    simp only [Line.step, htrim, if_true]
    obtain ⟨j, hj, houtside, hopens, hbody⟩ := h
    exact houtside.after hopens ⟨hj, by rw [hsource, Option.map_some, htrim], hbody⟩
  | body heredoc source htrim =>
    simp only [Line.step, if_neg htrim]
    exact h.body (by simpa [hsource] using htrim)

/-- The heredoc that is open after some source lines. -/
def openAfter (sources : List Text) : Option Heredoc :=
  sources.foldl (fun heredoc? source => (step [] 0 heredoc? source).2) none

theorem stands_openAfter (sources : List Text) (k : Nat) : Stands sources k (openAfter (sources.take k)) := by
  induction k with
  | zero => exact outside_zero sources
  | succ k ih =>
    rw [List.take_add_one]
    cases hsource : sources[k]? with
    | some source =>
      rw [openAfter, Option.toList_some, List.foldl_append]
      exact ih.step hsource
    | none =>
      -- Past the end nothing changes any more.
      rw [Option.toList_none, List.append_nil]
      generalize openAfter (sources.take k) = heredoc? at ih ⊢
      cases heredoc? with
      | none => exact Outside.succ ih fun marker ⟨source, hk, _⟩ => by cases hsource.symm.trans hk
      | some heredoc => exact ih.body (by simp [hsource])

theorem outside_iff : Outside sources k ↔ openAfter (sources.take k) = none :=
  (stands_openAfter sources k).outside_iff

instance : Decidable (Outside sources k) :=
  decidable_of_iff _ outside_iff.symm

/-- Source lines that leave no heredoc open are read to their end. -/
theorem readFrom_eq_ok_of_outside (h : Outside sources sources.length) (file : Text) :
    ∃ lines, readFrom file 1 none sources = .ok lines := by
  rcases folds_or_stuck file 1 sources with ⟨lines, hlines⟩ | ⟨e, he⟩
  · exact ⟨lines, hlines.readFrom_eq⟩
  · obtain ⟨k, marker, -, hk⟩ := he.unterminated [] rfl (outside_zero _)
    obtain ⟨opener, hopener, -⟩ := hk.opens
    have hlt := (List.getElem?_eq_some_iff.mp hopener).1
    have hle := hk.le h
    rw [List.nil_append] at hlt
    omega

/-! ## Styles -/

/-- Source lines from position `k` on, and the same in another style: with other source lines of blanks and braces
between them, and with blanks and braces after them, as far as they are outside of the heredocs of `whole`. The
terminator of a heredoc is the last source line that it takes, so it is not outside. -/
inductive Restyled (whole : List Text) : Nat → List Text → List Text → Prop
  | nil {k : Nat} : Restyled whole k [] []
  | insert {k : Nat} {inserted : Text} {sources sources' : List Text} : Outside whole k →
    (∀ c ∈ inserted, isTrailer c) → Restyled whole k sources sources' →
    Restyled whole k sources (inserted :: sources')
  | line {k : Nat} {source trailers : Text} {sources sources' : List Text} : trailers = [] ∨ Outside whole k →
    (∀ c ∈ trailers, isTrailer c) → Restyled whole (k + 1) sources sources' →
    Restyled whole k (source :: sources) ((source ++ trailers) :: sources')

variable {whole sources' : List Text}

theorem Restyled.keep {source : Text} (h : Restyled whole (k + 1) sources sources') :
    Restyled whole k (source :: sources) (source :: sources') := by
  rw [← List.append_nil source]
  nth_rewrite 1 [List.append_nil]
  exact .line (.inl rfl) nofun h

theorem Restyled.refl (whole : List Text) (k : Nat) (sources : List Text) : Restyled whole k sources sources := by
  induction sources generalizing k with
  | nil => exact .nil
  | cons source sources ih => exact .keep (ih (k + 1))

theorem Restyled.insert_at {before : List Text} {inserted : Text} (after : List Text)
    (houtside : Outside whole (k + before.length)) (hinserted : ∀ c ∈ inserted, isTrailer c) :
    Restyled whole k (before ++ after) (before ++ inserted :: after) := by
  induction before generalizing k with
  | nil => exact .insert houtside hinserted (.refl whole k after)
  | cons source before ih =>
    refine .keep (ih ?_)
    rwa [List.length_cons, Nat.add_comm before.length, ← Nat.add_assoc] at houtside

/-- No style brings a character but blanks and braces. -/
theorem Restyled.notMem {c : Char} (h : Restyled whole k sources sources') (hc : ¬isTrailer c)
    (hsources : ∀ source ∈ sources, c ∉ source) : ∀ source ∈ sources', c ∉ source := by
  induction h with
  | nil => exact hsources
  | insert _ hinserted _ ih =>
    exact List.forall_mem_cons.mpr ⟨fun hmem => hc (hinserted c hmem), ih hsources⟩
  | line _ htrailers _ ih =>
    obtain ⟨hsource, hsources⟩ := List.forall_mem_cons.mp hsources
    refine List.forall_mem_cons.mpr ⟨fun hmem => ?_, ih hsources⟩
    exact (List.mem_append.mp hmem).elim hsource fun hmem => hc (htrailers c hmem)

/-- Two readings of the same lines, up to where they stand, or with the same heredoc left open. -/
inductive SameReading : Except ScanError (List Line) → Except ScanError (List Line) → Prop
  | ok {lines lines' : List Line} : List.Forall₂ SameText lines lines' → SameReading (.ok lines) (.ok lines')
  | error {marker : Text} {number number' : Nat} :
    SameReading (.error (.unterminatedHeredoc marker number)) (.error (.unterminatedHeredoc marker number'))

theorem SameReading.append {lines lines' : List Line} {reading reading' : Except ScanError (List Line)}
    (hlines : List.Forall₂ SameText lines lines') (h : SameReading reading reading') :
    SameReading ((lines ++ ·) <$> reading) ((lines' ++ ·) <$> reading') := by
  cases h with
  | ok hothers => exact .ok (List.rel_append hlines hothers)
  | error => exact .error

/-- Source lines of another style are read as the same lines. -/
theorem Restyled.sameReading (h : Restyled whole k sources sources') (hwhole : whole.drop k = sources)
    (hstands : Stands whole k heredoc?) {heredoc'? : Option Heredoc}
    (hsame : Option.Rel Heredoc.SameText heredoc? heredoc'?) (file : Text) (number number' : Nat) :
    SameReading (readFrom file number heredoc? sources) (readFrom file number' heredoc'? sources') := by
  induction h generalizing heredoc? heredoc'? number number' with
  | nil =>
    cases hsame with
    | none => exact .ok .nil
    | some hsame =>
      rw [readFrom, readFrom, hsame.marker]
      exact .error
  | insert houtside hinserted _ ih =>
    obtain rfl := hstands.outside_iff.mp houtside
    cases hsame
    rw [readFrom_blank _ (ofSource?_eq_none hinserted _)]
    exact ih hwhole hstands .none number (number' + 1)
  | @line k source trailers sources sources' houtside htrailers _ ih =>
    have hsource : whole[k]? = some source := by rw [← List.head?_drop, hwhole, List.head?_cons]
    have hrest : whole.drop (k + 1) = sources := by rw [← List.tail_drop, hwhole, List.tail_cons]
    have hcontent : ofSource? ⟨file, number⟩ (source ++ trailers) = ofSource? ⟨file, number⟩ source := by
      simp only [ofSource?, Text.dropEndWhile_append _ htrailers]
    have hinside : heredoc? ≠ none → source ++ trailers = source := by
      intro hopen
      rw [houtside.resolve_right fun houtside => hopen (hstands.outside_iff.mp houtside), List.append_nil]
    obtain ⟨hlines, hnext⟩ := step_sameText file number' hsame (fun _ => hcontent) hinside
    rw [readFrom_cons, readFrom_cons]
    exact (ih hrest (hstands.step hsource) hnext _ _).append hlines

/-! ## Scanning -/

theorem scan_eq_of_lines {text : Text} (h : Text.lines text = sources) (file : Text) :
    scan file text = layout <$> readFrom file 1 none sources := by
  rw [scan, readAll, h]

/-- Texts that differ in style make the same forest, or get stuck in the same heredoc. -/
theorem Restyled.scan (h : Restyled sources 0 sources sources') {text text' : Text}
    (htext : Text.lines text = sources) (htext' : Text.lines text' = sources') (file : Text) :
    (∃ forest forest', scan file text = .ok forest ∧ scan file text' = .ok forest' ∧
      forest.Rel (Copy file file) forest') ∨
    ∃ marker number number', scan file text = .error (.unterminatedHeredoc marker number) ∧
      scan file text' = .error (.unterminatedHeredoc marker number') := by
  have hstands : Stands sources 0 none := outside_zero sources
  have hsame := h.sameReading List.drop_zero hstands .none file 1 1
  rw [scan_eq_of_lines htext, scan_eq_of_lines htext']
  cases hread : readFrom file 1 none sources with
  | ok lines =>
    cases hread' : readFrom file 1 none sources' with
    | ok lines' =>
      rw [hread, hread'] at hsame
      cases hsame with
      | ok hlines =>
        have hcopies := Copy.of_sameText hlines (readFrom_inOrder hread).file (readFrom_inOrder hread').file
        exact .inl ⟨_, _, rfl, rfl, Copy.layout hcopies⟩
    | error e =>
      rw [hread, hread'] at hsame
      cases hsame
  | error e =>
    rw [hread] at hsame
    generalize readFrom file 1 none sources' = reading' at hsame ⊢
    cases hsame with
    | error => exact .inr ⟨_, _, _, rfl, rfl⟩

/-- Style and line endings do not matter. Blanks and braces after source lines, and source lines of nothing else
between them, change nothing outside of heredocs, and carriage returns before the line feeds nothing at all: both
texts make forests whose lines have the same numbers, children, columns and contents, or both leave the same heredoc
open. -/
theorem scan_restyled (hchars : ∀ source ∈ sources, '\n' ∉ source ∧ '\r' ∉ source)
    (hstyle : Restyled sources 0 sources sources') {text text' : Text} (htext : Text.Terminated sources text)
    (htext' : Text.Terminated sources' text') (file : Text) :
    (∃ forest forest', scan file text = .ok forest ∧ scan file text' = .ok forest' ∧
      forest.roots 0 = forest'.roots 0 ∧
      List.Forall₂ (fun row row' => Copy file file row.1 row'.1 ∧ row.2 = row'.2)
        (forest.rows 0) (forest'.rows 0)) ∨
    ∃ marker number number', scan file text = .error (.unterminatedHeredoc marker number) ∧
      scan file text' = .error (.unterminatedHeredoc marker number') := by
  have hchars' : ∀ source ∈ sources', '\n' ∉ source ∧ '\r' ∉ source := fun source hsource =>
    ⟨hstyle.notMem (by decide) (fun other hother => (hchars other hother).1) source hsource,
      hstyle.notMem (by decide) (fun other hother => (hchars other hother).2) source hsource⟩
  refine (hstyle.scan (htext.lines_eq hchars) (htext'.lines_eq hchars') file).imp_left ?_
  rintro ⟨forest, forest', hscan, hscan', hrel⟩
  exact ⟨forest, forest', hscan, hscan', hrel.roots_eq 0, hrel.rows 0⟩

/-- A heredoc with braces after its opener, and lines with braces around them. -/
theorem scan_restyled_braces :
    let text := "a = <<E\n x\nE\nb\n  c\n".toList
    let text' := "a = <<E \x7b\r\n x\r\nE\r\n\t\x7d\r\nb\x7b\r\n  c\r\n      \x7d\x7d\r\n".toList
    let content := "a = <<E\n x\nE".toList
    let forest : Forest Line := .cons ⟨⟨['f'], 1⟩, 0, content⟩ .nil
      (.cons ⟨⟨['f'], 4⟩, 0, ['b']⟩ (.cons ⟨⟨['f'], 5⟩, 2, ['c']⟩ .nil .nil) .nil)
    let forest' : Forest Line := .cons ⟨⟨['f'], 1⟩, 0, content⟩ .nil
      (.cons ⟨⟨['f'], 5⟩, 0, ['b']⟩ (.cons ⟨⟨['f'], 6⟩, 2, ['c']⟩ .nil .nil) .nil)
    scan ['f'] text = .ok forest ∧ scan ['f'] text' = .ok forest' ∧ forest.roots 0 = forest'.roots 0 ∧
      List.Forall₂ (fun row row' => Copy ['f'] ['f'] row.1 row'.1 ∧ row.2 = row'.2)
        (forest.rows 0) (forest'.rows 0) := by
  intro text text' content forest forest'
  let sources := ["a = <<E".toList, " x".toList, "E".toList, "b".toList, "  c".toList]
  have hstyle : Restyled sources 0 sources ["a = <<E".toList ++ " \x7b".toList, " x".toList, "E".toList,
      "\t\x7d".toList, "b".toList ++ "\x7b".toList, "  c".toList, "      \x7d\x7d".toList] :=
    .line (.inr (by decide +kernel)) (List.all_eq_true.mp rfl)
      (.keep (.keep (.insert (by decide +kernel) (List.all_eq_true.mp rfl)
        (.line (.inr (by decide +kernel)) (List.all_eq_true.mp rfl)
          (.keep (.insert (by decide +kernel) (List.all_eq_true.mp rfl) .nil))))))
  have hscan : scan ['f'] text = .ok forest := by decide +kernel
  have hscan' : scan ['f'] text' = .ok forest' := by decide +kernel
  rcases scan_restyled (by decide +kernel) hstyle (.feed (.feed (.feed (.feed (.feed .nil)))))
    (.returnFeed (.returnFeed (.returnFeed (.returnFeed (.returnFeed (.returnFeed (.returnFeed .nil))))))) ['f'] with
    ⟨found, found', hfound, hfound', hroots, hrows⟩ | ⟨marker, number, number', herror, -⟩
  · obtain rfl := Except.ok.inj (hfound.symm.trans hscan)
    obtain rfl := Except.ok.inj (hfound'.symm.trans hscan')
    exact ⟨hscan, hscan', hroots, hrows⟩
  · cases hscan.symm.trans herror

end Scl.Line
