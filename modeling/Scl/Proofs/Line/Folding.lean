import Scl.Proofs.Line.Source

/-!
# Source lines folded into lines

Every source line starts a line, or belongs to the heredoc of one, or is blank. Reading follows `Folds` to its
end, or it follows `Stuck` to a heredoc without a terminator:

* `readFrom_eq_ok_iff`, `readFrom_eq_error_iff`: reading is `Folds` or `Stuck`, and one of them always applies;
* `Folds.covered`, `Folds.foldedAt`: what becomes of each source line, and where each line comes from;
* `Folds.outside`, `Stuck.unterminated`: the same in terms of positions, with the heredocs that are open there;
* `scan_folded`: scanning loses, repeats and alters no source line.
-/

namespace Scl

/-! ## Openers -/

/-- A text ends in `<<` or `<<-` and a name, which is the marker of a heredoc. -/
def HeredocAtEnd (marker text : Text) : Prop :=
  Text.isName marker ∧ ∃ before, text = before ++ '<' :: '<' :: marker ∨ text = before ++ '<' :: '<' :: '-' :: marker

theorem Text.isNameChar_of_isName {name : Text} (h : isName name) : ∀ c ∈ name, isNameChar c := by
  cases name with
  | nil => exact nofun
  | cons c rest =>
    simp only [isName, Bool.and_eq_true, List.all_eq_true] at h
    refine List.forall_mem_cons.mpr ⟨?_, h.2⟩
    have hstart := h.1
    simp only [isNameStart, isNameChar, Char.isAlphanum, Bool.or_eq_true] at hstart ⊢
    exact hstart.imp_left .inl

theorem heredocMarker?_eq_some_iff {text marker : Text} :
    heredocMarker? text = some marker ↔ HeredocAtEnd marker text := by
  constructor
  · intro h
    have hsplit := List.takeWhile_append_dropWhile (p := Text.isNameChar) (l := text.reverse)
    simp only [heredocMarker?] at h
    generalize text.reverse.takeWhile Text.isNameChar = name at *
    generalize text.reverse.dropWhile Text.isNameChar = before at *
    have htext : text = before.reverse ++ name.reverse := by
      rw [← List.reverse_append, hsplit, List.reverse_reverse]
    split at h
    · rename_i hname
      split at h
      · cases h
        rename_i start
        exact ⟨hname, start.reverse, .inl (by rw [htext]; simp)⟩
      · cases h
        rename_i start
        exact ⟨hname, start.reverse, .inr (by rw [htext]; simp)⟩
      · cases h
    · cases h
  · rintro ⟨hname, before, htext⟩
    have hchars : ∀ c ∈ marker.reverse, Text.isNameChar c := fun c hc =>
      Text.isNameChar_of_isName hname c (List.mem_reverse.mp hc)
    -- Read backwards, the name ends at the `<` or `-` before it.
    have hread : ∀ (c : Char) (rest : Text), ¬Text.isNameChar c → text.reverse = marker.reverse ++ c :: rest →
        text.reverse.takeWhile Text.isNameChar = marker.reverse ∧
          text.reverse.dropWhile Text.isNameChar = c :: rest := by
      intro c rest hc hreverse
      rw [hreverse, List.takeWhile_append_of_pos hchars, List.dropWhile_append_of_pos hchars,
        List.takeWhile_cons_of_neg hc, List.dropWhile_cons_of_neg hc, List.append_nil]
      exact ⟨rfl, rfl⟩
    rcases htext with htext | htext
    · obtain ⟨htake, hdrop⟩ := hread '<' ('<' :: before.reverse) (by decide) (by simp [htext])
      simp only [heredocMarker?, htake, hdrop, List.reverse_reverse, hname, if_true]
    · obtain ⟨htake, hdrop⟩ := hread '-' ('<' :: '<' :: before.reverse) (by decide) (by simp [htext])
      simp only [heredocMarker?, htake, hdrop, List.reverse_reverse, hname, if_true]

/-- A text that does not end in a character of names opens nothing. -/
theorem heredocMarker?_eq_none {text : Text} (h : ∀ c ∈ text.getLast?, ¬Text.isNameChar c) :
    heredocMarker? text = none := by
  have hname : text.reverse.takeWhile Text.isNameChar = [] := Text.takeWhile_of_head? (by simpa using h)
  simp only [heredocMarker?, hname]
  rfl

namespace Line

/-- A source line without blanks and braces at its end, and then without white space at its start. -/
def contentOf (source : Text) : Text :=
  Text.trimStart (Text.dropEndWhile isTrailer source)

theorem ofSource?_eq_none_iff {location : Location} {source : Text} :
    ofSource? location source = none ↔ contentOf source = [] := by
  simp only [ofSource?]
  split
  · rename_i h
    exact iff_of_true rfl (List.isEmpty_iff.mp h)
  · rename_i h
    exact iff_of_false (Option.some_ne_none _) fun hnil => h (List.isEmpty_iff.mpr hnil)

theorem content_of_ofSource? {location : Location} {source : Text} {line : Line}
    (h : ofSource? location source = some line) : line.content = contentOf source := by
  simp only [ofSource?] at h
  split at h
  · cases h
  · cases h
    rfl

theorem opens?_eq_some_iff {location : Location} {source : Text} {line : Line} {marker : Text}
    (h : ofSource? location source = some line) :
    line.opens? = some marker ↔ HeredocAtEnd marker (Text.stripComment (contentOf source)) := by
  rw [opens?, content_of_ofSource? h, heredocMarker?_eq_some_iff]

/-! ## Reading -/

/-- The lines of some source lines, the first of which has the number `number`. -/
inductive Folds (file : Text) : Nat → List Text → List Line → Prop
  | nil {number : Nat} : Folds file number [] []
  | blank {number : Nat} {source : Text} {rest : List Text} {lines : List Line} :
    ofSource? ⟨file, number⟩ source = none → Folds file (number + 1) rest lines →
    Folds file number (source :: rest) lines
  | line {number : Nat} {source : Text} {opener : Line} {body rest : List Text} {lines : List Line} :
    ofSource? ⟨file, number⟩ source = some opener → Closes opener.opens? body →
    Folds file (number + 1 + body.length) rest lines →
    Folds file number (source :: (body ++ rest)) (opener.extend body :: lines)

/-- Some source lines come to a heredoc that no later one of them ends. -/
inductive Stuck (file : Text) : Nat → List Text → ScanError → Prop
  | here {number : Nat} {source marker : Text} {opener : Line} {rest : List Text} :
    ofSource? ⟨file, number⟩ source = some opener → opener.opens? = some marker →
    (∀ other ∈ rest, Text.trim other ≠ marker) →
    Stuck file number (source :: rest) (.unterminatedHeredoc marker number)
  | blank {number : Nat} {source : Text} {rest : List Text} {e : ScanError} :
    ofSource? ⟨file, number⟩ source = none → Stuck file (number + 1) rest e →
    Stuck file number (source :: rest) e
  | line {number : Nat} {source : Text} {opener : Line} {body rest : List Text} {e : ScanError} :
    ofSource? ⟨file, number⟩ source = some opener → Closes opener.opens? body →
    Stuck file (number + 1 + body.length) rest e → Stuck file number (source :: (body ++ rest)) e

variable {file : Text} {number : Nat} {sources : List Text} {lines : List Line} {e : ScanError}

theorem Folds.readFrom_eq (h : Folds file number sources lines) :
    readFrom file number none sources = .ok lines := by
  induction h with
  | nil => rfl
  | blank hblank _ ih => rw [readFrom_blank _ hblank, ih]
  | line hsource hcloses _ ih =>
    rw [readFrom_closes hsource hcloses, ih]
    rfl

/-- A heredoc runs to the end of the source lines if none of them is its marker. -/
theorem readFrom_eq_error (heredoc : Heredoc) (h : ∀ source ∈ sources, Text.trim source ≠ heredoc.marker) :
    readFrom file number (some heredoc) sources =
      .error (.unterminatedHeredoc heredoc.marker heredoc.opener.location.line) := by
  induction sources generalizing number heredoc with
  | nil => rfl
  | cons source rest ih =>
    obtain ⟨hsource, hrest⟩ := List.forall_mem_cons.mp h
    rw [readFrom_body _ hsource]
    exact ih (heredoc.add source) hrest

theorem Stuck.readFrom_eq (h : Stuck file number sources e) : readFrom file number none sources = .error e := by
  induction h with
  | here hsource hopens hrest =>
    rw [readFrom_opener _ hsource hopens, readFrom_eq_error _ hrest, location_of_ofSource? hsource]
  | blank hblank _ ih => rw [readFrom_blank _ hblank, ih]
  | line hsource hcloses _ ih =>
    rw [readFrom_closes hsource hcloses, ih]
    rfl

/-- A heredoc is closed by the first source line that is its marker, if there is one. -/
theorem exists_closes (marker : Text) (sources : List Text) :
    (∃ body rest, sources = body ++ rest ∧ Closes (some marker) body) ∨
      ∀ source ∈ sources, Text.trim source ≠ marker := by
  induction sources with
  | nil => exact .inr nofun
  | cons source sources ih =>
    by_cases htrim : Text.trim source = marker
    · have hcloses : Closes (some marker) ([] ++ [source]) := .heredoc nofun htrim
      exact .inl ⟨[source], sources, rfl, hcloses⟩
    · rcases ih with ⟨_, rest, rfl, hcloses⟩ | hnone
      · cases hcloses with
        | @heredoc _ last body hbody hlast =>
          have hcloses : Closes (some marker) ((source :: body) ++ [last]) :=
            .heredoc (List.forall_mem_cons.mpr ⟨htrim, hbody⟩) hlast
          exact .inl ⟨source :: body ++ [last], rest, rfl, hcloses⟩
      · exact .inr (List.forall_mem_cons.mpr ⟨htrim, hnone⟩)

/-- Reading always comes to an end, in one way or the other. -/
theorem folds_or_stuck (file : Text) (number : Nat) (sources : List Text) :
    (∃ lines, Folds file number sources lines) ∨ ∃ e, Stuck file number sources e := by
  match sources with
  | [] => exact .inl ⟨[], .nil⟩
  | source :: rest =>
    cases hsource : ofSource? ⟨file, number⟩ source with
    | none =>
      rcases folds_or_stuck file (number + 1) rest with ⟨lines, hlines⟩ | ⟨e, he⟩
      · exact .inl ⟨lines, .blank hsource hlines⟩
      · exact .inr ⟨e, .blank hsource he⟩
    | some opener =>
      have hbody : (∃ body after, rest = body ++ after ∧ Closes opener.opens? body) ∨
          ∃ marker, opener.opens? = some marker ∧ ∀ other ∈ rest, Text.trim other ≠ marker := by
        cases hopens : opener.opens? with
        | none => exact .inl ⟨[], rest, rfl, .line⟩
        | some marker => exact (exists_closes marker rest).imp_right fun hnone => ⟨marker, rfl, hnone⟩
      rcases hbody with ⟨body, after, hrest, hcloses⟩ | ⟨marker, hopens, hnone⟩
      · have hshorter : after.length < (source :: rest).length := by
          rw [hrest, List.length_cons, List.length_append]
          omega
        have hafter := folds_or_stuck file (number + 1 + body.length) after
        subst hrest
        rcases hafter with ⟨lines, hlines⟩ | ⟨e, he⟩
        · exact .inl ⟨_, .line hsource hcloses hlines⟩
        · exact .inr ⟨e, .line hsource hcloses he⟩
      · exact .inr ⟨_, .here hsource hopens hnone⟩
termination_by sources.length
decreasing_by
  · exact Nat.lt_succ_self _
  · exact hshorter

theorem readFrom_eq_ok_iff :
    readFrom file number none sources = .ok lines ↔ Folds file number sources lines := by
  refine ⟨fun h => ?_, Folds.readFrom_eq⟩
  rcases folds_or_stuck file number sources with ⟨found, hfound⟩ | ⟨e, he⟩
  · rw [hfound.readFrom_eq] at h
    cases h
    exact hfound
  · rw [he.readFrom_eq] at h
    cases h

theorem readFrom_eq_error_iff :
    readFrom file number none sources = .error e ↔ Stuck file number sources e := by
  refine ⟨fun h => ?_, Stuck.readFrom_eq⟩
  rcases folds_or_stuck file number sources with ⟨found, hfound⟩ | ⟨other, hother⟩
  · rw [hfound.readFrom_eq] at h
    cases h
  · rw [hother.readFrom_eq] at h
    cases h
    exact hother

/-! ## Lines and their source lines -/

/-- How many source lines a line takes along after its first. -/
def height (line : Line) : Nat :=
  line.content.count '\n'

/-- The lines that start at the source line of a number. -/
def startingAt (lines : List Line) (number : Nat) : List Line :=
  lines.filter fun line => line.location.line = number

/-- The lines that take the source line of a number along. -/
def foldingIn (lines : List Line) (number : Nat) : List Line :=
  lines.filter fun line => line.location.line < number ∧ number ≤ line.location.line + line.height

theorem splitOn_extend {line : Line} {body : List Text} (hline : '\n' ∉ line.content)
    (hbody : ∀ source ∈ body, '\n' ∉ source) :
    (line.extend body).content.splitOn '\n' = line.content :: body := by
  have hjoin : ∀ (first : Text) (rest : List Text),
      first ++ rest.flatMap ('\n' :: ·) = ['\n'].intercalate (first :: rest) := by
    intro first rest
    induction rest generalizing first with
    | nil => simp
    | cons second rest ih =>
      rw [List.intercalate_cons_cons, ← ih second, List.flatMap_cons]
      simp
  rw [extend, hjoin]
  exact List.splitOn_intercalate '\n' (List.forall_mem_cons.mpr ⟨hline, hbody⟩) (by simp)

theorem height_extend {line : Line} {body : List Text} (hline : '\n' ∉ line.content)
    (hbody : ∀ source ∈ body, '\n' ∉ source) : (line.extend body).height = body.length := by
  rw [height, extend, List.count_append, List.count_eq_zero_of_not_mem hline, Text.count_feed_flatMap hbody,
    Nat.zero_add]

theorem Folds.le_number (h : Folds file number sources lines) : ∀ line ∈ lines, number ≤ line.location.line :=
  fun line hline => ((readFrom_inOrder h.readFrom_eq).bounds line hline).1

/-- Every source line starts one line, or belongs to one heredoc, or is blank. -/
theorem Folds.covered (h : Folds file number sources lines) (hfeed : ∀ source ∈ sources, '\n' ∉ source)
    {k : Nat} {source : Text} (hsource : sources[k]? = some source) :
    (∃ line, startingAt lines (number + k) = [line] ∧ foldingIn lines (number + k) = []) ∨
      (startingAt lines (number + k) = [] ∧ ∃ line, foldingIn lines (number + k) = [line]) ∨
      startingAt lines (number + k) = [] ∧ foldingIn lines (number + k) = [] ∧ contentOf source = [] := by
  -- Lines that start later have nothing to do with an earlier source line.
  have later : ∀ {lines : List Line} {n : Nat}, (∀ line ∈ lines, n < line.location.line) →
      startingAt lines n = [] ∧ foldingIn lines n = [] := by
    intro lines n hlines
    simp only [startingAt, foldingIn, List.filter_eq_nil_iff, decide_eq_true_eq]
    constructor
    · intro line hline
      have := hlines line hline
      omega
    · intro line hline
      have := hlines line hline
      omega
  induction h generalizing k with
  | nil => simp at hsource
  | @blank number first rest lines hblank hrest ih =>
    have hnumbers := hrest.le_number
    cases k with
    | zero =>
      obtain rfl : first = source := by simpa using hsource
      obtain ⟨hstarting, hfolding⟩ := later (n := number) fun line hline => hnumbers line hline
      exact .inr (.inr ⟨hstarting, hfolding, ofSource?_eq_none_iff.mp hblank⟩)
    | succ k =>
      rw [show number + (k + 1) = number + 1 + k by omega]
      exact ih (fun other hother => hfeed other (List.mem_cons_of_mem _ hother)) (by simpa using hsource)
  | @line number first opener body rest lines hfirst hcloses hrest ih =>
    have hnumbers := hrest.le_number
    have hlocation : (opener.extend body).location.line = number := by
      show opener.location.line = number
      rw [location_of_ofSource? hfirst]
    have hbody : ∀ other ∈ body, '\n' ∉ other := fun other hother => hfeed other (by simp [hother])
    have hopener : '\n' ∉ opener.content := fun hmem =>
      hfeed first List.mem_cons_self (mem_of_mem_content hfirst _ hmem)
    have hheight := height_extend hopener hbody
    have hcons : ∀ n, startingAt (opener.extend body :: lines) n =
          (if number = n then [opener.extend body] else []) ++ startingAt lines n ∧
        foldingIn (opener.extend body :: lines) n =
          (if number < n ∧ n ≤ number + body.length then [opener.extend body] else []) ++ foldingIn lines n := by
      intro n
      simp only [startingAt, foldingIn, List.filter_cons, hlocation, hheight, decide_eq_true_eq]
      constructor <;> split <;> rfl
    obtain ⟨hstarting, hfolding⟩ := hcons (number + k)
    rw [hstarting, hfolding]
    by_cases hk : k ≤ body.length
    · obtain ⟨hstarting, hfolding⟩ := later (n := number + k) fun line hline => by
        have := hnumbers line hline
        omega
      rw [hstarting, hfolding, List.append_nil, List.append_nil]
      by_cases hzero : k = 0
      · exact .inl ⟨_, if_pos (by omega), if_neg (by omega)⟩
      · exact .inr (.inl ⟨if_neg (by omega), _, if_pos (by omega)⟩)
    · obtain ⟨j, rfl⟩ : ∃ j, k = 1 + body.length + j := ⟨k - (1 + body.length), by omega⟩
      rw [if_neg (by omega), if_neg (by omega), List.nil_append, List.nil_append,
        show number + (1 + body.length + j) = number + 1 + body.length + j by omega]
      refine ih (fun other hother => hfeed other (by simp [hother])) ?_
      rw [show 1 + body.length + j = body.length + j + 1 by omega, List.getElem?_cons_succ,
        List.getElem?_append_right (by omega), Nat.add_sub_cancel_left] at hsource
      exact hsource

/-- Every line comes from a source line and those that close it. -/
theorem Folds.origin (h : Folds file number sources lines) {line : Line} (hline : line ∈ lines) :
    ∃ before first opener body rest, sources = before ++ first :: (body ++ rest) ∧
      ofSource? ⟨file, number + before.length⟩ first = some opener ∧ Closes opener.opens? body ∧
      line = opener.extend body := by
  induction h with
  | nil => cases hline
  | @blank number source rest lines _ _ ih =>
    obtain ⟨before, first, opener, body, after, rfl, hfirst, hrest⟩ := ih hline
    refine ⟨source :: before, first, opener, body, after, rfl, ?_, hrest⟩
    rw [List.length_cons, Nat.add_comm before.length, ← Nat.add_assoc]
    exact hfirst
  | @line number source opener body rest lines hsource hcloses _ ih =>
    rcases List.mem_cons.mp hline with rfl | hline
    · exact ⟨[], source, opener, body, rest, rfl, hsource, hcloses, rfl⟩
    · obtain ⟨before, first, opener', body', after, rfl, hfirst, hrest⟩ := ih hline
      refine ⟨source :: (body ++ before), first, opener', body', after, by simp, ?_, hrest⟩
      rw [List.length_cons, List.length_append,
        show number + (body.length + before.length + 1) = number + 1 + body.length + before.length by omega]
      exact hfirst

/-- The source line at a position, counted from zero, ends in a heredoc opener, comments apart. -/
def OpensAt (sources : List Text) (k : Nat) (marker : Text) : Prop :=
  ∃ source, sources[k]? = some source ∧ HeredocAtEnd marker (Text.stripComment (contentOf source))

/-- The first source line after a position that is the marker, white space apart. -/
structure TerminatedAt (sources : List Text) (k : Nat) (marker : Text) (last : Nat) : Prop where
  after : k < last
  terminator : sources[last]?.map Text.trim = some marker
  first : ∀ j, k < j → j < last → sources[j]?.map Text.trim ≠ some marker

/-- Where a line comes from: from the source line at position `k`, and from those after it that its heredoc
takes. -/
structure FoldedAt (sources : List Text) (line : Line) (k : Nat) (first : Text) : Prop where
  number : line.location.line = k + 1
  source : sources[k]? = some first
  pieces : line.content.splitOn '\n' = contentOf first :: (sources.drop (k + 1)).take line.height
  opens : 0 < line.height ↔ ∃ marker, OpensAt sources k marker
  terminated : ∀ marker, OpensAt sources k marker → TerminatedAt sources k marker (k + line.height)

/-- The source lines that close a heredoc end at its terminator. -/
theorem Closes.terminatedAt {marker : Text} {body : List Text} (h : Closes (some marker) body)
    (before : List Text) (first : Text) (rest : List Text) :
    TerminatedAt (before ++ first :: (body ++ rest)) before.length marker (before.length + body.length) := by
  -- The source lines after the opener, counted from it.
  have hget : ∀ j, (before ++ first :: (body ++ rest))[before.length + (j + 1)]? = (body ++ rest)[j]? := by
    intro j
    rw [List.getElem?_append_right (by omega), Nat.add_sub_cancel_left, List.getElem?_cons_succ]
  cases h with
  | @heredoc _ last body hbody hlast =>
    have hlength : (body ++ [last]).length = body.length + 1 := List.length_append
    refine ⟨by omega, ?_, ?_⟩
    · rw [hlength, hget]
      simp [hlast]
    · intro j hj hlt heq
      obtain ⟨i, rfl⟩ : ∃ i, j = before.length + (i + 1) := ⟨j - before.length - 1, by omega⟩
      have hi : i < body.length := by omega
      rw [hget, List.append_assoc, List.getElem?_append_left hi, List.getElem?_eq_getElem hi, Option.map_some] at heq
      exact hbody _ (List.getElem_mem hi) (Option.some.inj heq)

theorem opensAt_iff {location : Location} {first : Text} {opener : Line} {k : Nat}
    (hfirst : ofSource? location first = some opener) (hsource : sources[k]? = some first) (marker : Text) :
    OpensAt sources k marker ↔ opener.opens? = some marker := by
  rw [opens?_eq_some_iff hfirst, OpensAt, hsource]
  simp

theorem Folds.foldedAt (h : Folds file 1 sources lines) (hfeed : ∀ source ∈ sources, '\n' ∉ source)
    {line : Line} (hline : line ∈ lines) : ∃ k first, FoldedAt sources line k first := by
  obtain ⟨before, first, opener, body, rest, rfl, hfirst, hcloses, rfl⟩ := h.origin hline
  have hbody : ∀ other ∈ body, '\n' ∉ other := fun other hother => hfeed other (by simp [hother])
  have hopener : '\n' ∉ opener.content := fun hmem =>
    hfeed first (by simp) (mem_of_mem_content hfirst _ hmem)
  have hheight := height_extend hopener hbody
  have hsource : (before ++ first :: (body ++ rest))[before.length]? = some first := by simp
  refine ⟨before.length, first, ?_, hsource, ?_, ?_, ?_⟩
  · show opener.location.line = _
    rw [location_of_ofSource? hfirst, Nat.add_comm]
  · have hdrop : (before ++ first :: (body ++ rest)).drop (before.length + 1) = body ++ rest := by
      rw [← List.drop_drop, List.drop_left, List.drop_succ_cons, List.drop_zero]
    rw [splitOn_extend hopener hbody, content_of_ofSource? hfirst, hheight, hdrop, List.take_left]
  · simp only [opensAt_iff hfirst hsource, hheight]
    cases hopens : opener.opens? with
    | none =>
      rw [hopens] at hcloses
      cases hcloses
      simp
    | some marker =>
      rw [hopens] at hcloses
      cases hcloses with
      | heredoc => simp
  · intro marker hopens
    rw [opensAt_iff hfirst hsource] at hopens
    rw [hopens] at hcloses
    rw [hheight]
    exact hcloses.terminatedAt before first rest

/-! ## Heredocs that are open -/

/-- A position outside of every heredoc: each one that was opened outside of the others before it has come to
its terminator. -/
def Outside (sources : List Text) (k : Nat) : Prop :=
  ∀ j, j < k → Outside sources j → ∀ marker, OpensAt sources j marker →
    ∃ last, TerminatedAt sources j marker last ∧ last < k
termination_by k

/-- A heredoc that is opened outside of others and has no terminator. -/
structure Unterminated (sources : List Text) (k : Nat) (marker : Text) : Prop where
  outside : Outside sources k
  opens : OpensAt sources k marker
  missing : ∀ j, k < j → sources[j]?.map Text.trim ≠ some marker

theorem outside_zero (sources : List Text) : Outside sources 0 := by
  rw [Outside]
  exact fun j hj => nomatch hj

theorem OpensAt.unique {k : Nat} {marker marker' : Text} (h : OpensAt sources k marker)
    (h' : OpensAt sources k marker') : marker = marker' := by
  obtain ⟨source, hsource, hmarker⟩ := h
  obtain ⟨source', hsource', hmarker'⟩ := h'
  rw [hsource] at hsource'
  cases hsource'
  rw [← heredocMarker?_eq_some_iff] at hmarker hmarker'
  exact Option.some.inj (hmarker.symm.trans hmarker')

/-- A source line that opens nothing leaves the next one outside. -/
theorem Outside.succ {k : Nat} (h : Outside sources k) (hopens : ∀ marker, ¬OpensAt sources k marker) :
    Outside sources (k + 1) := by
  rw [Outside] at h ⊢
  intro j hj hj' marker hmarker
  rcases Nat.lt_succ_iff_lt_or_eq.mp hj with hlt | rfl
  · obtain ⟨last, hlast, hle⟩ := h j hlt hj' marker hmarker
    exact ⟨last, hlast, Nat.lt_succ_of_lt hle⟩
  · exact absurd hmarker (hopens marker)

/-- The source line after a terminator is outside; the body of the heredoc is not, whatever it looks like. -/
theorem Outside.after {k last : Nat} {marker : Text} (h : Outside sources k) (hopens : OpensAt sources k marker)
    (hlast : TerminatedAt sources k marker last) : Outside sources (last + 1) := by
  have hbefore := h
  rw [Outside] at hbefore ⊢
  intro j hj hj' marker' hmarker'
  rcases Nat.lt_trichotomy j k with hlt | rfl | hgt
  · obtain ⟨end', hend', hle⟩ := hbefore j hlt hj' marker' hmarker'
    have := hlast.after
    exact ⟨end', hend', by omega⟩
  · cases hmarker'.unique hopens
    exact ⟨last, hlast, Nat.lt_succ_self last⟩
  · rw [Outside] at hj'
    obtain ⟨end', hend', hlt⟩ := hj' k hgt h marker hopens
    exact absurd hend'.terminator (hlast.first end' hend'.after (by omega))

/-- The source line after those of a whole line is outside. -/
theorem Outside.closes {before rest body : List Text} {location : Location} {first : Text} {opener : Line}
    (h : Outside (before ++ first :: (body ++ rest)) before.length)
    (hfirst : ofSource? location first = some opener) (hcloses : Closes opener.opens? body) :
    Outside (before ++ first :: (body ++ rest)) (before.length + body.length + 1) := by
  have hsource : (before ++ first :: (body ++ rest))[before.length]? = some first := by simp
  cases hopens : opener.opens? with
  | none =>
    rw [hopens] at hcloses
    cases hcloses
    refine h.succ fun marker hmarker => ?_
    rw [opensAt_iff hfirst hsource, hopens] at hmarker
    cases hmarker
  | some marker =>
    rw [hopens] at hcloses
    exact h.after ((opensAt_iff hfirst hsource marker).mpr hopens) (hcloses.terminatedAt before first rest)

theorem Outside.blank {before rest : List Text} {location : Location} {first : Text}
    (h : Outside (before ++ first :: rest) before.length) (hfirst : ofSource? location first = none) :
    Outside (before ++ first :: rest) (before.length + 1) := by
  refine h.succ ?_
  rintro marker ⟨source, hsource, hmarker⟩
  obtain rfl : first = source := by simpa using hsource
  rw [← heredocMarker?_eq_some_iff, ofSource?_eq_none_iff.mp hfirst] at hmarker
  cases hmarker

/-- Reading to the end leaves no heredoc open. -/
theorem Folds.outside (h : Folds file number sources lines) (before : List Text)
    (hbefore : Outside (before ++ sources) before.length) :
    Outside (before ++ sources) (before ++ sources).length := by
  induction h generalizing before with
  | nil => simpa using hbefore
  | @blank number source rest lines hblank _ ih =>
    have hnext := hbefore.blank hblank
    rw [show before ++ source :: rest = before ++ [source] ++ rest by simp] at hnext ⊢
    exact ih _ (by simpa using hnext)
  | @line number source opener body rest lines hsource hcloses _ ih =>
    have hnext := hbefore.closes hsource hcloses
    rw [show before ++ source :: (body ++ rest) = before ++ source :: body ++ rest by simp] at hnext ⊢
    exact ih _ (by simpa [Nat.add_assoc] using hnext)

/-- Where reading gets stuck, a heredoc is opened outside of others and has no terminator. -/
theorem Stuck.unterminated (h : Stuck file number sources e) (before : List Text)
    (hnumber : number = before.length + 1) (hbefore : Outside (before ++ sources) before.length) :
    ∃ k marker, e = .unterminatedHeredoc marker (k + 1) ∧ Unterminated (before ++ sources) k marker := by
  induction h generalizing before with
  | @here number source marker opener rest hsource hopens hrest =>
    subst hnumber
    have hposition : (before ++ source :: rest)[before.length]? = some source := by simp
    refine ⟨before.length, marker, rfl, hbefore, (opensAt_iff hsource hposition marker).mpr hopens, ?_⟩
    intro j hj heq
    obtain ⟨i, rfl⟩ : ∃ i, j = before.length + (i + 1) := ⟨j - before.length - 1, by omega⟩
    rw [List.getElem?_append_right (by omega), Nat.add_sub_cancel_left, List.getElem?_cons_succ] at heq
    obtain ⟨other, hother, htrim⟩ := Option.map_eq_some_iff.mp heq
    exact hrest other (List.mem_of_getElem? hother) htrim
  | @blank number source rest e hblank _ ih =>
    have hnext := hbefore.blank hblank
    rw [show before ++ source :: rest = before ++ [source] ++ rest by simp] at hnext ⊢
    exact ih _ (by simp [hnumber]) (by simpa using hnext)
  | @line number source opener body rest e hsource hcloses _ ih =>
    have hnext := hbefore.closes hsource hcloses
    rw [show before ++ source :: (body ++ rest) = before ++ source :: body ++ rest by simp] at hnext ⊢
    refine ih _ ?_ (by simpa [Nat.add_assoc] using hnext)
    rw [hnumber, List.length_append, List.length_cons]
    omega

/-- After a heredoc that has no terminator, no position is outside. -/
theorem Unterminated.le {k j : Nat} {marker : Text} (h : Unterminated sources k marker)
    (hj : Outside sources j) : j ≤ k := by
  refine Nat.le_of_not_lt fun hlt => ?_
  rw [Outside] at hj
  obtain ⟨last, hlast, -⟩ := hj k hlt h.outside marker h.opens
  exact h.missing last hlast.after hlast.terminator

/-! ## Scanning -/

theorem scan_eq_ok {file source : Text} {forest : Forest Line} (h : scan file source = .ok forest) :
    Folds file 1 (Text.lines source) forest.preorder := by
  obtain ⟨read, hread, rfl⟩ := Except.map_eq_ok h
  rw [layout, Forest.preorder_layout]
  exact readFrom_eq_ok_iff.mp hread

theorem scan_eq_error_iff {file source : Text} :
    scan file source = .error e ↔ Stuck file 1 (Text.lines source) e := by
  rw [← readFrom_eq_error_iff, scan, readAll]
  cases readFrom file 1 none (Text.lines source) with
  | ok lines => exact iff_of_false nofun nofun
  | error other =>
    show Except.error other = Except.error e ↔ Except.error other = Except.error e
    rw [Except.error.injEq, Except.error.injEq]

/-- Scanning fails at the heredoc that has no terminator, and only there. -/
theorem scan_eq_error_iff_unterminated {file source marker : Text} :
    scan file source = .error (.unterminatedHeredoc marker number) ↔
      ∃ k, number = k + 1 ∧ Unterminated (Text.lines source) k marker := by
  rw [scan_eq_error_iff]
  constructor
  · intro h
    obtain ⟨k, found, heq, hfound⟩ := h.unterminated [] rfl (outside_zero _)
    cases heq
    exact ⟨k, rfl, hfound⟩
  · rintro ⟨k, rfl, hk⟩
    rcases folds_or_stuck file 1 (Text.lines source) with ⟨lines, hlines⟩ | ⟨e, he⟩
    · -- The end of the text would be outside, but the heredoc runs over it.
      have hend := hk.le (hlines.outside [] (outside_zero _))
      obtain ⟨opener, hopener, -⟩ := hk.opens
      have hlt := (List.getElem?_eq_some_iff.mp hopener).1
      rw [List.nil_append] at hend
      omega
    · obtain ⟨j, found, rfl, hfound⟩ := he.unterminated [] rfl (outside_zero _)
      have hjk : j = k := Nat.le_antisymm (hk.le hfound.outside) (hfound.le hk.outside)
      subst hjk
      cases hfound.opens.unique hk.opens
      exact he

/-- No source line is lost, repeated or altered. Where scanning gives a forest, the number of each source line
is that of one line of the forest, or lies among those that the heredoc of one line takes along, or the source
line is blank; and each line has the trimmed text of its first source line, and after it the source lines up
to the terminator of its heredoc as they are, if it opens one. Scanning fails exactly if a heredoc that is
opened outside of all others has no terminator, and the error names the first one. -/
theorem scan_folded (file source : Text) :
    let sources := Text.lines source
    (∀ forest, scan file source = .ok forest →
      (∀ k first, sources[k]? = some first →
        (∃ line, startingAt forest.preorder (k + 1) = [line] ∧ foldingIn forest.preorder (k + 1) = []) ∨
          (startingAt forest.preorder (k + 1) = [] ∧ ∃ line, foldingIn forest.preorder (k + 1) = [line]) ∨
          startingAt forest.preorder (k + 1) = [] ∧ foldingIn forest.preorder (k + 1) = [] ∧
            contentOf first = []) ∧
      ∀ line ∈ forest.preorder, ∃ k first, FoldedAt sources line k first) ∧
    ((∃ e, scan file source = .error e) ↔ ∃ k marker, Unterminated sources k marker) ∧
    ∀ marker number, scan file source = .error (.unterminatedHeredoc marker number) ↔
      ∃ k, number = k + 1 ∧ Unterminated sources k marker ∧ ∀ j < k, ∀ other, ¬Unterminated sources j other := by
  intro sources
  have hfeed := Text.feed_notMem_of_mem_lines source
  refine ⟨fun forest h => ⟨fun k first hfirst => ?_, fun line hline => ?_⟩, ?_, fun marker number => ?_⟩
  · rw [Nat.add_comm k 1]
    exact (scan_eq_ok h).covered hfeed hfirst
  · exact (scan_eq_ok h).foldedAt hfeed hline
  · constructor
    · rintro ⟨⟨marker, number⟩, h⟩
      obtain ⟨k, -, hk⟩ := scan_eq_error_iff_unterminated.mp h
      exact ⟨k, marker, hk⟩
    · rintro ⟨k, marker, hk⟩
      exact ⟨_, scan_eq_error_iff_unterminated.mpr ⟨k, rfl, hk⟩⟩
  · rw [scan_eq_error_iff_unterminated]
    constructor
    · rintro ⟨k, hnumber, hk⟩
      refine ⟨k, hnumber, hk, fun j hj other hother => ?_⟩
      exact absurd (hother.le hk.outside) (by omega)
    · rintro ⟨k, hnumber, hk, -⟩
      exact ⟨k, hnumber, hk⟩

/-- An opener in the body of another heredoc takes nothing along; a comment opens nothing. The second text has
the terminator of the inner one only. -/
theorem scan_folded_nested :
    let source := "a = <<E\n b <<F\n  E \n\n \x7d\nc // <<E".toList
    let forest : Forest Line :=
      .cons ⟨⟨['f'], 1⟩, 0, "a = <<E\n b <<F\n  E ".toList⟩ .nil
        (.cons ⟨⟨['f'], 6⟩, 0, "c // <<E".toList⟩ .nil .nil)
    scan ['f'] source = .ok forest ∧
      (∀ k first, (Text.lines source)[k]? = some first →
        (∃ line, startingAt forest.preorder (k + 1) = [line] ∧ foldingIn forest.preorder (k + 1) = []) ∨
          (startingAt forest.preorder (k + 1) = [] ∧ ∃ line, foldingIn forest.preorder (k + 1) = [line]) ∨
          startingAt forest.preorder (k + 1) = [] ∧ foldingIn forest.preorder (k + 1) = [] ∧
            contentOf first = []) ∧
      (∃ k, 2 = k + 1 ∧ Unterminated (Text.lines "c\na <<-E\n b <<F\nF".toList) k ['E'] ∧
        ∀ j < k, ∀ other, ¬Unterminated (Text.lines "c\na <<-E\n b <<F\nF".toList) j other) := by
  intro source forest
  have h : scan ['f'] source = .ok forest := by decide +kernel
  have herror : scan ['f'] "c\na <<-E\n b <<F\nF".toList = .error (.unterminatedHeredoc ['E'] 2) := by
    decide +kernel
  exact ⟨h, ((scan_folded ['f'] source).1 forest h).1, ((scan_folded ['f'] _).2.2 ['E'] 2).mp herror⟩

end Line

end Scl
