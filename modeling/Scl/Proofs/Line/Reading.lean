import Mathlib.Data.List.Forall2
import Scl.Line.Layout
import Scl.Proofs.Forest.Layout
import Scl.Proofs.Text.Lines

/-!
# Reading lines

What `Line.readFrom` makes of a list of source lines:

* `step`, `readFrom_cons`: what one source line does;
* `readFrom_numbers`: lines come in the order of their source lines, each from one of those read;
* `readFrom_append`: source lines on which reading ends well are read as if nothing followed;
* `readFrom_split`: a line that starts at some source line cuts the reading in two there;
* `readFrom_elsewhere`: file name and numbers have no influence on anything but locations.
-/

namespace Scl

theorem Except.map_eq_ok {ε α β : Type} {f : α → β} {x : Except ε α} {b : β} (h : f <$> x = .ok b) :
    ∃ a, x = .ok a ∧ f a = b := by
  cases x with
  | error e => cases h
  | ok a => exact ⟨a, rfl, by cases h; rfl⟩

namespace Line

variable {file : Text} {number : Nat} {heredoc? : Option Heredoc} {sources : List Text} {lines : List Line}

theorem location_of_ofSource? {location : Location} {source : Text} {line : Line}
    (h : ofSource? location source = some line) : line.location = location := by
  simp only [ofSource?] at h
  split at h
  · cases h
  · cases h
    rfl

/-! ## One source line -/

section

variable {source : Text} {heredoc : Heredoc} {line : Line} (rest : List Text)

theorem readFrom_blank (h : ofSource? ⟨file, number⟩ source = none) :
    readFrom file number none (source :: rest) = readFrom file (number + 1) none rest := by
  simp only [readFrom, h]

theorem readFrom_line (h : ofSource? ⟨file, number⟩ source = some line) (hopens : line.opens? = none) :
    readFrom file number none (source :: rest) = (line :: ·) <$> readFrom file (number + 1) none rest := by
  simp only [readFrom, h, hopens]

theorem readFrom_opener (h : ofSource? ⟨file, number⟩ source = some line) {marker : Text}
    (hopens : line.opens? = some marker) :
    readFrom file number none (source :: rest) =
      readFrom file (number + 1) (some ⟨line, marker, []⟩) rest := by
  simp only [readFrom, h, hopens]

/-- A heredoc with one more source line in its body. -/
def Heredoc.add (heredoc : Heredoc) (source : Text) : Heredoc :=
  { heredoc with body := heredoc.body ++ [source] }

theorem readFrom_terminator (h : Text.trim source = heredoc.marker) :
    readFrom file number (some heredoc) (source :: rest) =
      ((heredoc.add source).toLine :: ·) <$> readFrom file (number + 1) none rest := by
  simp only [readFrom, h, if_true, Heredoc.add]

theorem readFrom_body (h : Text.trim source ≠ heredoc.marker) :
    readFrom file number (some heredoc) (source :: rest) =
      readFrom file (number + 1) (some (heredoc.add source)) rest := by
  simp only [readFrom, h, if_false, Heredoc.add]

end

/-- What one source line can do. -/
theorem readFrom_cases (file : Text) (number : Nat) {motive : Option Heredoc → Text → Prop}
    (blank : ∀ source, ofSource? ⟨file, number⟩ source = none → motive none source)
    (line : ∀ source line, ofSource? ⟨file, number⟩ source = some line → line.opens? = none →
      motive none source)
    (opener : ∀ source line marker, ofSource? ⟨file, number⟩ source = some line →
      line.opens? = some marker → motive none source)
    (terminator : ∀ heredoc source, Text.trim source = heredoc.marker → motive (some heredoc) source)
    (body : ∀ heredoc source, Text.trim source ≠ heredoc.marker → motive (some heredoc) source)
    (heredoc? : Option Heredoc) (source : Text) : motive heredoc? source := by
  cases heredoc? with
  | none =>
    cases hline : ofSource? ⟨file, number⟩ source with
    | none => exact blank source hline
    | some read =>
      cases hopens : read.opens? with
      | none => exact line source read hline hopens
      | some marker => exact opener source read marker hline hopens
  | some heredoc =>
    by_cases htrim : Text.trim source = heredoc.marker
    · exact terminator heredoc source htrim
    · exact body heredoc source htrim

/-- What one source line does: the line that it completes, if any, and the heredoc that is open after it. -/
def step (file : Text) (number : Nat) (heredoc? : Option Heredoc) (source : Text) : List Line × Option Heredoc :=
  match heredoc? with
  | none =>
    match ofSource? ⟨file, number⟩ source with
    | none => ([], none)
    | some line =>
      match line.opens? with
      | none => ([line], none)
      | some marker => ([], some ⟨line, marker, []⟩)
  | some heredoc =>
    if Text.trim source = heredoc.marker then ([(heredoc.add source).toLine], none)
    else ([], some (heredoc.add source))

theorem readFrom_cons (source : Text) (rest : List Text) :
    readFrom file number heredoc? (source :: rest) =
      ((step file number heredoc? source).1 ++ ·) <$>
        readFrom file (number + 1) (step file number heredoc? source).2 rest := by
  cases heredoc?, source using readFrom_cases file number with
  | blank source hblank =>
    simp only [readFrom_blank _ hblank, step, hblank]
    exact (id_map' _).symm
  | line source line hline hopens =>
    simp only [readFrom_line _ hline hopens, step, hline, hopens]
    rfl
  | opener source line marker hline hopens =>
    simp only [readFrom_opener _ hline hopens, step, hline, hopens]
    exact (id_map' _).symm
  | terminator heredoc source htrim =>
    simp only [readFrom_terminator _ htrim, step, htrim, if_true]
    rfl
  | body heredoc source htrim =>
    simp only [readFrom_body _ htrim, step, if_neg htrim]
    exact (id_map' _).symm

/-! ## Numbers -/

/-- Lines of a file in the order of their source lines, which are those from `low` up to `high`. -/
structure InOrder (file : Text) (low high : Nat) (lines : List Line) : Prop where
  file : ∀ line ∈ lines, line.location.file = file
  bounds : ∀ line ∈ lines, low ≤ line.location.line ∧ line.location.line < high
  pairwise : lines.Pairwise (·.location.line < ·.location.line)

theorem InOrder.of_le {low low' high : Nat} (h : InOrder file low high lines) (hle : low' ≤ low) :
    InOrder file low' high lines := by
  refine ⟨h.file, fun line hline => ?_, h.pairwise⟩
  have := h.bounds line hline
  omega

theorem InOrder.cons {low high : Nat} (h : InOrder file (low + 1) high lines) {line : Line}
    (hline : line.location = ⟨file, low⟩) (hlt : low < high) : InOrder file low high (line :: lines) := by
  refine ⟨?_, ?_, .cons (fun other hother => ?_) h.pairwise⟩
  · intro other hother
    rcases List.mem_cons.mp hother with rfl | hother
    · rw [hline]
    · exact h.file other hother
  · intro other hother
    rcases List.mem_cons.mp hother with rfl | hother
    · rw [hline]
      exact ⟨Nat.le_refl _, hlt⟩
    · exact (h.of_le (Nat.le_succ low)).bounds other hother
  · rw [hline]
    exact (h.bounds other hother).1

/-- The lines of some source lines: the heredoc that was open before them, if any, and lines that start at
one of them. -/
theorem readFrom_numbers (h : readFrom file number heredoc? sources = .ok lines) :
    ∃ opened rest, lines = opened ++ rest ∧
      opened.map location = (heredoc?.map (·.opener.location)).toList ∧
      InOrder file (number + opened.length) (number + sources.length) rest := by
  induction sources generalizing number heredoc? lines with
  | nil =>
    cases heredoc? with
    | some heredoc => cases h
    | none =>
      cases h
      exact ⟨[], [], rfl, rfl, nofun, nofun, .nil⟩
  | cons source sources ih =>
    have hlength : number + (source :: sources).length = number + 1 + sources.length := by
      rw [List.length_cons]
      omega
    rw [hlength]
    cases heredoc?, source using readFrom_cases file number with
    | blank source hblank =>
      rw [readFrom_blank _ hblank] at h
      obtain ⟨opened, rest, rfl, hopened, hrest⟩ := ih h
      cases List.map_eq_nil_iff.mp hopened
      exact ⟨[], rest, rfl, rfl, hrest.of_le (Nat.le_succ number)⟩
    | line source line hline hopens =>
      rw [readFrom_line _ hline hopens] at h
      obtain ⟨others, hothers, rfl⟩ := Except.map_eq_ok h
      obtain ⟨opened, rest, rfl, hopened, hrest⟩ := ih hothers
      cases List.map_eq_nil_iff.mp hopened
      exact ⟨[], line :: rest, rfl, rfl, hrest.cons (location_of_ofSource? hline) (by omega)⟩
    | opener source line marker hline hopens =>
      rw [readFrom_opener _ hline hopens] at h
      obtain ⟨opened, rest, rfl, hopened, hrest⟩ := ih h
      obtain ⟨first, rfl, hfirst⟩ := List.map_eq_singleton_iff.mp hopened
      refine ⟨[], first :: rest, rfl, rfl, ?_⟩
      exact (hrest.of_le (Nat.le_succ _)).cons (hfirst.trans (location_of_ofSource? hline)) (by omega)
    | terminator heredoc source htrim =>
      rw [readFrom_terminator _ htrim] at h
      obtain ⟨others, hothers, rfl⟩ := Except.map_eq_ok h
      obtain ⟨opened, rest, rfl, hopened, hrest⟩ := ih hothers
      cases List.map_eq_nil_iff.mp hopened
      exact ⟨[_], rest, rfl, rfl, hrest⟩
    | body heredoc source htrim =>
      rw [readFrom_body _ htrim] at h
      obtain ⟨opened, rest, rfl, hopened, hrest⟩ := ih h
      exact ⟨opened, rest, rfl, hopened, hrest.of_le (by omega)⟩

/-- From outside a heredoc all lines start at one of the source lines. -/
theorem readFrom_inOrder (h : readFrom file number none sources = .ok lines) :
    InOrder file number (number + sources.length) lines := by
  obtain ⟨opened, rest, rfl, hopened, hrest⟩ := readFrom_numbers h
  cases List.map_eq_nil_iff.mp hopened
  exact hrest

/-! ## Reading in parts -/

theorem readFrom_append (h : readFrom file number heredoc? sources = .ok lines) (more : List Text) :
    readFrom file number heredoc? (sources ++ more) =
      (lines ++ ·) <$> readFrom file (number + sources.length) none more := by
  induction sources generalizing number heredoc? lines with
  | nil =>
    cases heredoc? with
    | some heredoc => cases h
    | none =>
      cases h
      show readFrom file number none more = _
      exact (id_map' _).symm
  | cons source sources ih =>
    rw [readFrom_cons] at h
    rw [List.cons_append, readFrom_cons]
    obtain ⟨others, hothers, rfl⟩ := Except.map_eq_ok h
    rw [ih hothers, List.length_cons, Nat.add_comm sources.length, ← Nat.add_assoc, ← comp_map]
    exact congrArg (· <$> _) (funext fun more => (List.append_assoc _ _ more).symm)

/-- After the first of two lists of source lines the reading stands outside of heredocs, or inside one that
was opened before. -/
theorem readFrom_split_cases {first second : List Text}
    (h : readFrom file number heredoc? (first ++ second) = .ok lines)
    (hopened : ∀ heredoc ∈ heredoc?, heredoc.opener.location.line < number) :
    ∃ before after, lines = before ++ after ∧
      (readFrom file number heredoc? first = .ok before ∧
          readFrom file (number + first.length) none second = .ok after ∨
        (∀ line ∈ before, line.location.line < number + first.length) ∧
          ∃ heredoc, heredoc.opener.location.line < number + first.length ∧
            readFrom file (number + first.length) (some heredoc) second = .ok after) := by
  induction first generalizing number heredoc? lines with
  | nil =>
    refine ⟨[], lines, rfl, ?_⟩
    cases heredoc? with
    | none => exact .inl ⟨rfl, h⟩
    | some heredoc => exact .inr ⟨nofun, heredoc, hopened heredoc rfl, h⟩
  | cons source first ih =>
    have hlength : number + (source :: first).length = number + 1 + first.length := by
      rw [List.length_cons]
      omega
    rw [hlength]
    rw [List.cons_append] at h
    -- A line in front of those before the cut, which starts before it too.
    have hcons : ∀ {line : Line} {before : List Line}, line.location.line ≤ number →
        (∀ other ∈ before, other.location.line < number + 1 + first.length) →
        ∀ other ∈ line :: before, other.location.line < number + 1 + first.length := by
      intro line before hline hbefore other hother
      rcases List.mem_cons.mp hother with rfl | hother
      · omega
      · exact hbefore other hother
    cases heredoc?, source using readFrom_cases file number with
    | blank source hblank =>
      rw [readFrom_blank _ hblank] at h ⊢
      exact ih h nofun
    | line source line hline hopens =>
      rw [readFrom_line _ hline hopens] at h ⊢
      obtain ⟨others, hothers, rfl⟩ := Except.map_eq_ok h
      obtain ⟨before, after, rfl, hcut⟩ := ih hothers nofun
      have hnumber : line.location.line = number := by rw [location_of_ofSource? hline]
      refine ⟨line :: before, after, rfl, hcut.imp (fun hcut => ?_) fun hcut => ?_⟩
      · exact ⟨by rw [hcut.1]; rfl, hcut.2⟩
      · exact ⟨hcons (by omega) hcut.1, hcut.2⟩
    | opener source line marker hline hopens =>
      rw [readFrom_opener _ hline hopens] at h ⊢
      refine ih h ?_
      rintro heredoc ⟨⟩
      rw [location_of_ofSource? hline]
      exact Nat.lt_succ_self number
    | terminator heredoc source htrim =>
      rw [readFrom_terminator _ htrim] at h ⊢
      obtain ⟨others, hothers, rfl⟩ := Except.map_eq_ok h
      obtain ⟨before, after, rfl, hcut⟩ := ih hothers nofun
      have hnumber : (heredoc.add source).toLine.location.line < number := hopened heredoc rfl
      refine ⟨_ :: before, after, rfl, hcut.imp (fun hcut => ?_) fun hcut => ?_⟩
      · exact ⟨by rw [hcut.1]; rfl, hcut.2⟩
      · exact ⟨hcons (by omega) hcut.1, hcut.2⟩
    | body heredoc source htrim =>
      rw [readFrom_body _ htrim] at h ⊢
      refine ih h ?_
      rintro longer ⟨⟩
      exact Nat.lt_succ_of_lt (hopened heredoc rfl)

/-- Where a line starts, no heredoc is open. -/
theorem readFrom_split {first second : List Text} (h : readFrom file number none (first ++ second) = .ok lines)
    {line : Line} (hline : line ∈ lines) (hnumber : line.location.line = number + first.length) :
    ∃ before after, lines = before ++ after ∧ readFrom file number none first = .ok before ∧
      readFrom file (number + first.length) none second = .ok after := by
  obtain ⟨before, after, rfl, hcut | ⟨hbefore, heredoc, hopener, hafter⟩⟩ := readFrom_split_cases h nofun
  · exact ⟨before, after, rfl, hcut⟩
  · exfalso
    obtain ⟨opened, rest, rfl, hopened, hrest⟩ := readFrom_numbers hafter
    obtain ⟨first, rfl, hfirst⟩ := List.map_eq_singleton_iff.mp hopened
    rw [List.mem_append, List.mem_append, List.mem_singleton] at hline
    rcases hline with hline | rfl | hline
    · have := hbefore line hline
      omega
    · replace hfirst : line.location = heredoc.opener.location := hfirst
      rw [hfirst] at hnumber
      omega
    · have := (hrest.bounds line hline).1
      simp only [List.length_cons, List.length_nil] at this
      omega

/-! ## Reading elsewhere -/

/-- Lines that differ in nothing but where they stand. -/
structure SameText (line other : Line) : Prop where
  column : line.column = other.column
  content : line.content = other.content

theorem SameText.opens? {line other : Line} (h : line.SameText other) : line.opens? = other.opens? := by
  rw [Line.opens?, Line.opens?, h.content]

theorem ofSource?_elsewhere (location location' : Location) (source : Text) :
    ofSource? location' source = (ofSource? location source).map ({ · with location := location' }) := by
  simp only [ofSource?]
  split <;> rfl

/-- Heredocs that differ in nothing but where they stand. -/
structure Heredoc.SameText (heredoc other : Heredoc) : Prop where
  opener : heredoc.opener.SameText other.opener
  marker : heredoc.marker = other.marker
  body : heredoc.body = other.body

theorem Heredoc.SameText.add {heredoc other : Heredoc} (h : heredoc.SameText other) (source : Text) :
    (heredoc.add source).SameText (other.add source) :=
  ⟨h.opener, h.marker, by rw [Heredoc.add, Heredoc.add, h.body]⟩

theorem Heredoc.SameText.toLine {heredoc other : Heredoc} (h : heredoc.SameText other) :
    heredoc.toLine.SameText other.toLine :=
  ⟨h.opener.column, by rw [Heredoc.toLine, Heredoc.toLine, h.opener.content, h.body]⟩

theorem ofSource?_sameText {location : Location} (location' : Location) {source source' : Text}
    (h : ofSource? location source' = ofSource? location source) :
    Option.Rel SameText (ofSource? location source) (ofSource? location' source') := by
  rw [ofSource?_elsewhere location location', h]
  cases ofSource? location source with
  | none => exact .none
  | some line => exact .some ⟨rfl, rfl⟩

/-- Outside of heredocs source lines do the same that have the same content, and inside of them the same ones. -/
theorem step_sameText {source source' : Text} {heredoc'? : Option Heredoc} (file' : Text) (number' : Nat)
    (hsame : Option.Rel Heredoc.SameText heredoc? heredoc'?)
    (houtside : heredoc? = none → ofSource? ⟨file, number⟩ source' = ofSource? ⟨file, number⟩ source)
    (hinside : heredoc? ≠ none → source' = source) :
    List.Forall₂ SameText (step file number heredoc? source).1 (step file' number' heredoc'? source').1 ∧
      Option.Rel Heredoc.SameText (step file number heredoc? source).2 (step file' number' heredoc'? source').2 := by
  cases hsame with
  | none =>
    have hlines := ofSource?_sameText ⟨file', number'⟩ (houtside rfl)
    simp only [step]
    generalize ofSource? ⟨file, number⟩ source = line? at hlines ⊢
    generalize ofSource? ⟨file', number'⟩ source' = line'? at hlines ⊢
    cases hlines with
    | none => exact ⟨.nil, .none⟩
    | @some line line' hline =>
      simp only [← hline.opens?]
      cases line.opens? with
      | none => exact ⟨.cons hline .nil, .none⟩
      | some marker => exact ⟨.nil, .some ⟨hline, rfl, rfl⟩⟩
  | @some heredoc heredoc' hsame =>
    rw [hinside (Option.some_ne_none _)]
    simp only [step, ← hsame.marker]
    split
    · exact ⟨.cons (hsame.add source).toLine .nil, .none⟩
    · exact ⟨.nil, .some (hsame.add source)⟩

theorem readFrom_elsewhere (h : readFrom file number heredoc? sources = .ok lines) (file' : Text)
    (number' : Nat) {heredoc'? : Option Heredoc} (hsame : Option.Rel Heredoc.SameText heredoc? heredoc'?) :
    ∃ lines', readFrom file' number' heredoc'? sources = .ok lines' ∧ List.Forall₂ SameText lines lines' := by
  induction sources generalizing number number' heredoc? heredoc'? lines with
  | nil =>
    cases hsame with
    | some hsame => cases h
    | none =>
      cases h
      exact ⟨[], rfl, .nil⟩
  | cons source sources ih =>
    obtain ⟨hlines, hnext⟩ := step_sameText file' number' hsame (fun _ => rfl) fun _ => rfl
    rw [readFrom_cons] at h ⊢
    obtain ⟨others, hothers, rfl⟩ := Except.map_eq_ok h
    obtain ⟨others', hothers', hrel⟩ := ih hothers (number' + 1) hnext
    rw [hothers']
    exact ⟨_, rfl, List.rel_append hlines hrel⟩

end Line

end Scl
