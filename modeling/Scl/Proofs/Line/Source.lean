import Scl.Proofs.Line.Reading
import Scl.Proofs.Text.Trimming

/-!
# The source lines of a line

A line comes from one source line, or from the one that opens a heredoc and those up to the terminator:

* `readFrom_closes`: such source lines are read as one line;
* `readFrom_eq_cons`: what is read first comes from such source lines, after blank ones;
* `ofSource?_eq_some_iff`: one source line, as white space, content, and blanks or braces;
* `ofSource?_indent`: spaces in front of a source line only move it, and braces after it are dropped.
-/

namespace Scl

namespace Line

variable {file : Text} {number : Nat} {sources : List Text} {lines : List Line}

/-- The source lines after one that opens a heredoc, up to its terminator, or none after any other. -/
inductive Closes : Option Text → List Text → Prop
  | line : Closes none []
  | heredoc {marker last : Text} {body : List Text} : (∀ source ∈ body, Text.trim source ≠ marker) →
    Text.trim last = marker → Closes (some marker) (body ++ [last])

/-- A line with more source lines, as they are. -/
def extend (line : Line) (body : List Text) : Line :=
  { line with content := line.content ++ body.flatMap ('\n' :: ·) }

theorem extend_nil (line : Line) : line.extend [] = line := by
  rw [extend, List.flatMap_nil, List.append_nil]

/-! ## Heredocs -/

/-- A heredoc ends at the first source line that is its marker. -/
theorem readFrom_heredoc (heredoc : Heredoc) {body : List Text}
    (hbody : ∀ source ∈ body, Text.trim source ≠ heredoc.marker)
    {last : Text} (hlast : Text.trim last = heredoc.marker) (rest : List Text) :
    readFrom file number (some heredoc) (body ++ last :: rest) =
      (heredoc.opener.extend (heredoc.body ++ (body ++ [last])) :: ·) <$>
        readFrom file (number + (body ++ [last]).length) none rest := by
  induction body generalizing number heredoc with
  | nil => exact readFrom_terminator rest hlast
  | cons source body ih =>
    rw [List.cons_append, readFrom_body _ (hbody source List.mem_cons_self)]
    rw [ih (heredoc.add source) (fun other hother => hbody other (List.mem_cons_of_mem _ hother)) hlast]
    simp only [Heredoc.add, List.append_assoc, List.cons_append, List.nil_append, List.length_cons,
      List.length_append, Nat.add_assoc, Nat.add_comm 1]

theorem readFrom_heredoc_eq_ok {heredoc : Heredoc} (h : readFrom file number (some heredoc) sources = .ok lines) :
    ∃ body rest others, sources = body ++ rest ∧ Closes (some heredoc.marker) body ∧
      lines = heredoc.opener.extend (heredoc.body ++ body) :: others ∧
      readFrom file (number + body.length) none rest = .ok others := by
  induction sources generalizing number heredoc with
  | nil => cases h
  | cons source sources ih =>
    by_cases htrim : Text.trim source = heredoc.marker
    · rw [readFrom_terminator _ htrim] at h
      obtain ⟨others, hothers, rfl⟩ := Except.map_eq_ok h
      have hcloses : Closes (some heredoc.marker) ([] ++ [source]) := .heredoc (by simp) htrim
      exact ⟨[source], sources, others, rfl, hcloses, rfl, hothers⟩
    · rw [readFrom_body _ htrim] at h
      obtain ⟨body, rest, others, rfl, hcloses, rfl, hothers⟩ := ih h
      refine ⟨source :: body, rest, others, rfl, ?_, ?_, ?_⟩
      · cases hcloses with
        | heredoc hbody hlast =>
          rw [← List.cons_append]
          exact .heredoc (List.forall_mem_cons.mpr ⟨htrim, hbody⟩) hlast
      · simp [Heredoc.add]
      · rw [List.length_cons, Nat.add_comm body.length, ← Nat.add_assoc]
        exact hothers

/-! ## Whole lines -/

/-- Source lines that are read as one line. -/
theorem readFrom_closes {source : Text} {line : Line} (h : ofSource? ⟨file, number⟩ source = some line)
    {body : List Text} (hcloses : Closes line.opens? body) (rest : List Text) :
    readFrom file number none (source :: (body ++ rest)) =
      (line.extend body :: ·) <$> readFrom file (number + 1 + body.length) none rest := by
  cases hopens : line.opens? with
  | none =>
    rw [hopens] at hcloses
    cases hcloses
    rw [extend_nil]
    exact readFrom_line rest h hopens
  | some marker =>
    rw [hopens] at hcloses
    cases hcloses with
    | heredoc hbody hlast =>
      rw [readFrom_opener _ h hopens, List.append_assoc]
      exact readFrom_heredoc ⟨line, marker, []⟩ hbody hlast rest

/-- The first line that is read comes from such source lines; the ones before them are blank. -/
theorem readFrom_eq_cons {line : Line} (h : readFrom file number none sources = .ok (line :: lines)) :
    ∃ blanks source opener body rest, sources = blanks ++ source :: (body ++ rest) ∧
      ofSource? ⟨file, number + blanks.length⟩ source = some opener ∧ Closes opener.opens? body ∧
      line = opener.extend body := by
  induction sources generalizing number with
  | nil => cases h
  | cons source sources ih =>
    cases hsource : ofSource? ⟨file, number⟩ source with
    | none =>
      rw [readFrom_blank _ hsource] at h
      obtain ⟨blanks, source', opener, body, rest, rfl, hopener, hrest⟩ := ih h
      refine ⟨source :: blanks, source', opener, body, rest, rfl, ?_, hrest⟩
      rw [List.length_cons, Nat.add_comm blanks.length, ← Nat.add_assoc]
      exact hopener
    | some opener =>
      cases hopens : opener.opens? with
      | none =>
        rw [readFrom_line _ hsource hopens] at h
        obtain ⟨others, -, heq⟩ := Except.map_eq_ok h
        obtain ⟨rfl, rfl⟩ := List.cons.inj heq
        exact ⟨[], source, opener, [], sources, rfl, hsource, hopens ▸ .line, opener.extend_nil.symm⟩
      | some marker =>
        rw [readFrom_opener _ hsource hopens] at h
        obtain ⟨body, rest, others, rfl, hcloses, heq, -⟩ := readFrom_heredoc_eq_ok h
        cases heq
        exact ⟨[], source, opener, body, rest, rfl, hsource, hopens ▸ hcloses, rfl⟩

/-! ## One source line -/

/-- A text that loses nothing as a source line: it starts with no white space and ends in no blank or brace. -/
structure Bare (text : Text) : Prop where
  ne_nil : text ≠ []
  head : ∀ c ∈ text.head?, ¬Text.isWhiteSpace c
  last : ∀ c ∈ text.getLast?, ¬isTrailer c

/-- A source line that is not blank has white space, the content of a line, and blanks or braces. -/
theorem ofSource?_eq_some_iff {location : Location} {source : Text} {line : Line} :
    ofSource? location source = some line ↔
      line.location = location ∧ Bare line.content ∧
        ∃ indent trailers, source = indent ++ line.content ++ trailers ∧ indent.length = line.column ∧
          (∀ c ∈ indent, Text.isWhiteSpace c) ∧ ∀ c ∈ trailers, isTrailer c := by
  constructor
  · intro h
    simp only [ofSource?] at h
    split at h
    · cases h
    · rename_i hne
      cases h
      obtain ⟨trailers, hsource, htrailers⟩ := Text.exists_dropEndWhile_append isTrailer source
      have hlast := Text.getLast?_dropEndWhile isTrailer source
      generalize Text.dropEndWhile isTrailer source = kept at *
      have hkept : kept = kept.takeWhile Text.isWhiteSpace ++ Text.trimStart kept :=
        List.takeWhile_append_dropWhile.symm
      have hcontent : Text.trimStart kept ≠ [] := by simpa using hne
      refine ⟨rfl, ⟨hcontent, Text.head?_dropWhile _ kept, ?_⟩, _, trailers, ?_, rfl, ?_, htrailers⟩
      · rwa [hkept, List.getLast?_append_of_ne_nil _ hcontent] at hlast
      · rw [← hkept]
        exact hsource
      · exact fun c hc => List.all_eq_true.mp List.all_takeWhile c hc
  · rintro ⟨rfl, hbare, indent, trailers, rfl, hindent, hwhite, htrailers⟩
    have hkept : Text.dropEndWhile isTrailer (indent ++ line.content) = indent ++ line.content := by
      apply Text.dropEndWhile_of_getLast?
      rw [List.getLast?_append_of_ne_nil _ hbare.ne_nil]
      exact hbare.last
    have hcontent : Text.trimStart (indent ++ line.content) = line.content := by
      rw [Text.trimStart, List.dropWhile_append_of_pos hwhite, Text.dropWhile_of_head? hbare.head]
    have hcolumn : ((indent ++ line.content).takeWhile Text.isWhiteSpace).length = line.column := by
      rw [List.takeWhile_append_of_pos hwhite, Text.takeWhile_of_head? hbare.head, List.append_nil, hindent]
    simp only [ofSource?]
    rw [Text.dropEndWhile_append _ htrailers, hkept, hcontent, hcolumn, if_neg (by simpa using hbare.ne_nil)]

theorem mem_of_mem_content {location : Location} {source : Text} {line : Line}
    (h : ofSource? location source = some line) : ∀ c ∈ line.content, c ∈ source := by
  obtain ⟨-, -, indent, trailers, rfl, -⟩ := ofSource?_eq_some_iff.mp h
  intro c hc
  simp [hc]

/-- Nothing is left of a source line of blanks and braces. -/
theorem ofSource?_eq_none {source : Text} (h : ∀ c ∈ source, isTrailer c) (location : Location) :
    ofSource? location source = none := by
  have hkept : Text.dropEndWhile isTrailer source = [] := Text.dropEndWhile_append [] h
  simp only [ofSource?, hkept]
  rfl

/-- A source line that is its own content, with white space before it and blanks or braces after it. -/
theorem Bare.ofSource?_eq {content : Text} (h : Bare content) (location : Location) {indent trailers : Text}
    (hindent : ∀ c ∈ indent, Text.isWhiteSpace c) (htrailers : ∀ c ∈ trailers, isTrailer c) :
    ofSource? location (indent ++ content ++ trailers) = some ⟨location, indent.length, content⟩ :=
  ofSource?_eq_some_iff.mpr ⟨rfl, h, indent, trailers, rfl, rfl, hindent, htrailers⟩

theorem ofSource?_indent {location : Location} {source : Text} {line : Line}
    (h : ofSource? location source = some line) (hcontent : line.content = source)
    (location' : Location) (count : Nat) {trailers : Text} (htrailers : ∀ c ∈ trailers, isTrailer c) :
    ofSource? location' (Text.spaces count ++ source ++ trailers) = some ⟨location', count, source⟩ := by
  obtain ⟨-, hbare, -⟩ := ofSource?_eq_some_iff.mp h
  have hspaces : ∀ c ∈ Text.spaces count, Text.isWhiteSpace c := fun c hc => by
    rw [List.eq_of_mem_replicate hc]
    rfl
  have hsource := hbare.ofSource?_eq location' hspaces htrailers
  rw [hcontent] at hsource
  rw [hsource, Text.spaces, List.length_replicate]

end Line

end Scl
