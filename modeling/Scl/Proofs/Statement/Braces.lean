import Scl.Proofs.Line.Folding
import Scl.Proofs.Statement.Classification

/-!
# References in braces

What becomes of a line when a reference `$name` in it gets braces around its name. Comments, heredocs and the
kind of statement are decided without looking at the reference:

* `stripComment_run`, `heredocMarker?_braced`: the code of the line, and that it opens nothing;
* `statement_braced`: a literal stays one, and so does an assignment;
* `ofSource?_braced`: the line itself. Braces at the end of a source line are dropped, so the closing one is lost
  unless something else follows.
-/

namespace Scl

namespace Text

theorem length_trim_le (text : Text) : (trim text).length ≤ text.length := by
  obtain ⟨ending, hending, -⟩ := exists_dropEndWhile_append isWhiteSpace (trimStart text)
  have hstart : (trimStart text).length ≤ text.length := (List.dropWhile_sublist _).length_le
  rw [hending, List.length_append] at hstart
  exact Nat.le_trans (Nat.le_add_right ..) hstart

/-- Characters that can stand after a `$` without a meaning to comments, quotes and trimming. -/
structure Run (run : Text) : Prop where
  neutral : ∀ c ∈ run, Neutral c
  last : ∀ c ∈ run.getLast?, ¬isWhiteSpace c

theorem Run.trimEnd_append {run : Text} (h : Run run) (rest : Text) : trimEnd (run ++ rest) = run ++ trimEnd rest :=
  dropEndWhile_append_right h.last rest

theorem Run.append {first second : Text} (hfirst : Run first) (hsecond : Run second) : Run (first ++ second) := by
  refine ⟨List.forall_mem_append.mpr ⟨hfirst.neutral, hsecond.neutral⟩, fun c hc => ?_⟩
  rw [List.getLast?_append, Option.mem_def, Option.or_eq_some_iff] at hc
  rcases hc with hc | ⟨-, hc⟩
  · exact hsecond.last c hc
  · exact hfirst.last c hc

theorem run_singleton {c : Char} (hneutral : Neutral c) (hwhite : ¬isWhiteSpace c) : Run [c] := by
  refine ⟨List.forall_mem_singleton.mpr hneutral, ?_⟩
  rintro d ⟨⟩
  exact hwhite

theorem run_of_isNameChar {name : Text} (h : ∀ c ∈ name, isNameChar c) : Run name :=
  ⟨fun c hc => neutral_of_isNameChar (h c hc),
    fun c hc => not_isWhiteSpace_of_isNameChar (h c (List.mem_of_getLast? hc))⟩

/-- A name after a brace, with or without a brace after it. -/
inductive Braced (name : Text) : Text → Prop
  | opened : Braced name ('{' :: name)
  | closed : Braced name ('{' :: (name ++ ['}']))

theorem Braced.run {name braced : Text} (h : Braced name braced) (hname : ∀ c ∈ name, isNameChar c) : Run braced := by
  have hrun := run_of_isNameChar hname
  have hopening : Run ['{'] := run_singleton ⟨by decide, by decide, by decide⟩ (by decide)
  have hclosing : Run ['}'] := run_singleton ⟨by decide, by decide, by decide⟩ (by decide)
  cases h with
  | opened => exact hopening.append hrun
  | closed => exact hopening.append (hrun.append hclosing)

/-- The code of a line, in which a run stands before the comment, with another run in its place. -/
theorem stripComment_run {run other : Text} (hrun : Run run) (hother : Run other) {front rest right : Text}
    (hhead : ∀ c ∈ front.head?, ¬isWhiteSpace c)
    (h : stripComment (front ++ '$' :: (run ++ rest)) = front ++ '$' :: (run ++ right)) :
    trimEnd right = right ∧ (rest = [] → right = []) ∧
      stripComment (front ++ '$' :: (other ++ rest)) = front ++ '$' :: (other ++ right) := by
  have hdollar : Neutral '$' := ⟨by decide, by decide, by decide⟩
  have hproper : (front.foldl Quoting.step .outside).Proper :=
    Quoting.Proper.foldl_step (show Quoting.outside.Proper from trivial) front
  have hfront : trimStart front = front := dropWhile_of_head? hhead
  rw [stripComment_eq] at h ⊢
  rcases @uncommented_append .outside '$' (by decide) front (run ++ rest) with ⟨hcomment, hcut⟩ | ⟨hnone, hkeep⟩
  · -- The comment would start before the run.
    obtain ⟨after, hsplit, -⟩ := hcomment.cut
    have hle := length_trim_le (uncommented .outside front)
    have hlength := congrArg List.length hsplit
    rw [hcut] at h
    rw [h] at hle
    simp only [List.length_append, List.length_cons] at hle hlength
    omega
  · rcases @uncommented_append .outside '$' (by decide) front (other ++ rest) with ⟨hcomment, -⟩ | ⟨-, hkeep'⟩
    · exact absurd hcomment hnone
    · rw [hkeep, uncommented_neutral hproper hdollar hrun.neutral, trim_append_dollar, hrun.trimEnd_append,
        hfront] at h
      have hright : trimEnd (uncommented ((front.foldl Quoting.step .outside).step '$') rest) = right := by
        simpa using h
      rw [hkeep', uncommented_neutral hproper hdollar hother.neutral, trim_append_dollar, hother.trimEnd_append,
        hfront, hright]
      subst hright
      refine ⟨dropEndWhile_of_getLast? (getLast?_dropEndWhile _ _), ?_, rfl⟩
      rintro rfl
      rfl

end Text

open Text (Run Braced)

/-- A heredoc that starts after the reference would start without the braces, too. -/
theorem heredocMarker?_braced {front name braced right : Text} (hbraced : Braced name braced)
    (h : heredocMarker? (front ++ '$' :: (name ++ right)) = none) :
    heredocMarker? (front ++ '$' :: (braced ++ right)) = none := by
  cases hmarker : heredocMarker? (front ++ '$' :: (braced ++ right)) with
  | none => rfl
  | some marker =>
    obtain ⟨hname, before, hbefore⟩ := heredocMarker?_eq_some_iff.mp hmarker
    have hmem : ∀ c ∈ marker, Text.isNameChar c := Text.isNameChar_of_isName hname
    -- What opens the heredoc stands after the last brace.
    have hafter : ∀ opening : Text, '{' ∉ opening ++ marker → '}' ∉ opening ++ marker →
        front ++ '$' :: (braced ++ right) = before ++ (opening ++ marker) →
        ∃ others, front ++ '$' :: (name ++ right) = others ++ (opening ++ marker) := by
      intro opening hopen hclose heq
      cases hbraced with
      | opened =>
        have hsplit : front ++ '$' :: ('{' :: name ++ right) = front ++ ['$'] ++ '{' :: (name ++ right) := by simp
        rw [hsplit] at heq
        obtain ⟨others, -, hothers⟩ := Text.append_cons_eq_append hopen heq
        exact ⟨front ++ '$' :: others, by rw [hothers]; simp⟩
      | closed =>
        have hsplit : front ++ '$' :: ('{' :: (name ++ ['}']) ++ right) =
            front ++ '$' :: '{' :: name ++ '}' :: right := by simp
        rw [hsplit] at heq
        obtain ⟨others, -, hothers⟩ := Text.append_cons_eq_append hclose heq
        exact ⟨front ++ '$' :: (name ++ others), by rw [hothers]; simp⟩
    have hopen : '{' ∉ marker := fun hbrace => absurd (hmem _ hbrace) (by decide)
    have hclose : '}' ∉ marker := fun hbrace => absurd (hmem _ hbrace) (by decide)
    have hopens : HeredocAtEnd marker (front ++ '$' :: (name ++ right)) := by
      refine ⟨hname, ?_⟩
      rcases hbefore with hbefore | hbefore
      · obtain ⟨others, hothers⟩ := hafter ['<', '<'] (by simp [hopen]) (by simp [hclose]) hbefore
        exact ⟨others, .inl hothers⟩
      · obtain ⟨others, hothers⟩ := hafter ['<', '<', '-'] (by simp [hopen]) (by simp [hclose]) hbefore
        exact ⟨others, .inr hothers⟩
    rw [heredocMarker?_eq_some_iff.mpr hopens] at h
    cases h

/-! ## Statements -/

/-- The statements that have a text filled in: a literal, or an assignment to some variable. -/
inductive Statement.Filled : (Text → Statement) → Prop
  | literal : Filled .literal
  | assignment (target : Text) : Filled (.assignment target)

theorem Statement.NoSignature.append_dollar {front rest : Text} (h : NoSignature (front ++ '$' :: rest))
    (rest' : Text) : NoSignature (front ++ '$' :: rest') := by
  refine ⟨?_, ?_, importArgument?_append_dollar front rest rest' h.importing⟩
  · have hhead := h.declaration
    rw [List.head?_append] at hhead ⊢
    exact hhead
  · rw [isCall_append_dollar front rest]
    exact h.call

theorem Statement.length_lt_of_assignment? {code name value : Text} (h : assignment? code = some (name, value)) :
    value.length < code.length := by
  unfold assignment? at h
  split at h
  · rename_i reference
    dsimp only at h
    split at h
    · cases h
    · have hrest : (Text.trimStart (reference.dropWhile Text.isNameChar)).length ≤ reference.length :=
        ((List.dropWhile_sublist _).trans (List.dropWhile_sublist _)).length_le
      split at h
      · cases h
      · rename_i untrimmed _ hequals
        rw [hequals, List.length_cons] at hrest
        have hle := Text.length_trim_le untrimmed
        split at h
        · cases h
        · cases h
          rw [List.length_cons]
          omega
      · cases h
  · cases h

/-- Another run in the value of an assignment. -/
theorem Statement.assignment?_run {run other : Text} (hrun : Run run) (hother : Run other) {start left right : Text}
    (hright : Text.trimEnd right = right) {target : Text}
    (h : assignment? (start ++ left ++ '$' :: (run ++ right)) = some (target, left ++ '$' :: (run ++ right))) :
    assignment? (start ++ left ++ '$' :: (other ++ right)) = some (target, left ++ '$' :: (other ++ right)) := by
  have hne : start ++ left ≠ [] := by
    have hlength := length_lt_of_assignment? h
    rintro hnil
    rw [hnil, (List.append_eq_nil_iff.mp hnil).2] at hlength
    exact Nat.lt_irrefl _ hlength
  rcases assignment?_append_dollar (start ++ left) hne with hnever | ⟨assigned, value, halways⟩
  · rw [hnever] at h
    cases h
  · rw [halways, Text.trim_append_dollar, hrun.trimEnd_append, hright] at h
    obtain ⟨htarget, hvalue⟩ := Prod.mk.inj (Option.some.inj h)
    have hleft : Text.trimStart value = left := List.append_cancel_right hvalue
    rw [halways, Text.trim_append_dollar, hother.trimEnd_append, hright, hleft, htarget]

/-- Braces around a reference in a literal make no assignment of it. -/
theorem Statement.assignment?_braced {name braced left right : Text} (hbraced : Braced name braced)
    (h : assignment? (left ++ '$' :: (name ++ right)) = none) :
    assignment? (left ++ '$' :: (braced ++ right)) = none := by
  by_cases hleft : left = []
  · subst hleft
    cases hbraced <;> rfl
  · rcases assignment?_append_dollar left hleft with hnever | ⟨_, _, halways⟩
    · exact hnever _
    · rw [halways] at h
      cases h

namespace Line

section

variable {line line' : Line} {start left name braced rest right : Text} (hname : ∀ c ∈ name, Text.isNameChar c)
  (hbraced : Braced name braced) (hfeed : '\n' ∉ line.content) (hhead : ∀ c ∈ line.content.head?, ¬Text.isWhiteSpace c)
  (hcontent : line.content = start ++ left ++ '$' :: (name ++ rest))
  (hcontent' : line'.content = start ++ left ++ '$' :: (braced ++ rest))
  (hcode : line.code = start ++ left ++ '$' :: (name ++ right))

include hname hbraced hfeed hhead hcontent hcontent' hcode

theorem code_braced : Text.trimEnd right = right ∧ (rest = [] → right = []) ∧
    line'.code = start ++ left ++ '$' :: (braced ++ right) ∧ (line.opens? = none → line'.opens? = none) := by
  have hfeed' : '\n' ∉ line'.content := by
    have hfeed'' : '\n' ∉ braced := fun hmem => by
      have hname' : '\n' ∈ name := by cases hbraced <;> simpa using hmem
      exact absurd (hname _ hname') (by decide)
    rw [hcontent] at hfeed
    rw [hcontent']
    simp only [List.mem_append, List.mem_cons, not_or] at hfeed ⊢
    exact ⟨hfeed.1, hfeed.2.1, hfeed'', hfeed.2.2.2⟩
  have hfront : ∀ c ∈ (start ++ left).head?, ¬Text.isWhiteSpace c := by
    intro c hc
    refine hhead c ?_
    rw [hcontent, List.head?_append, Option.mem_def.mp hc]
    rfl
  rw [code_of_notMem hfeed, hcontent] at hcode
  obtain ⟨hright, hrest, hstrip⟩ :=
    Text.stripComment_run (Text.run_of_isNameChar hname) (hbraced.run hname) hfront hcode
  rw [code_of_notMem hfeed', opens?, opens?, hcontent, hcontent', hstrip, hcode]
  exact ⟨hright, hrest, rfl, heredocMarker?_braced hbraced⟩

/-- A literal stays a literal, and an assignment stays one. -/
theorem statement_braced {head : Text → Statement} (hfilled : Statement.Filled head)
    (h : line.statement = .ok (head (left ++ '$' :: (name ++ right)))) :
    line'.statement = .ok (head (left ++ '$' :: (braced ++ right))) := by
  obtain ⟨hright, -, hcode', -⟩ := code_braced hname hbraced hfeed hhead hcontent hcontent' hcode
  have hslashes : ¬['/', '/'] <+: line.content → ¬['/', '/'] <+: line'.content := by
    rw [hcontent, hcontent', slashes_append (by decide), slashes_append (by decide)]
    exact id
  cases hfilled with
  | literal =>
    rw [statement_eq_literal_iff, hcode] at h
    obtain ⟨hcomment, hsignature, htext, hassignment⟩ := h
    have hstart : start = [] := by
      rw [List.append_assoc] at htext
      exact List.append_left_eq_self.mp htext
    subst hstart
    rw [statement_eq_literal_iff, hcode']
    exact ⟨hslashes hcomment, hsignature.append_dollar _, rfl, Statement.assignment?_braced hbraced hassignment⟩
  | assignment target =>
    rw [statement_eq_assignment_iff, hcode] at h
    obtain ⟨hcomment, hsignature, hassignment⟩ := h
    rw [statement_eq_assignment_iff, hcode']
    exact ⟨hslashes hcomment, hsignature.append_dollar _,
      Statement.assignment?_run (Text.run_of_isNameChar hname) (hbraced.run hname) hright hassignment⟩

end

/-! ## Source lines -/

theorem not_isTrailer_of_isNameChar {c : Char} (h : Text.isNameChar c) : ¬isTrailer c := by
  rw [isTrailer]
  simp only [Bool.or_eq_true, beq_iff_eq]
  rintro (((rfl | rfl) | rfl) | rfl)
  · exact absurd h (by decide)
  · exact absurd h (by decide)
  · exact absurd h (by decide)
  · exact absurd h (by decide)

/-- A source line, whose indentation is known, with other content. -/
theorem ofSource?_replace {location : Location} {indent text : Text} {line : Line}
    (h : ofSource? location (indent ++ text) = some line) (hindent : indent.length = line.column) :
    line.content = Text.dropEndWhile isTrailer text ∧ (∀ c ∈ line.content.head?, ¬Text.isWhiteSpace c) ∧
      ∀ {content trailers : Text}, Bare content → (∀ c ∈ trailers, isTrailer c) →
        ofSource? location (indent ++ (content ++ trailers)) = some { line with content } := by
  obtain ⟨hlocation, hbare, indent', trailers, hsource, hlength, hwhite, htrailers⟩ := ofSource?_eq_some_iff.mp h
  rw [List.append_assoc] at hsource
  obtain ⟨rfl, rfl⟩ := List.append_inj hsource (hindent.trans hlength.symm)
  refine ⟨?_, hbare.head, fun hbare' htrailers' => ?_⟩
  · rw [Text.dropEndWhile_append _ htrailers, Text.dropEndWhile_of_getLast? hbare.last]
  · rw [← List.append_assoc]
    exact ofSource?_eq_some_iff.mpr ⟨hlocation, hbare', indent, _, rfl, hindent, hwhite, htrailers'⟩

/-- The `$` and what stands after it decide that nothing is dropped from the end. -/
theorem bare_append_dollar {front rest text : Text} (hhead : ∀ c ∈ (front ++ '$' :: rest).head?, ¬Text.isWhiteSpace c)
    (hne : text ≠ []) (hlast : ∀ c ∈ text.getLast?, ¬isTrailer c) : Bare (front ++ '$' :: text) := by
  refine ⟨by simp, ?_, ?_⟩
  · rw [List.head?_append] at hhead ⊢
    exact hhead
  · rw [List.getLast?_append_of_ne_nil _ (by simp), ← List.singleton_append, List.getLast?_append_of_ne_nil _ hne]
    exact hlast

/-- Braces around a reference in a source line. The closing one is dropped unless something other than blanks and
braces follows. -/
theorem ofSource?_braced {location : Location} {indent front name rest : Text} {line : Line} (hne : name ≠ [])
    (hname : ∀ c ∈ name, Text.isNameChar c)
    (h : ofSource? location (indent ++ (front ++ '$' :: (name ++ rest))) = some line)
    (hindent : indent.length = line.column) :
    ∃ braced kept line', line.content = front ++ '$' :: (name ++ kept) ∧
      line'.content = front ++ '$' :: (braced ++ kept) ∧ line.location = line'.location ∧
      line.column = line'.column ∧
      ofSource? location (indent ++ (front ++ '$' :: '{' :: (name ++ '}' :: rest))) = some line' ∧
      ((∃ c ∈ rest, ¬isTrailer c) ∧ braced = '{' :: (name ++ ['}']) ∨
        (∀ c ∈ rest, isTrailer c) ∧ braced = '{' :: name ∧ kept = []) := by
  obtain ⟨hcontent, hhead, hreplace⟩ := ofSource?_replace h hindent
  have hlast : ∀ c ∈ name.getLast?, ¬isTrailer c := fun c hc =>
    not_isTrailer_of_isNameChar (hname c (List.mem_of_getLast? hc))
  have hkeep : Text.dropEndWhile isTrailer (front ++ '$' :: (name ++ rest)) =
      front ++ '$' :: (name ++ Text.dropEndWhile isTrailer rest) := by
    have hsplit : ∀ text : Text, front ++ '$' :: (name ++ text) = front ++ ['$'] ++ name ++ text := by simp
    rw [hsplit, hsplit, Text.dropEndWhile_append_right]
    rwa [List.getLast?_append_of_ne_nil _ hne]
  rw [hkeep] at hcontent
  obtain ⟨trailers, hrest, htrailers⟩ := Text.exists_dropEndWhile_append isTrailer rest
  have hkept := Text.getLast?_dropEndWhile isTrailer rest
  generalize Text.dropEndWhile isTrailer rest = kept at hcontent hrest hkept
  rw [hcontent] at hhead
  by_cases hnil : kept = []
  · subst hnil
    have hall : ∀ c ∈ rest, isTrailer c := hrest ▸ htrailers
    have hbare : Bare (front ++ '$' :: '{' :: name) := by
      refine bare_append_dollar hhead (by simp) ?_
      rwa [← List.singleton_append, List.getLast?_append_of_ne_nil _ hne]
    have hline := hreplace hbare (List.forall_mem_cons.mpr ⟨show isTrailer '}' by decide, hall⟩)
    rw [List.append_assoc] at hline
    refine ⟨'{' :: name, [], { line with content := front ++ '$' :: '{' :: name }, hcontent, ?_, rfl, rfl, hline, ?_⟩
    · rw [List.append_nil]
    · exact .inr ⟨hall, rfl, rfl⟩
  · have hbare : Bare (front ++ '$' :: ('{' :: (name ++ ['}']) ++ kept)) := by
      refine bare_append_dollar hhead (by simp) ?_
      rwa [List.getLast?_append_of_ne_nil _ hnil]
    have hstays : ∃ c ∈ rest, ¬isTrailer c := by
      refine ⟨kept.getLast hnil, ?_, hkept _ (List.getLast?_eq_some_getLast hnil)⟩
      rw [hrest]
      exact List.mem_append_left _ (List.getLast_mem hnil)
    have hline := hreplace hbare htrailers
    refine ⟨'{' :: (name ++ ['}']), kept, { line with content := front ++ '$' :: ('{' :: (name ++ ['}']) ++ kept) },
      hcontent, rfl, rfl, rfl, ?_, .inl ⟨hstays, rfl⟩⟩
    rw [← hline, hrest]
    simp

end Line

end Scl
