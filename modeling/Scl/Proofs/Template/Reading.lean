import Scl.Proofs.Text.Trimming
import Scl.Template

/-!
# Reading templates

A template is read from one place of the text to the next, and what has been read does not depend on where the
reading started:

* `ofText_cons`: the pieces that a character starts, and then those of what they leave over;
* `ofText_span`, `ofText_span_open`: a raw span, and one that has no end;
* `Reaches.ofText_eq`: what is read before a `$` does not depend on what stands after it;
* `ofText_braced`: braces around the name of a reference make no difference;
* `fill_open`: without the closing brace the text cannot be filled in.
-/

namespace Scl.Template

theorem readFrom_length (taken rest : Text) : readFrom taken.length (taken ++ rest) = ofText rest := by
  induction taken with
  | nil => rfl
  | cons c taken ih => exact ih

theorem ofText_cons {c : Char} {taken rest : Text} (h : (first c (taken ++ rest)).2 = taken.length) :
    ofText (c :: (taken ++ rest)) = (first c (taken ++ rest)).1 ++ ofText rest := by
  show (first c (taken ++ rest)).1 ++ readFrom (first c (taken ++ rest)).2 (taken ++ rest) = _
  rw [h, readFrom_length]

/-- A character that starts nothing stands for itself. -/
theorem ofText_plain {c : Char} (h : c ≠ '\\' ∧ c ≠ Text.backtick ∧ c ≠ '$') (rest : Text) :
    ofText (c :: rest) = .text [c] :: ofText rest := by
  have hfirst : first c rest = ([.text [c]], 0) := by simp [first, h]
  show (first c rest).1 ++ readFrom (first c rest).2 rest = _
  rw [hfirst]
  rfl

/-! ## Spans between backticks -/

theorem ofText_span {segment : Text} (h : Text.backtick ∉ segment) (rest : Text) :
    ofText (Text.backtick :: (segment ++ Text.backtick :: rest)) = .text segment :: ofText rest := by
  have hraw : ∀ c ∈ segment, (c != Text.backtick) = true := fun c hc => bne_iff_ne.mpr fun heq => h (heq ▸ hc)
  have hfirst : first Text.backtick (segment ++ [Text.backtick] ++ rest) = ([.text segment], segment.length + 1) := by
    show rawSpan (segment ++ [Text.backtick] ++ rest) = _
    rw [List.append_assoc, rawSpan, List.takeWhile_append_of_pos hraw, List.singleton_append,
      List.takeWhile_cons_of_neg (by simp), List.append_nil, if_pos (by simp)]
  have hread := ofText_cons (c := Text.backtick) (by rw [hfirst]; simp)
  rw [hfirst, List.append_assoc] at hread
  exact hread

theorem ofText_span_open {segment : Text} (h : Text.backtick ∉ segment) :
    ofText (Text.backtick :: segment) = [.text segment, .unterminated] := by
  have hraw : ∀ c ∈ segment, (c != Text.backtick) = true := fun c hc => bne_iff_ne.mpr fun heq => h (heq ▸ hc)
  have hfirst : first Text.backtick (segment ++ []) = ([.text segment, .unterminated], segment.length) := by
    show rawSpan (segment ++ []) = _
    rw [rawSpan, List.takeWhile_append_of_pos hraw, List.takeWhile_nil, if_neg (by simp), List.append_nil]
  have hread : ofText (Text.backtick :: (segment ++ [])) = _ := ofText_cons (by rw [hfirst])
  rw [hfirst, List.append_nil] at hread
  exact hread

/-! ## What a piece depends on -/

theorem rawSpan_append_dollar {more rest : Text} (h : (rawSpan (more ++ '$' :: rest)).2 ≤ more.length)
    (rest' : Text) : rawSpan (more ++ '$' :: rest') = rawSpan (more ++ '$' :: rest) := by
  simp only [rawSpan, List.takeWhile_append] at h ⊢
  by_cases hlength : (more.takeWhile (· != Text.backtick)).length = more.length
  · -- The span would go on after the `$`.
    have hdollar : ('$' :: rest).takeWhile (· != Text.backtick) = '$' :: rest.takeWhile (· != Text.backtick) :=
      List.takeWhile_cons_of_pos (by decide)
    rw [if_pos hlength, hdollar] at h
    split at h
    · simp only [List.length_append, List.length_cons] at h
      omega
    · simp only [List.length_append, List.length_cons] at h
      omega
  · have hle := (List.takeWhile_prefix (· != Text.backtick) (l := more)).length_le
    rw [if_neg hlength, if_neg hlength, if_pos (by simp; omega), if_pos (by simp; omega)]

/-- A `$` before neither a second one nor a brace. -/
theorem dollar_bare {c : Char} (hrun : c ≠ '$') (hbrace : c ≠ '{') (rest : Text) :
    dollar (c :: rest) =
      let name := (c :: rest).takeWhile Text.isNameChar
      if name.isEmpty then ([.text ['$']], 0) else ([.reference name], name.length) := by
  rw [dollar]
  · rintro more heq
    exact hrun (List.cons.inj heq).1
  · rintro braced heq
    exact hbrace (List.cons.inj heq).1

theorem dollar_append_dollar {more rest : Text} (h : (dollar (more ++ '$' :: rest)).2 ≤ more.length)
    (rest' : Text) : dollar (more ++ '$' :: rest') = dollar (more ++ '$' :: rest) := by
  have hname : ∀ text rest : Text, (text ++ '$' :: rest).takeWhile Text.isNameChar = text.takeWhile Text.isNameChar :=
    fun text rest => Text.takeWhile_append_cons (by decide) text rest
  cases more with
  | nil => simp [dollar] at h
  | cons c more =>
    simp only [List.cons_append] at h ⊢
    by_cases hrun : c = '$'
    · subst hrun
      simp only [dollar, List.takeWhile_append] at h ⊢
      by_cases hlength : (more.takeWhile (· == '$')).length = more.length
      · rw [if_pos hlength, List.takeWhile_cons_of_pos (by decide)] at h
        simp only [List.length_append, List.length_cons] at h
        omega
      · rw [if_neg hlength, if_neg hlength]
    · by_cases hbrace : c = '{'
      · subst hbrace
        have hle : (more.takeWhile Text.isNameChar).length ≤ more.length := (List.takeWhile_prefix _).length_le
        simp only [dollar, hname, List.drop_append_of_le_length hle, List.head?_append, List.head?_cons]
      · have hcons := hname (c :: more)
        simp only [List.cons_append] at hcons
        rw [dollar_bare hrun hbrace, dollar_bare hrun hbrace, hcons, hcons]

/-- What a character starts is the same whatever stands after a `$`, unless it takes the `$` along. -/
theorem first_append_dollar {c : Char} {more rest : Text} (h : (first c (more ++ '$' :: rest)).2 ≤ more.length)
    (rest' : Text) : first c (more ++ '$' :: rest') = first c (more ++ '$' :: rest) := by
  simp only [first] at h ⊢
  split
  · cases more <;> rfl
  · rename_i hbackslash
    rw [if_neg hbackslash] at h
    split
    · rename_i hbacktick
      rw [if_pos hbacktick] at h
      exact rawSpan_append_dollar h rest'
    · rename_i hbacktick
      rw [if_neg hbacktick] at h
      split
      · rename_i hdollar
        rw [if_pos hdollar] at h
        exact dollar_append_dollar h rest'
      · rfl

/-! ## References -/

/-- Reading comes to the place after some text and before the rest. -/
inductive Reaches (rest : Text) : Text → Prop
  | here : Reaches rest []
  | step {c : Char} {taken before : Text} : (first c (taken ++ (before ++ rest))).2 = taken.length →
    Reaches rest before → Reaches rest (c :: (taken ++ before))

/-- What is read before a `$`. -/
theorem Reaches.ofText_eq {rest before : Text} (h : Reaches ('$' :: rest) before) :
    ∃ pieces, ∀ rest', ofText (before ++ '$' :: rest') = pieces ++ ofText ('$' :: rest') := by
  induction h with
  | here => exact ⟨[], fun rest' => rfl⟩
  | @step c taken before hfirst _ ih =>
    obtain ⟨pieces, hpieces⟩ := ih
    refine ⟨(first c (taken ++ (before ++ '$' :: rest))).1 ++ pieces, fun rest' => ?_⟩
    have hsame : first c (taken ++ (before ++ '$' :: rest')) = first c (taken ++ (before ++ '$' :: rest)) := by
      simp only [← List.append_assoc] at hfirst ⊢
      exact first_append_dollar (by rw [hfirst]; simp) rest'
    rw [List.cons_append, List.append_assoc, ofText_cons (hsame ▸ hfirst), hsame, hpieces, List.append_assoc]

section

variable {name : Text} (hne : name ≠ []) (hname : ∀ c ∈ name, Text.isNameChar c)

include hne hname

theorem ofText_reference {rest : Text} (hrest : ∀ c ∈ rest.head?, ¬Text.isNameChar c) :
    ofText ('$' :: (name ++ rest)) = .reference name :: ofText rest := by
  have htake : (name ++ rest).takeWhile Text.isNameChar = name := by
    rw [List.takeWhile_append_of_pos hname, Text.takeWhile_of_head? hrest, List.append_nil]
  have hfirst : first '$' (name ++ rest) = ([.reference name], name.length) := by
    obtain ⟨c, name, rfl⟩ := List.exists_cons_of_ne_nil hne
    have hc := hname c List.mem_cons_self
    have hrun : c ≠ '$' := by
      rintro rfl
      exact absurd hc (by decide)
    have hbrace : c ≠ '{' := by
      rintro rfl
      exact absurd hc (by decide)
    show dollar (c :: (name ++ rest)) = _
    rw [dollar_bare hrun hbrace, ← List.cons_append, htake]
    rfl
  rw [ofText_cons (by rw [hfirst]), hfirst]
  rfl

theorem first_brace {rest : Text} (hrest : ∀ c ∈ rest.head?, ¬Text.isNameChar c) :
    first '$' ('{' :: (name ++ rest)) =
      if rest.head? = some '}' then ([.reference name], name.length + 2) else ([.unclosed name], name.length + 1) := by
  have htake : (name ++ rest).takeWhile Text.isNameChar = name := by
    rw [List.takeWhile_append_of_pos hname, Text.takeWhile_of_head? hrest, List.append_nil]
  show dollar ('{' :: (name ++ rest)) = _
  simp only [dollar, htake, List.drop_left]
  exact if_neg (by simpa using hne)

theorem ofText_reference_braced (rest : Text) :
    ofText ('$' :: '{' :: (name ++ '}' :: rest)) = .reference name :: ofText rest := by
  have hbrace : ∀ c ∈ ('}' :: rest).head?, ¬Text.isNameChar c := by
    rintro c ⟨⟩
    decide
  have hfirst := first_brace hne hname hbrace
  rw [if_pos (by rfl)] at hfirst
  have htaken : '{' :: (name ++ '}' :: rest) = ('{' :: (name ++ ['}'])) ++ rest := by simp
  rw [htaken] at hfirst ⊢
  rw [ofText_cons (by rw [hfirst]; simp), hfirst]
  rfl

theorem ofText_unclosed {rest : Text} (hrest : ∀ c ∈ rest.head?, ¬Text.isNameChar c ∧ c ≠ '}') :
    ofText ('$' :: '{' :: (name ++ rest)) = .unclosed name :: ofText rest := by
  have hfirst := first_brace hne hname fun c hc => (hrest c hc).1
  have hopen : rest.head? ≠ some '}' := fun hbrace => (hrest '}' hbrace).2 rfl
  rw [if_neg hopen] at hfirst
  have hread : ofText ('$' :: ('{' :: name ++ rest)) = _ := ofText_cons (by rw [List.cons_append, hfirst]; simp)
  rw [List.cons_append, hfirst] at hread
  exact hread

theorem ofText_reference_open : ofText ('$' :: '{' :: name) = [.unclosed name] := by
  have hread := @ofText_unclosed _ hne hname [] nofun
  rwa [List.append_nil] at hread

/-- Braces around the name of a reference make no difference. -/
theorem ofText_braced {before rest : Text} (hrest : ∀ c ∈ rest.head?, ¬Text.isNameChar c)
    (h : Reaches ('$' :: (name ++ rest)) before) :
    ofText (before ++ '$' :: '{' :: (name ++ '}' :: rest)) = ofText (before ++ '$' :: (name ++ rest)) := by
  obtain ⟨pieces, hpieces⟩ := h.ofText_eq
  rw [hpieces, hpieces, ofText_reference hne hname hrest, ofText_reference_braced hne hname]

/-- A text that ends in a reference without the closing brace cannot be filled in. -/
theorem fill_open {before rest : Text} (h : Reaches ('$' :: rest) before) (value? : Text → Option Text) :
    ∃ failure, fill value? (ofText (before ++ '$' :: '{' :: name)) = .error failure := by
  obtain ⟨pieces, hpieces⟩ := h.ofText_eq
  have hfault : ((ofText (before ++ '$' :: '{' :: name)).findSome? (Piece.fault? value?)).isSome := by
    rw [hpieces, ofText_reference_open hne hname, List.findSome?_isSome_iff]
    exact ⟨.unclosed name, by simp, rfl⟩
  obtain ⟨fault, hfault⟩ := Option.isSome_iff_exists.mp hfault
  rw [fill, hfault]
  exact ⟨_, rfl⟩

end

end Scl.Template
