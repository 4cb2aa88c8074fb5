import Scl.Text.Comment

/-!
# Comments, one character at a time

Whether `//` starts a comment depends on the quoted span that it stands in, which `Quoting` keeps track of:

* `beforeComment_eq`: the text before a comment, read with a quoting state;
* `uncommented_eq_self`, `HasComment.cut`: nothing is cut, or what is left ends outside quoted spans and before
  `//`;
* `uncommented_append`: text before some other character is read as if nothing followed;
* `not_hasComment_append`, `not_hasComment_uncommented`: texts without a comment;
* `uncommented_neutral`: characters that are neither quotes nor slashes nor backslashes change nothing.
-/

namespace Scl.Text

/-- The text before the first `//` that a reader finds outside of quoted spans. -/
def uncommented : Quoting → Text → Text
  | _, [] => []
  | state, c :: rest =>
    if state = .outside ∧ c = '/' ∧ rest.head? = some '/' then [] else c :: uncommented (state.step c) rest

theorem uncommented_cons {state : Quoting} {c : Char} {rest : Text}
    (h : ¬(state = .outside ∧ c = '/' ∧ rest.head? = some '/')) :
    uncommented state (c :: rest) = c :: uncommented (state.step c) rest :=
  if_neg h

theorem uncommented_inside (quote : Char) (escaped : Bool) (c : Char) (rest : Text) :
    uncommented (.inside quote escaped) (c :: rest) =
      c :: uncommented ((Quoting.inside quote escaped).step c) rest :=
  uncommented_cons fun h => nomatch h.1

/-- The state inside a span of `quote`, if any. -/
def Quoting.ofQuote : Option Char → Quoting
  | none => .outside
  | some quote => .inside quote false

theorem beforeComment_eq (quote : Option Char) (text : Text) :
    beforeComment quote text = uncommented (.ofQuote quote) text := by
  fun_induction beforeComment quote text with
  | case1 => rfl
  | case2 quote c =>
    rw [uncommented_cons (by simp)]
    rfl
  | case3 c d rest hslashes =>
    have hcomment : c = '/' ∧ d = '/' := by simpa using hslashes
    rw [uncommented, if_pos ⟨rfl, hcomment.1, congrArg some hcomment.2⟩]
  | case4 c d rest hslashes ih =>
    have hcomment : ¬(c = '/' ∧ d = '/') := by simpa using hslashes
    have hstep : (Quoting.ofQuote none).step c = .ofQuote (if isQuote c then some c else none) := by
      cases hquote : isQuote c <;> simp [Quoting.ofQuote, Quoting.step, hquote]
    rw [uncommented_cons (by simpa [Quoting.ofQuote] using hcomment), hstep, ih]
  | case5 c d rest quote hescape ih =>
    -- A backslash takes the next character along, which here are two steps.
    have hstep : (Quoting.inside quote false).step c = .inside quote true := by
      simp [Quoting.step, hescape]
    rw [Quoting.ofQuote, uncommented_inside, hstep, uncommented_inside, ih]
    rfl
  | case6 c d rest quote hescape ih =>
    have hstep : (Quoting.inside quote false).step c = .ofQuote (if c == quote then none else some quote) := by
      cases hclose : c == quote <;> simp [Quoting.ofQuote, Quoting.step, hescape, hclose]
    rw [ih, ← hstep]
    exact (uncommented_inside quote false c (d :: rest)).symm

theorem stripComment_eq (text : Text) : stripComment text = trim (uncommented .outside text) :=
  congrArg trim (beforeComment_eq none text)

/-! ## Where a comment starts -/

/-- There is `//` where a reader of the text stands outside of quoted spans. -/
def HasComment (state : Quoting) (text : Text) : Prop :=
  ∃ before after, text = before ++ '/' :: '/' :: after ∧ before.foldl Quoting.step state = .outside

variable {state : Quoting} {text : Text}

theorem hasComment_nil : ¬HasComment state [] := by
  rintro ⟨before, after, heq, -⟩
  simp at heq

theorem hasComment_cons {c : Char} : HasComment state (c :: text) ↔
    (state = .outside ∧ c = '/' ∧ text.head? = some '/') ∨ HasComment (state.step c) text := by
  constructor
  · rintro ⟨before, after, heq, hstate⟩
    cases before with
    | nil =>
      obtain ⟨rfl, rfl⟩ := List.cons.inj heq
      exact .inl ⟨hstate, rfl, rfl⟩
    | cons d before =>
      obtain ⟨rfl, rfl⟩ := List.cons.inj heq
      exact .inr ⟨before, after, rfl, hstate⟩
  · rintro (⟨hstate, rfl, hhead⟩ | ⟨before, after, rfl, hstate⟩)
    · obtain ⟨rest, rfl⟩ := List.head?_eq_some_iff.mp hhead
      exact ⟨[], rest, rfl, hstate⟩
    · exact ⟨c :: before, after, rfl, hstate⟩

theorem uncommented_eq_self (h : ¬HasComment state text) : uncommented state text = text := by
  induction text generalizing state with
  | nil => rfl
  | cons c rest ih =>
    rw [hasComment_cons, not_or] at h
    rw [uncommented_cons h.1, ih h.2]

/-- What is left of a text with a comment. -/
theorem HasComment.cut (h : HasComment state text) : ∃ after,
    text = uncommented state text ++ '/' :: '/' :: after ∧
      (uncommented state text).foldl Quoting.step state = .outside := by
  induction text generalizing state with
  | nil => exact absurd h hasComment_nil
  | cons c rest ih =>
    rw [uncommented]
    split
    · rename_i hhere
      obtain ⟨rest, rfl⟩ := List.head?_eq_some_iff.mp hhere.2.2
      exact ⟨rest, by rw [hhere.2.1]; rfl, hhere.1⟩
    · rename_i hhere
      obtain ⟨after, hrest, hstate⟩ := ih ((hasComment_cons.mp h).resolve_left hhere)
      exact ⟨after, congrArg (c :: ·) hrest, hstate⟩

theorem hasComment_iff : HasComment state text ↔ uncommented state text ≠ text := by
  constructor
  · intro h heq
    obtain ⟨after, htext, -⟩ := h.cut
    rw [heq] at htext
    simp at htext
  · exact fun h => Classical.byContradiction fun hnone => h (uncommented_eq_self hnone)

instance : Decidable (HasComment state text) :=
  decidable_of_iff _ hasComment_iff.symm

/-- A comment starts before a character, or the character is read in the state that the text leads to. -/
theorem uncommented_append {c : Char} (hc : c ≠ '/') (first rest : Text) :
    (HasComment state first ∧ uncommented state (first ++ c :: rest) = uncommented state first) ∨
      ¬HasComment state first ∧ uncommented state (first ++ c :: rest) =
        first ++ uncommented (first.foldl Quoting.step state) (c :: rest) := by
  induction first generalizing state with
  | nil => exact .inr ⟨hasComment_nil, rfl⟩
  | cons d first ih =>
    have hhead : (first ++ c :: rest).head? = some '/' ↔ first.head? = some '/' := by
      cases first with
      | nil => simpa using hc
      | cons e first => exact Iff.rfl
    rw [List.cons_append, uncommented, hasComment_cons, uncommented]
    simp only [hhead]
    split
    · rename_i hhere
      exact .inl ⟨.inl hhere, rfl⟩
    · rename_i hhere
      rcases ih with ⟨hcomment, heq⟩ | ⟨hcomment, heq⟩
      · exact .inl ⟨.inr hcomment, congrArg (d :: ·) heq⟩
      · exact .inr ⟨not_or.mpr ⟨hhere, hcomment⟩, congrArg (d :: ·) heq⟩

theorem hasComment_append (h : HasComment state text) (rest : Text) : HasComment state (text ++ rest) := by
  obtain ⟨before, after, rfl, hstate⟩ := h
  exact ⟨before, after ++ rest, by simp, hstate⟩

/-- A comment after text that ends outside of quoted spans. -/
theorem HasComment.append_left (h : HasComment .outside text) {first : Text}
    (hfirst : first.foldl Quoting.step state = .outside) : HasComment state (first ++ text) := by
  obtain ⟨before, after, rfl, hstate⟩ := h
  exact ⟨first ++ before, after, by simp, by rw [List.foldl_append, hfirst, hstate]⟩

/-- Two parts without a comment make a text without one, unless a slash starts the second part. -/
theorem not_hasComment_append {first rest : Text} {c : Char} (hc : c ≠ '/') (hfirst : ¬HasComment state first)
    (hrest : ¬HasComment (first.foldl Quoting.step state) (c :: rest)) : ¬HasComment state (first ++ c :: rest) := by
  rcases uncommented_append hc first rest with ⟨hcomment, -⟩ | ⟨-, heq⟩
  · exact absurd hcomment hfirst
  · rw [uncommented_eq_self hrest] at heq
    exact fun hcomment => hasComment_iff.mp hcomment heq

theorem not_hasComment_of_slash_notMem (h : '/' ∉ text) : ¬HasComment state text := by
  rintro ⟨before, after, rfl, -⟩
  simp at h

/-- What is left of a text has no comment. -/
theorem not_hasComment_uncommented (state : Quoting) (text : Text) : ¬HasComment state (uncommented state text) := by
  induction text generalizing state with
  | nil => exact hasComment_nil
  | cons c rest ih =>
    rw [uncommented]
    split
    · exact hasComment_nil
    · rename_i hhere
      rw [hasComment_cons, not_or]
      refine ⟨fun ⟨hstate, hc, hhead⟩ => hhere ⟨hstate, hc, ?_⟩, ih _⟩
      -- The first character that is left of the rest is that of the rest.
      cases rest with
      | nil => cases hhead
      | cons d rest =>
        rw [uncommented] at hhead
        split at hhead
        · cases hhead
        · exact hhead

theorem mem_of_mem_uncommented {c : Char} (h : c ∈ uncommented state text) : c ∈ text := by
  induction text generalizing state with
  | nil => exact h
  | cons d rest ih =>
    rw [uncommented] at h
    split at h
    · cases h
    · rcases List.mem_cons.mp h with rfl | h
      · exact List.mem_cons_self
      · exact List.mem_cons_of_mem d (ih h)

/-! ## Characters that change nothing -/

/-- Only quotes open spans. -/
def Quoting.Proper : Quoting → Prop
  | .outside => True
  | .inside quote _ => isQuote quote

theorem Quoting.Proper.step (h : state.Proper) (c : Char) : (state.step c).Proper := by
  fun_cases Quoting.step state c with
  | case1 _ hquote => exact hquote
  | case2 => trivial
  | case3 => exact h
  | case4 => exact h
  | case5 => trivial
  | case6 => exact h

theorem Quoting.Proper.foldl_step (h : state.Proper) (text : Text) : (text.foldl Quoting.step state).Proper := by
  induction text generalizing state with
  | nil => exact h
  | cons c rest ih => exact ih (h.step c)

/-- A character that has no meaning to comments and quotes. -/
structure Neutral (c : Char) : Prop where
  quote : ¬isQuote c
  backslash : c ≠ '\\'
  slash : c ≠ '/'

instance (c : Char) : Decidable (Neutral c) :=
  decidable_of_iff (¬isQuote c ∧ c ≠ '\\' ∧ c ≠ '/')
    ⟨fun h => ⟨h.1, h.2.1, h.2.2⟩, fun h => ⟨h.quote, h.backslash, h.slash⟩⟩

theorem neutral_of_isNameChar {c : Char} (h : isNameChar c) : Neutral c := by
  refine ⟨fun hquote => ?_, ?_, ?_⟩
  · simp only [isQuote, Bool.or_eq_true, beq_iff_eq] at hquote
    rcases hquote with (rfl | rfl) | rfl
    · exact absurd h (by decide)
    · exact absurd h (by decide)
    · exact absurd h (by decide)
  · rintro rfl
    exact absurd h (by decide)
  · rintro rfl
    exact absurd h (by decide)

/-- After a neutral character nothing is escaped, so that a second one leaves the state as it is. -/
theorem Quoting.Proper.step_step (h : state.Proper) {c d : Char} (hc : Neutral c) (hd : Neutral d) :
    (state.step c).step d = state.step c := by
  have hinside : ∀ quote : Char, isQuote quote → ∀ e, Neutral e →
      (Quoting.inside quote false).step e = .inside quote false := by
    intro quote hquote e he
    have hne : e ≠ quote := fun heq => he.quote (heq ▸ hquote)
    simp [Quoting.step, he.backslash, hne]
  match state with
  | .outside => simp [Quoting.step, hc.quote, hd.quote]
  | .inside quote true => exact hinside quote h d hd
  | .inside quote false => rw [hinside quote h c hc, hinside quote h d hd]

theorem uncommented_neutral (h : state.Proper) {c : Char} (hc : Neutral c) {run : Text}
    (hrun : ∀ d ∈ run, Neutral d) (rest : Text) :
    uncommented state (c :: (run ++ rest)) = c :: (run ++ uncommented (state.step c) rest) := by
  rw [uncommented_cons fun hcomment => hc.slash hcomment.2.1]
  congr 1
  induction run with
  | nil => rfl
  | cons d run ih =>
    obtain ⟨hd, hothers⟩ := List.forall_mem_cons.mp hrun
    rw [List.cons_append, uncommented_cons fun hcomment => hd.slash hcomment.2.1, h.step_step hc hd, ih hothers]
    rfl

/-- Neutral characters in front of a text neither start a comment nor hide one. -/
theorem hasComment_neutral_append {run : Text} (h : ∀ c ∈ run, Neutral c) :
    HasComment .outside (run ++ text) ↔ HasComment .outside text := by
  induction run with
  | nil => exact Iff.rfl
  | cons c run ih =>
    obtain ⟨hc, hrun⟩ := List.forall_mem_cons.mp h
    have hstep : Quoting.outside.step c = .outside := if_neg hc.quote
    rw [List.cons_append, hasComment_cons, hstep, ih hrun]
    exact or_iff_right fun hcomment => hc.slash hcomment.2.1

end Scl.Text
