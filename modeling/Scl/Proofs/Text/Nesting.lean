import Mathlib.Data.List.Infix
import Scl.Proofs.Text.Comment

/-!
# Levels of brackets

How many more brackets a text opens than it closes outside of quoted spans, as an integer, so that a text
may close more than it opens:

* `level`: what a text adds to the number of open brackets;
* `Nesting.Closes`: a text leads out of all quotes and brackets and never closes more than is open;
* `Nesting.Item`: such a text without a comma outside of quotes and brackets;
* `Nesting.closes_cons`, `Nesting.item_cons`: both, one character at a time;
* `Nesting.item_append`, `Nesting.Item.of_append`: items with inert characters around them.
-/

namespace Scl.Text

/-- What a character outside of quoted spans adds to the number of open brackets. -/
def weight (c : Char) : Int :=
  if isOpening c then 1 else if isClosing c then -1 else 0

/-- What a text adds to the number of open brackets, read from a quoting state. -/
def level : Quoting → Text → Int
  | _, [] => 0
  | quoting, c :: rest => (if quoting = .outside then weight c else 0) + level (quoting.step c) rest

/-- The quoting state after a text. -/
def Quoting.after (quoting : Quoting) (text : Text) : Quoting :=
  text.foldl step quoting

namespace Nesting

variable {nesting : Nesting} {text : Text}

/-- Reading a text leads out of all quotes and brackets, and on the way there are never fewer than no open
brackets. -/
structure Closes (nesting : Nesting) (text : Text) : Prop where
  nonneg (before : Text) : before <+: text → 0 ≤ nesting.depth + level nesting.quoting before
  outside : nesting.quoting.after text = .outside
  level_eq : nesting.depth + level nesting.quoting text = 0

/-- A text that closes what is open and has no comma outside of quotes and brackets. -/
structure Item (nesting : Nesting) (text : Text) : Prop extends Closes nesting text where
  comma (before after : Text) : text = before ++ ',' :: after → nesting.quoting.after before = .outside →
    nesting.depth + level nesting.quoting before ≠ 0

theorem eq_top_iff : nesting = .top ↔ nesting.quoting = .outside ∧ nesting.depth = 0 := by
  obtain ⟨quoting, depth⟩ := nesting
  simp [Nesting.top]

/-- A character changes the depth by its weight, unless it closes what is not open. -/
theorem depth_step {c : Char} (h : ¬(nesting = .top ∧ isClosing c)) :
    ((nesting.step c).depth : Int) = nesting.depth + if nesting.quoting = .outside then weight c else 0 := by
  rw [eq_top_iff] at h
  simp only [step, weight]
  by_cases hquoting : nesting.quoting = .outside
  · simp only [hquoting, if_true]
    by_cases hopening : isOpening c
    · simp [hopening]
    · by_cases hclosing : isClosing c
      · have hdepth : nesting.depth ≠ 0 := fun h0 => h ⟨⟨hquoting, h0⟩, hclosing⟩
        simp only [hopening, hclosing, if_true, Bool.false_eq_true, if_false]
        omega
      · simp [hopening, hclosing]
  · simp [hquoting]

theorem isOpening_of_isClosing {c : Char} (hc : isClosing c) : isOpening c = false := by
  simp only [isClosing, Bool.or_eq_true, beq_iff_eq] at hc
  rcases hc with (rfl | rfl) | rfl <;> decide

/-- A bracket that closes what is not open makes the depth negative. -/
theorem not_closes_top {c : Char} (hc : isClosing c) (rest : Text) : ¬Closes .top (c :: rest) := by
  intro h
  have hopening := isOpening_of_isClosing hc
  have hneg := h.nonneg [c] ⟨rest, rfl⟩
  simp [level, weight, hopening, hc] at hneg

theorem closes_nil : Closes nesting [] ↔ nesting = .top := by
  rw [eq_top_iff]
  constructor
  · intro h
    have hlevel := h.level_eq
    simp only [level] at hlevel
    exact ⟨h.outside, by omega⟩
  · rintro ⟨hquoting, hdepth⟩
    refine ⟨fun before hbefore => ?_, hquoting, by simp [level, hdepth]⟩
    rw [List.prefix_nil.mp hbefore]
    simp [level, hdepth]

theorem closes_cons {c : Char} {rest : Text} :
    Closes nesting (c :: rest) ↔ ¬(nesting = .top ∧ isClosing c) ∧ Closes (nesting.step c) rest := by
  constructor
  · intro h
    have hstep : ¬(nesting = .top ∧ isClosing c) := by
      rintro ⟨rfl, hc⟩
      exact not_closes_top hc rest h
    have hdepth := depth_step hstep
    refine ⟨hstep, fun before hbefore => ?_, h.outside, ?_⟩
    · have hnonneg := h.nonneg (c :: before) (List.cons_prefix_cons.mpr ⟨rfl, hbefore⟩)
      rw [level] at hnonneg
      show 0 ≤ ((nesting.step c).depth : Int) + level (nesting.quoting.step c) before
      omega
    · have hlevel := h.level_eq
      rw [level] at hlevel
      show ((nesting.step c).depth : Int) + level (nesting.quoting.step c) rest = 0
      omega
  · rintro ⟨hstep, h⟩
    have hdepth := depth_step hstep
    have hlevel : (nesting.step c).depth + level (nesting.quoting.step c) rest = 0 := h.level_eq
    refine ⟨fun before hbefore => ?_, h.outside, by rw [level]; omega⟩
    rcases List.prefix_cons_iff.mp hbefore with rfl | ⟨others, rfl, hothers⟩
    · simp [level]
    · have hnonneg : 0 ≤ ((nesting.step c).depth : Int) + level (nesting.quoting.step c) others :=
        h.nonneg others hothers
      rw [level]
      omega

theorem item_nil : Item nesting [] ↔ nesting = .top := by
  refine ⟨fun h => closes_nil.mp h.toCloses, fun h => ⟨closes_nil.mpr h, fun before after hsplit => ?_⟩⟩
  simp at hsplit

theorem item_cons {c : Char} {rest : Text} :
    Item nesting (c :: rest) ↔ ¬(nesting = .top ∧ (isClosing c ∨ c = ',')) ∧ Item (nesting.step c) rest := by
  constructor
  · intro h
    obtain ⟨hstep, hrest⟩ := closes_cons.mp h.toCloses
    have hdepth := depth_step hstep
    have hcomma : ¬(nesting = .top ∧ c = ',') := by
      rintro ⟨rfl, rfl⟩
      exact h.comma [] rest rfl rfl (by simp [level])
    refine ⟨?_, hrest, ?_⟩
    · rintro ⟨htop, hclosing | heq⟩
      · exact hstep ⟨htop, hclosing⟩
      · exact hcomma ⟨htop, heq⟩
    · intro before after hsplit houtside
      have hne := h.comma (c :: before) after (by rw [hsplit]; rfl) houtside
      rw [level] at hne
      show ((nesting.step c).depth : Int) + level (nesting.quoting.step c) before ≠ 0
      omega
  · rintro ⟨hc, h⟩
    have hstep : ¬(nesting = .top ∧ isClosing c) := fun htop => hc ⟨htop.1, .inl htop.2⟩
    have hdepth := depth_step hstep
    refine ⟨closes_cons.mpr ⟨hstep, h.toCloses⟩, fun before after hsplit houtside => ?_⟩
    rcases List.cons_eq_append_iff.mp hsplit with ⟨rfl, hhead⟩ | ⟨others, rfl, hothers⟩
    · obtain ⟨rfl, -⟩ := List.cons.inj hhead
      intro hzero
      simp only [level] at hzero
      exact hc ⟨eq_top_iff.mpr ⟨houtside, by omega⟩, .inr rfl⟩
    · have hne : ((nesting.step c).depth : Int) + level (nesting.quoting.step c) others ≠ 0 :=
        h.comma others after hothers houtside
      rw [level]
      omega

theorem Closes.append {second : Text} (h : Closes nesting text) (hsecond : Closes .top second) :
    Closes nesting (text ++ second) := by
  induction text generalizing nesting with
  | nil => exact closes_nil.mp h ▸ hsecond
  | cons c rest ih =>
    obtain ⟨hstep, hrest⟩ := closes_cons.mp h
    exact closes_cons.mpr ⟨hstep, ih hrest⟩

end Nesting

/-! ## Characters that change nothing -/

/-- A character that has no meaning to argument lists. -/
structure Inert (c : Char) : Prop where
  quote : ¬isQuote c
  opening : ¬isOpening c
  closing : ¬isClosing c
  comma : c ≠ ','

instance (c : Char) : Decidable (Inert c) :=
  decidable_of_iff (¬isQuote c ∧ ¬isOpening c ∧ ¬isClosing c ∧ c ≠ ',')
    ⟨fun h => ⟨h.1, h.2.1, h.2.2.1, h.2.2.2⟩, fun h => ⟨h.quote, h.opening, h.closing, h.comma⟩⟩

theorem inert_of_isWhiteSpace {c : Char} (h : isWhiteSpace c) : Inert c := by
  have hmeaning : ∀ d, (isQuote d ∨ isOpening d ∨ isClosing d ∨ d = ',') → ¬isWhiteSpace d := by
    intro d hd
    simp only [isQuote, isOpening, isClosing, Bool.or_eq_true, beq_iff_eq, or_assoc] at hd
    rcases hd with rfl | rfl | rfl | rfl | rfl | rfl | rfl | rfl | rfl | rfl <;> decide
  exact ⟨fun hc => hmeaning c (.inl hc) h, fun hc => hmeaning c (.inr (.inl hc)) h,
    fun hc => hmeaning c (.inr (.inr (.inl hc))) h, fun hc => hmeaning c (.inr (.inr (.inr hc))) h⟩

theorem inert_of_isNameChar {c : Char} (h : isNameChar c) : Inert c := by
  have hmeaning : ∀ d, (isOpening d ∨ isClosing d ∨ d = ',') → ¬isNameChar d := by
    intro d hd
    simp only [isOpening, isClosing, Bool.or_eq_true, beq_iff_eq, or_assoc] at hd
    rcases hd with rfl | rfl | rfl | rfl | rfl | rfl | rfl <;> decide
  exact ⟨(neutral_of_isNameChar h).quote, fun hc => hmeaning c (.inl hc) h,
    fun hc => hmeaning c (.inr (.inl hc)) h, fun hc => hmeaning c (.inr (.inr hc)) h⟩

namespace Nesting

variable {nesting : Nesting} {text inert : Text}

theorem step_top {c : Char} (h : Inert c) : Nesting.top.step c = .top := by
  simp [step, Quoting.step, h.quote, h.opening, h.closing]

theorem eq_top_of_step {c : Char} (hproper : nesting.quoting.Proper) (hc : Inert c) (h : nesting.step c = .top) :
    nesting = .top := by
  rw [eq_top_iff] at h ⊢
  obtain ⟨quoting, depth⟩ := nesting
  simp only [step] at h
  have houtside : quoting = .outside := by
    match quoting, h.1 with
    | .outside, _ => rfl
    | .inside quote false, hstep =>
      have hne : c ≠ quote := fun heq => hc.quote (heq ▸ hproper)
      simp only [Quoting.step, beq_iff_eq, hne, if_false] at hstep
      split at hstep <;> cases hstep
  refine ⟨houtside, ?_⟩
  simpa [houtside, hc.opening, hc.closing] using h.2

/-- Inert characters in front of an item. -/
theorem item_append (h : ∀ c ∈ inert, Inert c) : Item .top (inert ++ text) ↔ Item .top text := by
  induction inert with
  | nil => exact Iff.rfl
  | cons c rest ih =>
    obtain ⟨hc, hrest⟩ := List.forall_mem_cons.mp h
    rw [List.cons_append, item_cons, step_top hc, ih hrest]
    exact and_iff_right fun hmeaning => hmeaning.2.elim hc.closing hc.comma

/-- Inert characters leave the outermost level as it is. -/
theorem closes_of_inert (h : ∀ c ∈ inert, Inert c) : Closes .top inert := by
  have hitem : Item .top (inert ++ []) := (item_append h).mpr (item_nil.mpr rfl)
  rw [List.append_nil] at hitem
  exact hitem.toCloses

theorem eq_top_of_item (hproper : nesting.quoting.Proper) (h : Item nesting inert) (hinert : ∀ c ∈ inert, Inert c) :
    nesting = .top := by
  induction inert generalizing nesting with
  | nil => exact item_nil.mp h
  | cons c rest ih =>
    obtain ⟨hc, hrest⟩ := List.forall_mem_cons.mp hinert
    exact eq_top_of_step hproper hc (ih (hproper.step c) (item_cons.mp h).2 hrest)

/-- An item without inert characters at its end. -/
theorem Item.of_append (hproper : nesting.quoting.Proper) (h : Item nesting (text ++ inert))
    (hinert : ∀ c ∈ inert, Inert c) : Item nesting text := by
  induction text generalizing nesting with
  | nil => exact item_nil.mpr (eq_top_of_item hproper h hinert)
  | cons c rest ih =>
    obtain ⟨hc, hrest⟩ := item_cons.mp h
    exact item_cons.mpr ⟨hc, ih (hproper.step c) hrest⟩

end Nesting

end Scl.Text
