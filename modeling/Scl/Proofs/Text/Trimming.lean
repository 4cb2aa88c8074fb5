import Scl.Text.Basic

/-!
# Trimmed texts

Trimming takes nothing from a text whose outermost characters stay, and what it leaves is such a text:

* `dropWhile_of_head?`, `dropEndWhile_of_getLast?`: nothing is dropped;
* `takeWhile_append_cons`, `dropWhile_append_cons`: nothing is taken or dropped from a character that stays on;
* `head?_dropWhile`, `getLast?_dropEndWhile`: the outermost characters of what is left;
* `exists_dropEndWhile_append`, `dropEndWhile_append`, `dropEndWhile_append_right`: what is dropped from the end;
* `Trimmed.trim_eq`, `trimmed_trim`: what trimming leaves;
* `append_eq_append_cons`, `append_cons_eq_append`: where a text is cut at one of its characters.
-/

namespace Scl.Text

variable {p : Char → Bool} {text : Text}

theorem dropWhile_of_head? (h : ∀ c ∈ text.head?, ¬p c) : text.dropWhile p = text := by
  cases text with
  | nil => rfl
  | cons c rest => exact List.dropWhile_cons_of_neg (h c rfl)

theorem takeWhile_of_head? (h : ∀ c ∈ text.head?, ¬p c) : text.takeWhile p = [] := by
  cases text with
  | nil => rfl
  | cons c rest => exact List.takeWhile_cons_of_neg (h c rfl)

theorem takeWhile_append_cons {c : Char} (h : ¬p c) (text rest : Text) :
    (text ++ c :: rest).takeWhile p = text.takeWhile p := by
  induction text with
  | nil => exact List.takeWhile_cons_of_neg h
  | cons d text ih => simp only [List.cons_append, List.takeWhile_cons, ih]

theorem dropWhile_append_cons {c : Char} (h : ¬p c) (text rest : Text) :
    (text ++ c :: rest).dropWhile p = text.dropWhile p ++ c :: rest := by
  induction text with
  | nil => exact List.dropWhile_cons_of_neg h
  | cons d text ih =>
    simp only [List.cons_append, List.dropWhile_cons, ih]
    split <;> rfl

theorem head?_dropWhile (p : Char → Bool) (text : Text) : ∀ c ∈ (text.dropWhile p).head?, ¬p c := by
  intro c hc
  have hnot := List.head?_dropWhile_not p text
  rw [Option.mem_def.mp hc] at hnot
  simpa using hnot

theorem dropEndWhile_of_getLast? (h : ∀ c ∈ text.getLast?, ¬p c) : dropEndWhile p text = text := by
  rw [dropEndWhile, dropWhile_of_head? (by simpa using h), List.reverse_reverse]

theorem getLast?_dropEndWhile (p : Char → Bool) (text : Text) :
    ∀ c ∈ (dropEndWhile p text).getLast?, ¬p c := by
  have hhead := head?_dropWhile p text.reverse
  simpa [dropEndWhile] using hhead

/-- What is dropped from the end of a text. -/
theorem exists_dropEndWhile_append (p : Char → Bool) (text : Text) :
    ∃ ending, text = dropEndWhile p text ++ ending ∧ ∀ c ∈ ending, p c := by
  refine ⟨(text.reverse.takeWhile p).reverse, ?_, fun c hc => ?_⟩
  · rw [dropEndWhile, ← List.reverse_append, List.takeWhile_append_dropWhile, List.reverse_reverse]
  · rw [List.mem_reverse] at hc
    exact List.all_eq_true.mp List.all_takeWhile c hc

theorem dropEndWhile_append (text : Text) {ending : Text} (h : ∀ c ∈ ending, p c) :
    dropEndWhile p (text ++ ending) = dropEndWhile p text := by
  rw [dropEndWhile, List.reverse_append, List.dropWhile_append_of_pos (by simpa using h), dropEndWhile]

/-- Dropping from the end stops at a character that stays. -/
theorem dropEndWhile_append_right {first : Text} (h : ∀ c ∈ first.getLast?, ¬p c) (second : Text) :
    dropEndWhile p (first ++ second) = first ++ dropEndWhile p second := by
  obtain ⟨ending, hsecond, hending⟩ := exists_dropEndWhile_append p second
  have hlast : ∀ c ∈ (first ++ dropEndWhile p second).getLast?, ¬p c := by
    intro c hc
    rw [List.getLast?_append] at hc
    cases hkept : (dropEndWhile p second).getLast? with
    | none =>
      rw [hkept] at hc
      exact h c hc
    | some d =>
      rw [hkept] at hc
      cases hc
      exact getLast?_dropEndWhile p second c hkept
  calc dropEndWhile p (first ++ second)
      = dropEndWhile p (first ++ dropEndWhile p second ++ ending) := by rw [List.append_assoc, ← hsecond]
    _ = dropEndWhile p (first ++ dropEndWhile p second) := dropEndWhile_append _ hending
    _ = first ++ dropEndWhile p second := dropEndWhile_of_getLast? hlast

/-! ## Both ends -/

/-- A text that is not empty and has no white space at its ends. -/
structure Trimmed (text : Text) : Prop where
  ne_nil : text ≠ []
  head : ∀ c ∈ text.head?, ¬isWhiteSpace c
  last : ∀ c ∈ text.getLast?, ¬isWhiteSpace c

/-- Trimming takes white space from both ends. -/
theorem exists_trim (text : Text) : ∃ start ending, text = start ++ (trim text ++ ending) ∧
    (∀ c ∈ start, isWhiteSpace c) ∧ ∀ c ∈ ending, isWhiteSpace c := by
  obtain ⟨ending, hending, hwhite⟩ := exists_dropEndWhile_append isWhiteSpace (trimStart text)
  refine ⟨text.takeWhile isWhiteSpace, ending, ?_, fun c hc => List.all_eq_true.mp List.all_takeWhile c hc, hwhite⟩
  calc text = text.takeWhile isWhiteSpace ++ trimStart text := List.takeWhile_append_dropWhile.symm
    _ = _ := congrArg (text.takeWhile isWhiteSpace ++ ·) hending

theorem Trimmed.trim_eq (h : Trimmed text) {start ending : Text} (hstart : ∀ c ∈ start, isWhiteSpace c)
    (hending : ∀ c ∈ ending, isWhiteSpace c) : trim (start ++ (text ++ ending)) = text := by
  have hhead : ∀ c ∈ (text ++ ending).head?, ¬isWhiteSpace c := by
    obtain ⟨first, rest, rfl⟩ := List.exists_cons_of_ne_nil h.ne_nil
    exact h.head
  rw [trim, trimStart, List.dropWhile_append_of_pos hstart, dropWhile_of_head? hhead, trimEnd,
    dropEndWhile_append _ hending, dropEndWhile_of_getLast? h.last]

theorem Trimmed.trim_eq_self (h : Trimmed text) : trim text = text := by
  have hnil : ∀ c ∈ ([] : Text), isWhiteSpace c := nofun
  have htrim := h.trim_eq hnil hnil
  rwa [List.append_nil, List.nil_append] at htrim

theorem trimmed_trim (h : trim text ≠ []) : Trimmed (trim text) := by
  refine ⟨h, ?_, getLast?_dropEndWhile isWhiteSpace (trimStart text)⟩
  obtain ⟨ending, hending, -⟩ := exists_dropEndWhile_append isWhiteSpace (trimStart text)
  replace hending : text.dropWhile isWhiteSpace = trim text ++ ending := hending
  have hhead := head?_dropWhile isWhiteSpace text
  obtain ⟨first, rest, htrim⟩ := List.exists_cons_of_ne_nil h
  rw [hending, htrim] at hhead
  rw [htrim]
  exact hhead

theorem not_isWhiteSpace_of_isNameChar {c : Char} (h : isNameChar c) : ¬isWhiteSpace c := by
  delta isNameChar Char.isAlphanum Char.isAlpha Char.isUpper Char.isLower Char.isDigit at h
  simp only [Bool.or_eq_true, Bool.and_eq_true, decide_eq_true_eq, beq_iff_eq, ge_iff_le,
    UInt32.le_iff_toNat_le] at h
  change ((65 ≤ c.toNat ∧ c.toNat ≤ 90 ∨ 97 ≤ c.toNat ∧ c.toNat ≤ 122) ∨ 48 ≤ c.toNat ∧ c.toNat ≤ 57) ∨ c = '_' at h
  rcases h with h | rfl
  · simp only [isWhiteSpace, whiteSpaceRanges, List.any_cons, List.any_nil, Bool.or_eq_true, Bool.and_eq_true,
      decide_eq_true_eq, Bool.or_false]
    omega
  · decide

/-! ## Cutting at a character -/

section

variable {c : Char} {first second before after : Text}

/-- A part without a character ends before the character. -/
theorem append_eq_append_cons (hfirst : c ∉ first) (h : first ++ second = before ++ c :: after) :
    ∃ others, before = first ++ others ∧ second = others ++ c :: after := by
  rcases List.append_eq_append_iff.mp h with hsplit | ⟨others, rfl, hrest⟩
  · exact hsplit
  · cases others with
    | nil => exact ⟨[], by simp, hrest.symm⟩
    | cons d others =>
      obtain ⟨rfl, -⟩ := List.cons.inj hrest
      simp at hfirst

/-- A part without a character starts after the character. -/
theorem append_cons_eq_append (hafter : c ∉ after) (h : first ++ c :: second = before ++ after) :
    ∃ others, before = first ++ c :: others ∧ second = others ++ after := by
  rcases List.append_eq_append_iff.mp h with ⟨others, rfl, hrest⟩ | ⟨others, rfl, rfl⟩
  · cases others with
    | nil =>
      rw [List.nil_append] at hrest
      simp [← hrest] at hafter
    | cons d others =>
      obtain ⟨rfl, rfl⟩ := List.cons.inj hrest
      exact ⟨others, rfl, rfl⟩
  · simp at hafter

end

end Scl.Text
