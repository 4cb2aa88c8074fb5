import Scl.Text.Basic

/-!
# Lines of a text

How `Text.lines` cuts texts that are put together from lines:

* `lines_append`: a text that ends in a line feed has its lines to itself;
* `lines_line_feed`, `lines_return_feed`, `lines_singleton`: a line with the two line endings and without one;
* `lines_start`: the start of a line;
* `Terminated.lines_eq`: lines that all have one of the two line endings;
* `unlines`, `exists_lines_feed`: lines that all have a line feed, and one that may have a carriage return before it;
* `lines_spaces`: spaces in front go to the first line;
* `lines_join`: texts with line feeds between them;
* `length_lines_le`: there are no more lines than line feeds allow;
* `count_feed_flatMap`: how many line feeds texts bring that each come after one.
-/

namespace Scl.Text

theorem lines_cons {c : Char} {rest : Text} (hfeed : c ≠ '\n') (hreturn : c = '\r' → rest.head? ≠ some '\n') :
    lines (c :: rest) = (c :: (lines rest).headD []) :: (lines rest).tail := by
  rw [lines]
  · cases lines rest <;> rfl
  · exact hfeed
  · rintro more rfl rfl
    exact hreturn rfl rfl

theorem lines_ne_nil {text : Text} (h : text ≠ []) : lines text ≠ [] := by
  fun_cases lines text with
  | case1 => exact absurd rfl h
  | case2 | case3 | case4 | case5 => simp

/-- Lines that are all ended do not run into what follows them. -/
theorem lines_append {first : Text} (h : first = [] ∨ first.getLast? = some '\n') (second : Text) :
    lines (first ++ second) = lines first ++ lines second := by
  fun_induction lines first with
  | case1 => rfl
  | case2 rest ih =>
    have hrest : rest = [] ∨ rest.getLast? = some '\n' := by
      cases rest with
      | nil => exact .inl rfl
      | cons d rest => exact .inr (by simpa using h)
    exact congrArg ([] :: ·) (ih hrest)
  | case3 rest ih =>
    have hrest : rest = [] ∨ rest.getLast? = some '\n' := by
      cases rest with
      | nil => exact .inl rfl
      | cons d rest => exact .inr (by simpa using h)
    exact congrArg ([] :: ·) (ih hrest)
  | case4 c rest hfeed hreturn hlines ih =>
    -- A text without lines is empty, and then its last character would be `c`.
    have hrest : rest = [] := Decidable.byContradiction fun hne => lines_ne_nil hne hlines
    subst hrest
    simp at h
    exact absurd h hfeed
  | case5 c rest hfeed hreturn line others hlines ih =>
    obtain ⟨d, more, rfl⟩ : ∃ d more, rest = d :: more := by
      cases rest with
      | nil => cases hlines
      | cons d more => exact ⟨d, more, rfl⟩
    have hrest := ih (.inr (by simpa using h))
    rw [List.cons_append, lines_cons hfeed, hrest, hlines]
    · rfl
    · rintro rfl heq
      simp only [List.cons_append, List.head?_cons, Option.some.injEq] at heq
      subst heq
      exact hreturn more rfl rfl

theorem lines_line_feed {line : Text} (hfeed : '\n' ∉ line) (hreturn : '\r' ∉ line) (rest : Text) :
    lines (line ++ '\n' :: rest) = line :: lines rest := by
  induction line with
  | nil => rfl
  | cons c line ih =>
    rw [List.mem_cons, not_or] at hfeed hreturn
    rw [List.cons_append, lines_cons (Ne.symm hfeed.1) fun heq => absurd heq.symm hreturn.1,
      ih hfeed.2 hreturn.2]
    rfl

theorem lines_return_feed {line : Text} (hfeed : '\n' ∉ line) (rest : Text) :
    lines (line ++ '\r' :: '\n' :: rest) = line :: lines rest := by
  induction line with
  | nil => rfl
  | cons c line ih =>
    rw [List.mem_cons, not_or] at hfeed
    rw [List.cons_append, lines_cons (Ne.symm hfeed.1), ih hfeed.2]
    · rfl
    · rintro -
      cases line with
      | nil => simp
      | cons d line => simpa using Ne.symm (List.ne_of_not_mem_cons hfeed.2)

theorem lines_singleton {line : Text} (h : line ≠ []) (hfeed : '\n' ∉ line) : lines line = [line] := by
  induction line with
  | nil => exact absurd rfl h
  | cons c line ih =>
    rw [List.mem_cons, not_or] at hfeed
    cases line with
    | nil =>
      rw [lines_cons (Ne.symm hfeed.1) fun _ => by simp]
      rfl
    | cons d line =>
      rw [lines_cons (Ne.symm hfeed.1), ih (by simp) hfeed.2]
      · rfl
      · rintro - heq
        simp only [List.head?_cons, Option.some.injEq] at heq
        subst heq
        simp at hfeed

/-- The start of a line, and what follows on the same line and after it. -/
theorem lines_start {first : Text} (hfeed : '\n' ∉ first) (hne : first ≠ []) (hlast : first.getLast? ≠ some '\r')
    (rest : Text) : lines (first ++ rest) = (first ++ (lines rest).headD []) :: (lines rest).tail := by
  induction first with
  | nil => exact absurd rfl hne
  | cons c first ih =>
    rw [List.mem_cons, not_or] at hfeed
    cases first with
    | nil =>
      have hreturn : c ≠ '\r' := by simpa using hlast
      exact lines_cons (Ne.symm hfeed.1) fun heq => absurd heq hreturn
    | cons d first =>
      rw [List.cons_append, lines_cons (Ne.symm hfeed.1), ih hfeed.2 (by simp) (by simpa using hlast)]
      · rfl
      · rintro - heq
        simp only [List.cons_append, List.head?_cons, Option.some.injEq] at heq
        simp [heq] at hfeed

/-- A text that consists of lines, each of which a line feed ends, with or without a carriage return before it. -/
inductive Terminated : List Text → Text → Prop
  | nil : Terminated [] []
  | feed {line : Text} {others : List Text} {rest : Text} : Terminated others rest →
    Terminated (line :: others) (line ++ '\n' :: rest)
  | returnFeed {line : Text} {others : List Text} {rest : Text} : Terminated others rest →
    Terminated (line :: others) (line ++ '\r' :: '\n' :: rest)

theorem Terminated.lines_eq {texts : List Text} {text : Text} (h : Terminated texts text)
    (hchars : ∀ line ∈ texts, '\n' ∉ line ∧ '\r' ∉ line) : lines text = texts := by
  induction h with
  | nil => rfl
  | feed _ ih =>
    obtain ⟨hline, hothers⟩ := List.forall_mem_cons.mp hchars
    rw [lines_line_feed hline.1 hline.2, ih hothers]
  | returnFeed _ ih =>
    obtain ⟨hline, hothers⟩ := List.forall_mem_cons.mp hchars
    rw [lines_return_feed hline.1, ih hothers]

/-- Lines with a line feed after each. -/
def unlines (texts : List Text) : Text :=
  texts.flatMap (· ++ ['\n'])

theorem unlines_append (first second : List Text) : unlines (first ++ second) = unlines first ++ unlines second :=
  List.flatMap_append

theorem unlines_cons (line : Text) (others : List Text) :
    unlines (line :: others) = line ++ '\n' :: unlines others := by
  simp [unlines]

theorem terminated_unlines (texts : List Text) : Terminated texts (unlines texts) := by
  induction texts with
  | nil => exact .nil
  | cons line others ih =>
    rw [unlines_cons]
    exact .feed ih

theorem unlines_ended (texts : List Text) : unlines texts = [] ∨ (unlines texts).getLast? = some '\n' := by
  rcases List.eq_nil_or_concat texts with rfl | ⟨others, last, rfl⟩
  · exact .inl rfl
  · refine .inr ?_
    simp [unlines]

/-- A line that may end in a carriage return, which is not part of it. -/
theorem exists_lines_feed {line : Text} (hfeed : '\n' ∉ line) (rest : Text) :
    ∃ kept, (line = kept ∨ line = kept ++ ['\r']) ∧ lines (line ++ '\n' :: rest) = kept :: lines rest := by
  by_cases hlast : line.getLast? = some '\r'
  · obtain ⟨kept, rfl⟩ := List.getLast?_eq_some_iff.mp hlast
    have hkept : '\n' ∉ kept := fun hmem => hfeed (List.mem_append_left _ hmem)
    refine ⟨kept, .inr rfl, ?_⟩
    rw [List.append_assoc]
    exact lines_return_feed hkept rest
  · refine ⟨line, .inl rfl, ?_⟩
    cases line with
    | nil => rfl
    | cons c line =>
      rw [lines_start hfeed (by simp) hlast]
      exact congrArg (· :: lines rest) (List.append_nil _)

theorem lines_spaces {text first : Text} {others : List Text} (h : lines text = first :: others) (count : Nat) :
    lines (spaces count ++ text) = (spaces count ++ first) :: others := by
  induction count with
  | zero => exact h
  | succ count ih =>
    show lines (' ' :: (spaces count ++ text)) = (' ' :: (spaces count ++ first)) :: others
    rw [lines_cons (by decide) fun heq => absurd heq (by decide), ih]
    rfl

theorem lines_snoc_feed {text : Text} (h : text ≠ []) (hlast : text.getLast? ≠ some '\n') (hreturn : '\r' ∉ text) :
    lines (text ++ ['\n']) = lines text := by
  induction text with
  | nil => exact absurd rfl h
  | cons c rest ih =>
    rw [List.mem_cons, not_or] at hreturn
    cases rest with
    | nil =>
      have hfeed : c ≠ '\n' := by simpa using hlast
      rw [lines_singleton h (by simpa using hfeed.symm)]
      exact lines_line_feed (by simpa using hfeed.symm) (by simpa using hreturn.1) []
    | cons d rest =>
      have hrest := ih (by simp) (by simpa using hlast) hreturn.2
      by_cases hfeed : c = '\n'
      · subst hfeed
        exact congrArg ([] :: ·) hrest
      · rw [List.cons_append, lines_cons hfeed fun heq => absurd heq.symm hreturn.1, hrest,
          lines_cons hfeed fun heq => absurd heq.symm hreturn.1]

theorem lines_join {texts : List Text}
    (h : ∀ text ∈ texts, text ≠ [] ∧ text.getLast? ≠ some '\n' ∧ '\r' ∉ text) :
    lines (join ['\n'] texts) = texts.flatMap lines := by
  match texts with
  | [] => rfl
  | [text] => rw [join, List.intercalate_singleton, List.flatMap_singleton]
  | text :: other :: rest =>
    obtain ⟨hne, hlast, hreturn⟩ := h text List.mem_cons_self
    have hrest := lines_join fun text htext => h text (List.mem_cons_of_mem _ htext)
    rw [join] at hrest ⊢
    rw [List.intercalate_cons_cons, lines_append (.inr (by simp)), lines_snoc_feed hne hlast hreturn, hrest]
    rfl

theorem length_lines_le (text : Text) : (lines text).length ≤ text.count '\n' + 1 := by
  fun_induction lines text with
  | case1 => exact Nat.zero_le _
  | case2 rest ih => simpa using ih
  | case3 rest ih => simpa using ih
  | case4 c rest hfeed hreturn hlines ih => simp
  | case5 c rest hfeed hreturn line others hlines ih =>
    rw [hlines] at ih
    rw [List.count_cons_of_ne hfeed]
    exact ih

theorem feed_notMem_of_mem_lines (text : Text) : ∀ line ∈ lines text, '\n' ∉ line := by
  fun_induction lines text with
  | case1 => exact nofun
  | case2 rest ih => simpa using ih
  | case3 rest ih => simpa using ih
  | case4 c rest hfeed hreturn hlines ih => simpa using Ne.symm hfeed
  | case5 c rest hfeed hreturn line others hlines ih =>
    rw [hlines] at ih
    intro other hother
    rcases List.mem_cons.mp hother with rfl | hother
    · simpa [Ne.symm hfeed] using ih line List.mem_cons_self
    · exact ih other (List.mem_cons_of_mem _ hother)

theorem headD_lines {text : Text} (h : '\r' ∉ text) : (lines text).headD [] = text.takeWhile (· != '\n') := by
  induction text with
  | nil => rfl
  | cons c rest ih =>
    rw [List.mem_cons, not_or] at h
    by_cases hfeed : c = '\n'
    · subst hfeed
      rfl
    · rw [lines_cons hfeed fun heq => absurd heq.symm h.1, List.takeWhile_cons_of_pos (by simpa using hfeed)]
      exact congrArg (c :: ·) (ih h.2)

/-- Every text brings the line feed before it, and no other. -/
theorem count_feed_flatMap {texts : List Text} (h : ∀ text ∈ texts, '\n' ∉ text) :
    (texts.flatMap ('\n' :: ·)).count '\n' = texts.length := by
  induction texts with
  | nil => rfl
  | cons text rest ih =>
    obtain ⟨htext, hrest⟩ := List.forall_mem_cons.mp h
    rw [List.flatMap_cons, List.count_append, List.count_cons_self, List.count_eq_zero_of_not_mem htext,
      ih hrest, List.length_cons]
    omega

end Scl.Text
