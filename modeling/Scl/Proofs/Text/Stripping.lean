import Mathlib.Data.List.TakeWhile
import Scl.Proofs.Text.Nesting
import Scl.Proofs.Text.Trimming

/-!
# Stripping comments

Two readers keep track of quoted spans: the one that strips comments, which takes the character after a backslash
along, and the one that cuts argument lists, which remembers that a backslash has just been read. They agree on what
stands in quotes:

* `CommentAt`, `FirstCommentAt`: `//` where the reader of argument lists stands outside of quoted spans;
* `firstCommentAt_uncommented`: that is where a comment is cut off;
* `hasComment_of_trim`: trimming brings no comment to light;
* `stripComment_quoting`: what is stripped, that nothing is left to strip, and that a comment may be added.
-/

namespace Scl.Text

variable {text before : Text}

/-! ## White space around comments -/

theorem neutral_of_isWhiteSpace {c : Char} (h : isWhiteSpace c) : Neutral c := by
  refine ⟨(inert_of_isWhiteSpace h).quote, ?_, ?_⟩
  · rintro rfl
    exact absurd h (by decide)
  · rintro rfl
    exact absurd h (by decide)

/-- Trimming brings no comment to light. -/
theorem hasComment_of_trim (h : HasComment .outside (trim text)) : HasComment .outside text := by
  obtain ⟨start, ending, htext, hstart, -⟩ := exists_trim text
  rw [htext, hasComment_neutral_append fun c hc => neutral_of_isWhiteSpace (hstart c hc)]
  exact hasComment_append h ending

theorem not_hasComment_stripComment (text : Text) : ¬HasComment .outside (stripComment text) := by
  rw [stripComment_eq]
  exact fun h => not_hasComment_uncommented .outside text (hasComment_of_trim h)

theorem trim_trim (text : Text) : trim (trim text) = trim text := by
  by_cases h : trim text = []
  · rw [h]
    rfl
  · exact (trimmed_trim h).trim_eq_self

theorem trim_append_of_isWhiteSpace (text : Text) {ending : Text} (h : ∀ c ∈ ending, isWhiteSpace c) :
    trim (text ++ ending) = trim text := by
  rw [trim, trim, trimStart, trimStart, List.dropWhile_append]
  split
  · rename_i hblank
    rw [List.dropWhile_eq_nil_iff.mpr h, List.isEmpty_iff.mp hblank]
  · exact dropEndWhile_append _ h

/-! ## Quoted spans in argument lists -/

/-- Where the reader of argument lists stands after a text. -/
def Nesting.after (nesting : Nesting) (text : Text) : Nesting :=
  text.foldl step nesting

/-- Brackets have no say in what is quoted. -/
theorem Nesting.quoting_after (nesting : Nesting) (text : Text) :
    (nesting.after text).quoting = nesting.quoting.after text := by
  induction text generalizing nesting with
  | nil => rfl
  | cons c rest ih => exact ih (nesting.step c)

/-- There is `//` after some part of a text, and the reader of argument lists stands outside of quoted spans there. -/
structure CommentAt (text before : Text) : Prop where
  slashes : before ++ ['/', '/'] <+: text
  outside : (Nesting.top.after before).quoting = .outside

/-- The comment that no other one comes before. -/
structure FirstCommentAt (text before : Text) : Prop extends CommentAt text before where
  first (other : Text) : CommentAt text other → before.length ≤ other.length

theorem exists_commentAt_iff : (∃ before, CommentAt text before) ↔ HasComment .outside text := by
  constructor
  · rintro ⟨before, ⟨after, hafter⟩, houtside⟩
    rw [Nesting.quoting_after] at houtside
    exact ⟨before, after, by simp [← hafter], houtside⟩
  · rintro ⟨before, after, rfl, houtside⟩
    exact ⟨before, ⟨after, by simp⟩, (Nesting.quoting_after ..).trans houtside⟩

/-- No comment starts before the one that is cut off. -/
theorem length_uncommented_le {state : Quoting} (hslashes : before ++ ['/', '/'] <+: text)
    (hstate : state.after before = .outside) : (uncommented state text).length ≤ before.length := by
  induction before generalizing state text with
  | nil =>
    obtain ⟨after, rfl⟩ := hslashes
    cases hstate
    exact Nat.le_refl 0
  | cons c before ih =>
    obtain ⟨after, rfl⟩ := hslashes
    simp only [List.cons_append, uncommented]
    split
    · exact Nat.zero_le _
    · exact Nat.succ_le_succ (ih ⟨after, rfl⟩ hstate)

theorem firstCommentAt_uncommented (h : HasComment .outside text) :
    FirstCommentAt text (uncommented .outside text) := by
  obtain ⟨after, htext, houtside⟩ := h.cut
  refine ⟨⟨⟨after, ?_⟩, (Nesting.quoting_after ..).trans houtside⟩, fun other hother => ?_⟩
  · rw [List.append_assoc]
    exact htext.symm
  · exact length_uncommented_le hother.slashes ((Nesting.quoting_after ..).symm.trans hother.outside)

/-! ## Stripping -/

theorem stripComment_of_not_hasComment (h : ¬HasComment .outside text) : stripComment text = trim text := by
  rw [stripComment_eq, uncommented_eq_self h]

/-- A comment after a text that ends outside of quoted spans, with a space in between. -/
theorem stripComment_append_comment (h : (Nesting.top.after text).quoting = .outside) (rest : Text) :
    stripComment (text ++ ' ' :: '/' :: '/' :: rest) = stripComment text := by
  rw [Nesting.quoting_after] at h
  rw [stripComment_eq]
  rcases uncommented_append (show ' ' ≠ '/' by decide) text ('/' :: '/' :: rest) with ⟨-, heq⟩ | ⟨hnone, heq⟩
  · rw [heq, stripComment_eq]
  · have hcut : uncommented (text.foldl Quoting.step .outside) (' ' :: '/' :: '/' :: rest) = [' '] := by
      rw [show text.foldl Quoting.step .outside = .outside from h]
      rfl
    rw [heq, hcut, trim_append_of_isWhiteSpace text (List.forall_mem_singleton.mpr (by decide)),
      stripComment_of_not_hasComment hnone]

/-- The text without its comment is what stands before the first `//` that the reader of argument lists finds outside
of quoted spans, or all of it if there is none, and in both cases it is trimmed. So nothing is left to strip, and a
comment after a text that ends outside of quoted spans makes no difference. -/
theorem stripComment_quoting (text : Text) :
    ((∃ before, FirstCommentAt text before ∧ stripComment text = trim before) ∨
      (∀ before, ¬CommentAt text before) ∧ stripComment text = trim text) ∧
    stripComment (stripComment text) = stripComment text ∧
    (∀ before, ¬CommentAt (stripComment text) before) ∧
    ∀ rest, (Nesting.top.after text).quoting = .outside →
      stripComment (text ++ ' ' :: '/' :: '/' :: rest) = stripComment text := by
  have hstripped := not_hasComment_stripComment text
  refine ⟨?_, ?_, ?_, fun rest h => stripComment_append_comment h rest⟩
  · by_cases h : HasComment .outside text
    · exact .inl ⟨_, firstCommentAt_uncommented h, stripComment_eq text⟩
    · exact .inr ⟨fun before hbefore => h (exists_commentAt_iff.mp ⟨before, hbefore⟩),
        stripComment_of_not_hasComment h⟩
  · rw [stripComment_of_not_hasComment hstripped, stripComment_eq, trim_trim]
  · exact fun before hbefore => hstripped (exists_commentAt_iff.mp ⟨before, hbefore⟩)

/-- An escaped letter of two bytes, quotes inside other quotes, and slashes inside all of them. -/
theorem stripComment_quoting_nested :
    let text := " a = \"//\\é\\\" '\" + `\"//\\` ".toList
    (Nesting.top.after text).quoting = .outside ∧ stripComment text = "a = \"//\\é\\\" '\" + `\"//\\`".toList ∧
      stripComment (text ++ " // \"b".toList) = stripComment text := by
  intro text
  have h : (Nesting.top.after text).quoting = .outside := by decide +kernel
  exact ⟨h, by decide +kernel, (stripComment_quoting text).2.2.2 " \"b".toList h⟩

end Scl.Text
