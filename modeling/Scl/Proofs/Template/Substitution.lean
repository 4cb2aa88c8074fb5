import Mathlib.Data.List.TakeWhile
import Scl.Proofs.Template.Reading

/-!
# Filling in while reading

A text can be filled in without a template: in one pass from left to right, with the output and the first fault so
far. Every turn of the pass looks at one character and takes along what belongs to it.

* `turn`, `passFrom`: a turn, and the turns from one place of the text on;
* `turn_eq`: a turn adds the pieces that its character starts;
* `passFrom_eq`: a pass adds the pieces of what it has passed over;
* `substitute_eq_fill`: so it comes to the same as reading the text and then filling it in.
-/

namespace Scl.Template

/-! ## The pass -/

/-- What a pass has come to: the output so far, and the first fault. -/
structure Progress where
  output : Text := []
  fault? : Option Fault := none
  deriving DecidableEq, Repr

namespace Progress

def write (progress : Progress) (text : Text) : Progress :=
  { progress with output := progress.output ++ text }

/-- A fault after others does not count. -/
def fail (progress : Progress) (fault : Fault) : Progress :=
  { progress with fault? := progress.fault?.or (some fault) }

def result (progress : Progress) : Except Failure Text :=
  match progress.fault? with
  | some fault => .error ⟨fault, progress.output⟩
  | none => .ok progress.output

end Progress

section

variable (value? : Text → Option Text)

/-- The value of a name, or a fault. -/
def lookUp (progress : Progress) (name : Text) : Progress :=
  match value? name with
  | some value => progress.write value
  | none => progress.fail (.unknownVariable name)

/-- A turn at a `$`, and how many characters of `rest` it takes. -/
def dollarTurn (progress : Progress) (rest : Text) : Progress × Nat :=
  let run := ('$' :: rest).takeWhile (· == '$')
  if 1 < run.length then (progress.write run, run.length - 1)
  else
    let start := if rest.head? = some '{' then 1 else 0
    let name := (rest.drop start).takeWhile Text.isNameChar
    let stop := start + name.length
    if name.isEmpty then (progress.write ['$'], 0)
    else if rest.head? = some '{' ∧ (rest.drop stop).head? ≠ some '}' then
      ((progress.write ('$' :: rest.take stop)).fail (.unclosedBrace name), stop)
    else (lookUp value? progress name, if rest.head? = some '{' then stop + 1 else stop)

/-- A turn at a character, and how many characters of `rest` it takes. -/
def turn (progress : Progress) (c : Char) (rest : Text) : Progress × Nat :=
  if c = '\\' then
    match rest.head? with
    | none => (progress.write ['\\'], 0)
    | some d =>
      if d = '$' ∨ d = Text.backtick then (progress.write [d], 1)
      else if d = '\\' then (progress.write ['\\', '\\'], 1)
      else (progress.write ['\\'], 0)
  else if c = Text.backtick then
    match rest.findIdx? (· == Text.backtick) with
    | some length => (progress.write (rest.take length), length + 1)
    | none => ((progress.write rest).fail .unterminatedBacktick, rest.length)
  else if c = '$' then dollarTurn value? progress rest
  else (progress.write [c], 0)

/-- The turns over a text. -/
def passFrom (progress : Progress) (text : Text) : Progress :=
  match text with
  | [] => progress
  | c :: rest =>
    let (progress, taken) := turn value? progress c rest
    passFrom progress (rest.drop taken)
termination_by text.length
decreasing_by
  rw [List.length_drop, List.length_cons]
  omega

/-- A text filled in by one pass over it. -/
def substitute (text : Text) : Except Failure Text :=
  (passFrom value? {} text).result

end

/-! ## Turns and pieces -/

variable {value? : Text → Option Text} {progress : Progress} {rest : Text}

/-- The progress after pieces of a template. -/
def Progress.add (value? : Text → Option Text) (progress : Progress) (template : Template) : Progress where
  output := progress.output ++ template.flatMap (Piece.output value?)
  fault? := progress.fault?.or (template.findSome? (Piece.fault? value?))

namespace Progress

theorem add_nil : progress.add value? [] = progress := by
  simp [add]

theorem add_append (template other : Template) :
    progress.add value? (template ++ other) = (progress.add value? template).add value? other := by
  simp [add, List.flatMap_append, List.findSome?_append, List.append_assoc, Option.or_assoc]

theorem add_text (text : Text) : progress.add value? [.text text] = progress.write text := by
  simp [add, write, Piece.output, Piece.fault?]

theorem add_reference (name : Text) : progress.add value? [.reference name] = lookUp value? progress name := by
  rw [lookUp]
  cases hvalue : value? name with
  | some value => simp [add, write, Piece.output, Piece.fault?, hvalue]
  | none => simp [add, fail, Piece.output, Piece.fault?, hvalue]

theorem add_unclosed (name : Text) :
    progress.add value? [.unclosed name] = (progress.write ('$' :: '{' :: name)).fail (.unclosedBrace name) := by
  simp [add, write, fail, Piece.output, Piece.fault?]

theorem add_unterminated (raw : Text) :
    progress.add value? [.text raw, .unterminated] = (progress.write raw).fail .unterminatedBacktick := by
  rw [show ([.text raw, .unterminated] : Template) = [.text raw] ++ [.unterminated] from rfl, add_append, add_text]
  simp [add, fail, Piece.output, Piece.fault?]

end Progress

/-- A backtick looks for the next one. -/
theorem findIdx?_backtick (rest : Text) :
    rest.findIdx? (· == Text.backtick) =
      if (rest.takeWhile (· != Text.backtick)).length < rest.length then
        some (rest.takeWhile (· != Text.backtick)).length
      else none := by
  induction rest with
  | nil => rfl
  | cons c rest ih =>
    by_cases hc : c = Text.backtick
    · subst hc
      rfl
    · have hraw : (c :: rest).takeWhile (· != Text.backtick) = c :: rest.takeWhile (· != Text.backtick) :=
        List.takeWhile_cons_of_pos (by simpa using hc)
      rw [List.findIdx?_cons, if_neg (by simpa using hc), ih, hraw, List.length_cons, List.length_cons]
      by_cases hlength : (rest.takeWhile (· != Text.backtick)).length < rest.length
      · rw [if_pos hlength, if_pos (Nat.succ_lt_succ hlength)]
        rfl
      · rw [if_neg hlength, if_neg fun h => hlength (Nat.lt_of_succ_lt_succ h)]
        rfl

theorem turn_backslash :
    turn value? progress '\\' rest = (progress.add value? (escape rest).1, (escape rest).2) := by
  rw [turn, if_pos rfl]
  cases rest with
  | nil => exact Prod.ext (Progress.add_text _).symm rfl
  | cons c rest =>
    simp only [List.head?_cons]
    by_cases hactive : c = '$' ∨ c = Text.backtick
    · rw [if_pos hactive]
      rcases hactive with rfl | rfl <;> exact Prod.ext (Progress.add_text _).symm rfl
    · rw [if_neg hactive]
      by_cases hbackslash : c = '\\'
      · subst hbackslash
        exact Prod.ext (Progress.add_text _).symm rfl
      · rw [not_or] at hactive
        simp [escape, hactive, hbackslash, Progress.add_text]

theorem turn_backtick :
    turn value? progress Text.backtick rest = (progress.add value? (rawSpan rest).1, (rawSpan rest).2) := by
  have hprefix := List.takeWhile_prefix (· != Text.backtick) (l := rest)
  rw [turn, if_neg (by decide), if_pos rfl, findIdx?_backtick]
  by_cases hlength : (rest.takeWhile (· != Text.backtick)).length < rest.length
  · simp only [rawSpan, if_pos hlength, ← List.prefix_iff_eq_take.mp hprefix, Progress.add_text]
  · have hwhole : rest.takeWhile (· != Text.backtick) = rest :=
      hprefix.eq_of_length_le (Nat.le_of_not_lt hlength)
    simp [rawSpan, hwhole, Progress.add_unterminated]

/-- One `$` before a brace. -/
theorem dollarTurn_brace (braced : Text) : dollarTurn value? progress ('{' :: braced) =
    (progress.add value? (dollar ('{' :: braced)).1, (dollar ('{' :: braced)).2) := by
  have hname : braced.take (braced.takeWhile Text.isNameChar).length = braced.takeWhile Text.isNameChar :=
    (List.prefix_iff_eq_take.mp (List.takeWhile_prefix _)).symm
  have hone : ('$' :: '{' :: braced).takeWhile (· == '$') = ['$'] := rfl
  simp only [dollarTurn, dollar, hone, List.length_singleton, Nat.lt_irrefl, if_false, List.head?_cons, if_true,
    List.drop_succ_cons, List.drop_zero, Nat.add_comm 1, List.take_succ_cons, hname]
  by_cases hempty : (braced.takeWhile Text.isNameChar).isEmpty
  · rw [if_pos hempty, if_pos hempty, Progress.add_text]
  · rw [if_neg hempty, if_neg hempty]
    by_cases hclosed : (braced.drop (braced.takeWhile Text.isNameChar).length).head? = some '}'
    · rw [if_pos hclosed, if_neg fun h => h.2 hclosed, Progress.add_reference]
    · rw [if_neg hclosed, if_pos ⟨trivial, hclosed⟩, Progress.add_unclosed]

/-- One `$` before neither a second one nor a brace. -/
theorem dollarTurn_bare {c : Char} (hrun : c ≠ '$') (hbrace : c ≠ '{') (more : Text) :
    dollarTurn value? progress (c :: more) =
      (progress.add value? (dollar (c :: more)).1, (dollar (c :: more)).2) := by
  have hone : ('$' :: c :: more).takeWhile (· == '$') = ['$'] :=
    congrArg ('$' :: ·) (List.takeWhile_cons_of_neg (by simpa using hrun))
  have hhead : ¬(c :: more).head? = some '{' := fun h => hbrace (Option.some.inj h)
  simp only [dollarTurn, dollar_bare hrun hbrace, hone, List.length_singleton, Nat.lt_irrefl, if_false, if_neg hhead,
    List.drop_zero, Nat.zero_add]
  by_cases hempty : ((c :: more).takeWhile Text.isNameChar).isEmpty
  · rw [if_pos hempty, if_pos hempty, Progress.add_text]
  · rw [if_neg hempty, if_neg hempty, if_neg fun h => hhead h.1, Progress.add_reference]

/-- A run of `$`, or a single one. -/
theorem dollarTurn_eq : dollarTurn value? progress rest = (progress.add value? (dollar rest).1, (dollar rest).2) := by
  cases rest with
  | nil => exact Prod.ext (Progress.add_text _).symm rfl
  | cons c more =>
    by_cases hrun : c = '$'
    · subst hrun
      have hmore : ('$' :: '$' :: more).takeWhile (· == '$') = '$' :: '$' :: more.takeWhile (· == '$') := rfl
      simp only [dollarTurn, dollar, hmore, List.length_cons, Progress.add_text]
      rw [if_pos (by omega)]
      rfl
    · by_cases hbrace : c = '{'
      · subst hbrace
        exact dollarTurn_brace more
      · exact dollarTurn_bare hrun hbrace more

/-- A turn adds the pieces that its character starts, and takes as many characters. -/
theorem turn_eq (c : Char) :
    turn value? progress c rest = (progress.add value? (first c rest).1, (first c rest).2) := by
  by_cases hbackslash : c = '\\'
  · subst hbackslash
    exact turn_backslash
  · by_cases hbacktick : c = Text.backtick
    · subst hbacktick
      exact turn_backtick
    · by_cases hdollar : c = '$'
      · subst hdollar
        exact dollarTurn_eq
      · rw [turn, if_neg hbackslash, if_neg hbacktick, if_neg hdollar]
        simp [first, hbackslash, hbacktick, hdollar, Progress.add_text]

/-! ## The whole text -/

theorem readFrom_eq_ofText (taken : Nat) (text : Text) : readFrom taken text = ofText (text.drop taken) := by
  induction text generalizing taken with
  | nil => simp [readFrom, ofText]
  | cons c rest ih =>
    cases taken with
    | zero => rfl
    | succ taken => exact ih taken

/-- A pass adds the pieces of the text. -/
theorem passFrom_eq (progress : Progress) (text : Text) :
    passFrom value? progress text = progress.add value? (ofText text) := by
  fun_induction passFrom value? progress text with
  | case1 progress => exact Progress.add_nil.symm
  | case2 progress c rest next taken hturn ih =>
    rw [turn_eq] at hturn
    cases hturn
    rw [ih, ← Progress.add_append, ← readFrom_eq_ofText]
    rfl

/-- One pass over a text comes to the same output, or to the same first fault with the same output around it, as
reading its template and then filling that in. -/
theorem substitute_eq_fill (value? : Text → Option Text) (text : Text) :
    substitute value? text = (ofText text).fill value? := by
  rw [substitute, passFrom_eq]
  simp only [Progress.result, Progress.add, Option.none_or, List.nil_append]
  rfl

/-- A fault, and all that is filled in after it. -/
example : substitute (fun _ => none) "$a \x60$b\x60 $\x7bc".toList =
    .error ⟨.unknownVariable ['a'], " $b $\x7bc".toList⟩ := by
  rw [substitute_eq_fill]
  decide +kernel

end Scl.Template
