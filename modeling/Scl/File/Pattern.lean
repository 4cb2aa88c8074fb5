import Scl.Text.Basic

/-!
# Patterns

Patterns for paths: `?` stands for any character, `*` for any text, `[…]` and `[!…]` for a character in
or not in a set, and `**`, which has to be a whole component, for any directories. Everything else stands
for itself.

* `Pattern.parse`: a pattern from its text;
* `Pattern.accepts`: whether a text matches, taken as one text in which `/` is a character like any other;
* `accepts_single`, `accepts_anyText`, `accepts_anyDirectories`: what the pieces of a pattern stand for.
-/

namespace Scl

inductive Pattern.Piece where
  | char (c : Char)
  | anyChar
  | anyText
  /-- Nothing, or any text that ends in a slash. -/
  | anyDirectories
  /-- A character in one of the ranges. -/
  | within (ranges : List (Char × Char))
  /-- A character in none of the ranges. -/
  | without (ranges : List (Char × Char))
  deriving DecidableEq, Repr

abbrev Pattern := List Pattern.Piece

namespace Pattern

inductive Fault where
  | wildcards
  | recursiveWildcards
  | invalidRange
  deriving DecidableEq, Repr

def Fault.message : Fault → String
  | wildcards => "wildcards are either regular `*` or recursive `**`"
  | recursiveWildcards => "recursive wildcards must form a single path component"
  | invalidRange => "invalid range pattern"

/-- A text that is no pattern; positions count characters from zero. -/
structure SyntaxError where
  position : Nat
  fault : Fault
  deriving DecidableEq, Repr

def SyntaxError.message (error : SyntaxError) : String :=
  "Pattern syntax error near position " ++ toString error.position ++ ": " ++ error.fault.message

/-! ## Reading -/

/-- The ranges of a set: `a-z` is a range, and any other character a range of its own. -/
def ranges : Text → List (Char × Char)
  | first :: '-' :: last :: rest => (first, last) :: ranges rest
  | c :: rest => (c, c) :: ranges rest
  | [] => []

/-- The piece that stars at `position` start, where `previous?` is the character before them, and how many
characters of `rest` it takes. -/
def stars (position : Nat) (previous? : Option Char) (rest : Text) : Except SyntaxError (Piece × Nat) :=
  match rest with
  | '*' :: '*' :: _ => .error ⟨position + 2, .wildcards⟩
  | '*' :: after =>
    if previous?.all (· == '/') then
      match after with
      | [] => .ok (.anyDirectories, 1)
      | '/' :: _ => .ok (.anyDirectories, 2)
      | _ => .error ⟨position + 2, .recursiveWildcards⟩
    else .error ⟨position - 1, .recursiveWildcards⟩
  | _ => .ok (.anyText, 0)

/-- The members of a set up to its closing bracket, of which the first may itself be a bracket. -/
def members? : Text → Option Text
  | [] => none
  | first :: rest =>
    let others := rest.takeWhile (· != ']')
    if others.length < rest.length then some (first :: others) else none

/-- The piece that a bracket at `position` starts, and how many characters of `rest` it takes. -/
def set (position : Nat) (rest : Text) : Except SyntaxError (Piece × Nat) :=
  match rest with
  | '!' :: excluded =>
    match members? excluded with
    | some members => .ok (.without (ranges members), members.length + 2)
    | none => .error ⟨position, .invalidRange⟩
  | included =>
    match members? included with
    | some members => .ok (.within (ranges members), members.length + 1)
    | none => .error ⟨position, .invalidRange⟩

/-- The piece that starts with a character, and how many characters of `rest` it takes. -/
def first (position : Nat) (previous? : Option Char) (c : Char) (rest : Text) :
    Except SyntaxError (Piece × Nat) :=
  if c == '?' then .ok (.anyChar, 0)
  else if c == '*' then stars position previous? rest
  else if c == '[' then set position rest
  else .ok (.char c, 0)

/-- The pieces of a text from `position` on, after its first `taken` characters. -/
def parseFrom (position : Nat) (previous? : Option Char) :
    Nat → Text → Except SyntaxError Pattern
  | _, [] => .ok []
  | taken + 1, c :: rest => parseFrom (position + 1) (some c) taken rest
  | 0, c :: rest =>
    match first position previous? c rest with
    | .error e => .error e
    | .ok (piece, taken) => (piece :: ·) <$> parseFrom (position + 1) (some c) taken rest

def parse (text : Text) : Except SyntaxError Pattern :=
  parseFrom 0 none 0 text

/-! ## Matching

Whether a text matches is found out for all its suffixes at once, from the last piece of the pattern to
the first, so that no piece meets the same suffix twice. -/

def inRanges (ranges : List (Char × Char)) (c : Char) : Bool :=
  ranges.any fun (first, last) => first.toNat ≤ c.toNat && c.toNat ≤ last.toNat

/-- Whether a piece stands for a character, for the pieces that stand for one. -/
def Piece.acceptsChar : Piece → Char → Bool
  | char d, c => c == d
  | anyChar, _ => true
  | within ranges, c => inRanges ranges c
  | without ranges, c => !inRanges ranges c
  | _, _ => false

/-- What a column says of the suffix it starts with. -/
abbrev top (column : List Bool) : Bool :=
  column.headD false

/-- For each suffix of a text whether it is empty. -/
def atEnd : Text → List Bool
  | [] => [true]
  | _ :: rest => false :: atEnd rest

/-- For each suffix whether it is one that a column accepts after a character that a piece stands for. -/
def afterChar (piece : Piece) : Text → List Bool → List Bool
  | c :: rest, _ :: column => (piece.acceptsChar c && top column) :: afterChar piece rest column
  | _, _ => [false]

/-- For each suffix whether a column accepts it or a suffix of it. -/
def afterText : List Bool → List Bool
  | [] => []
  | here :: column =>
    let later := afterText column
    (here || top later) :: later

/-- For each suffix whether a column accepts what stands after one of its slashes, or the empty text. -/
def afterSlash : Text → List Bool → List Bool
  | c :: rest, _ :: column =>
    let later := afterSlash rest column
    (c == '/' && top column || top later) :: later
  | _, column => column

/-- The column of a pattern from that of the pattern without its first piece. -/
def Piece.extend (piece : Piece) (text : Text) (column : List Bool) : List Bool :=
  match piece with
  | anyText => afterText column
  | anyDirectories => column.zipWith (· || ·) (afterSlash text column)
  | _ => afterChar piece text column

/-- For each suffix of a text, from the whole of it to the empty one, whether it matches. -/
def column : Pattern → Text → List Bool
  | [], text => atEnd text
  | piece :: rest, text => piece.extend text (column rest text)

/-- Whether a whole text matches. -/
def accepts (pattern : Pattern) (text : Text) : Bool :=
  top (column pattern text)

/-! ### Matching piece by piece -/

theorem extend_cons (piece : Piece) (c : Char) (text : Text) (here : Bool) (column : List Bool) :
    piece.extend (c :: text) (here :: column) =
      top (piece.extend (c :: text) (here :: column)) :: piece.extend text column := by
  cases piece <;> rfl

theorem column_cons (pattern : Pattern) (c : Char) (text : Text) :
    column pattern (c :: text) = accepts pattern (c :: text) :: column pattern text := by
  induction pattern with
  | nil => rfl
  | cons piece rest ih =>
    rw [accepts, column, ih, extend_cons]
    rfl

theorem column_empty (pattern : Pattern) : column pattern [] = [accepts pattern []] := by
  induction pattern with
  | nil => rfl
  | cons piece rest ih =>
    rw [accepts, column, ih]
    cases piece <;> rfl

theorem accepts_nil (text : Text) : accepts [] text = text.isEmpty := by
  cases text <;> rfl

/-- The pieces that stand for one character. -/
def Piece.isSingle : Piece → Bool
  | anyText => false
  | anyDirectories => false
  | _ => true

theorem accepts_single {piece : Piece} (h : piece.isSingle) (rest : Pattern) (text : Text) :
    accepts (piece :: rest) text =
      match text with
      | [] => false
      | c :: after => piece.acceptsChar c && accepts rest after := by
  cases text with
  | nil =>
    rw [accepts, column, column_empty]
    cases piece <;> first | rfl | contradiction
  | cons c after =>
    rw [accepts, column, column_cons]
    cases piece <;> first | rfl | contradiction

theorem accepts_anyText (rest : Pattern) (text : Text) :
    accepts (.anyText :: rest) text ↔ ∃ before after, text = before ++ after ∧ accepts rest after := by
  induction text with
  | nil =>
    have step : accepts (.anyText :: rest) [] = accepts rest [] := by
      rw [accepts, column, column_empty]
      exact Bool.or_false _
    rw [step]
    constructor
    · exact fun h => ⟨[], [], rfl, h⟩
    · rintro ⟨before, after, split, h⟩
      obtain ⟨rfl, rfl⟩ := List.append_eq_nil_iff.1 split.symm
      exact h
  | cons c text ih =>
    have step : accepts (.anyText :: rest) (c :: text) =
        (accepts rest (c :: text) || accepts (.anyText :: rest) text) := by
      rw [accepts, column, column_cons]
      rfl
    rw [step, Bool.or_eq_true, ih]
    constructor
    · rintro (h | ⟨before, after, rfl, h⟩)
      · exact ⟨[], c :: text, rfl, h⟩
      · exact ⟨c :: before, after, rfl, h⟩
    · rintro ⟨before, after, split, h⟩
      cases before with
      | nil => exact .inl (by rw [split]; exact h)
      | cons d before =>
        obtain ⟨rfl, rfl⟩ := List.cons.inj split
        exact .inr ⟨before, after, rfl, h⟩

theorem top_afterSlash (rest : Pattern) (text : Text) :
    top (afterSlash text (column rest text)) ↔
      (∃ before after, text = before ++ '/' :: after ∧ accepts rest after) ∨ accepts rest [] := by
  induction text with
  | nil =>
    rw [column_empty]
    simp [afterSlash]
  | cons c text ih =>
    have step : top (afterSlash (c :: text) (column rest (c :: text))) =
        (c == '/' && accepts rest text || top (afterSlash text (column rest text))) := by
      rw [column_cons]
      rfl
    rw [step, Bool.or_eq_true, ih, Bool.and_eq_true, beq_iff_eq]
    constructor
    · rintro (⟨rfl, h⟩ | ⟨before, after, rfl, h⟩ | h)
      · exact .inl ⟨[], text, rfl, h⟩
      · exact .inl ⟨c :: before, after, rfl, h⟩
      · exact .inr h
    · rintro (⟨before, after, split, h⟩ | h)
      · cases before with
        | nil =>
          obtain ⟨rfl, rfl⟩ := List.cons.inj split
          exact .inl ⟨rfl, h⟩
        | cons d before =>
          obtain ⟨rfl, rfl⟩ := List.cons.inj split
          exact .inr (.inl ⟨before, after, rfl, h⟩)
      · exact .inr (.inr h)

/-- At the end of a pattern `**` stands for any text, since nothing is left to match. -/
theorem accepts_anyDirectories (rest : Pattern) (text : Text) :
    accepts (.anyDirectories :: rest) text ↔
      accepts rest text ∨ (∃ before after, text = before ++ '/' :: after ∧ accepts rest after) ∨
        accepts rest [] := by
  have step : accepts (.anyDirectories :: rest) text =
      (accepts rest text || top (afterSlash text (column rest text))) := by
    cases text with
    | nil =>
      rw [accepts, column, column_empty]
      rfl
    | cons c text =>
      rw [accepts, column, column_cons]
      rfl
  rw [step, Bool.or_eq_true, top_afterSlash]

end Pattern

end Scl
