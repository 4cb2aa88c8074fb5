import Scl.Text.WhiteSpace

/-!
# Text

Source text is a list of characters, so that reading it is recursion on the list. This module has what
every reader of the language shares: trimming, cutting a text into lines, its size, and the characters of
names.
-/

namespace Scl

abbrev Text := List Char

namespace Text

/-! ## Trimming -/

/-- The text without its longest ending all of whose characters satisfy `p`. -/
def dropEndWhile (p : Char → Bool) (text : Text) : Text :=
  (text.reverse.dropWhile p).reverse

def trimStart (text : Text) : Text :=
  text.dropWhile isWhiteSpace

def trimEnd (text : Text) : Text :=
  dropEndWhile isWhiteSpace text

def trim (text : Text) : Text :=
  trimEnd (trimStart text)

/-! ## Lines -/

/-- The lines of a text. A line feed ends a line and takes one carriage return directly before it along;
what follows the last line feed is a line only if it is not empty. -/
def lines : Text → List Text
  | [] => []
  | '\n' :: rest => [] :: lines rest
  | '\r' :: '\n' :: rest => [] :: lines rest
  | c :: rest =>
    match lines rest with
    | [] => [[c]]
    | line :: others => (c :: line) :: others

/-- The texts with `separator` between each two neighbours. -/
def join (separator : Text) (texts : List Text) : Text :=
  separator.intercalate texts

def spaces (count : Nat) : Text :=
  List.replicate count ' '

def ofNat (n : Nat) : Text :=
  Nat.toDigits 10 n

/-- How many bytes a text takes in UTF-8. -/
def byteCount : Text → Nat
  | [] => 0
  | c :: rest => c.utf8Size + byteCount rest

/-! ## Names -/

def isNameStart (c : Char) : Bool :=
  c.isAlpha || c == '_'

/-- A character of a variable's name, or of a mixin's name after its first character. -/
def isNameChar (c : Char) : Bool :=
  c.isAlphanum || c == '_'

/-- The longest name at the start of a text, and the rest. It is empty if the text starts with a digit
or with no character of names. -/
def spanName : Text → Text × Text
  | [] => ([], [])
  | c :: rest => if isNameStart c then (c :: rest.takeWhile isNameChar, rest.dropWhile isNameChar)
    else ([], c :: rest)

/-- A name: a letter or underscore, then letters, digits and underscores. -/
def isName : Text → Bool
  | [] => false
  | c :: rest => isNameStart c && rest.all isNameChar

end Text

end Scl
