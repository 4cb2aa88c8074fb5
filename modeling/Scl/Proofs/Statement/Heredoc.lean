import Scl.Proofs.Line.Folding
import Scl.Proofs.Statement.Classification
import Scl.Proofs.Statement.Printing

/-!
# Statements of heredocs

A heredoc is read as a statement like any other line, with its body and its terminator. Brackets and quotes may be open
at the end of its first source line and close in its body, so that it starts like a signature. But a signature ends in
a parenthesis or a colon, and a heredoc ends in its marker:

* `Text.lastVisible?`: the last character that is not white space;
* `Signature.lastVisible?_of_read`: how signatures end;
* `Argument.lt_notMem_of_tokens`: an argument that ends in a character of names has no `<` in it;
* `Line.codeTokens_eq_error`: code that ends like a heredoc cannot be read if it has a signature;
* `Line.scan_heredoc`: so no heredoc is a comment, a declaration or a call.
-/

namespace Scl

/-! ## How a text ends -/

namespace Text

variable {text : Text}

/-- The last character of a text that is not white space. -/
def lastVisible? (text : Text) : Option Char :=
  text.reverse.find? (!isWhiteSpace ·)

theorem lastVisible?_append (first second : Text) :
    lastVisible? (first ++ second) = (lastVisible? second).or (lastVisible? first) := by
  rw [lastVisible?, List.reverse_append, List.find?_append, lastVisible?, lastVisible?]

theorem lastVisible?_cons {c d : Char} (h : lastVisible? text = some d) : lastVisible? (c :: text) = some d := by
  rw [← List.singleton_append, lastVisible?_append, h, Option.some_or]

theorem lastVisible?_of_isWhiteSpace (h : ∀ c ∈ text, isWhiteSpace c) : lastVisible? text = none := by
  rw [lastVisible?, List.find?_eq_none]
  simpa using h

theorem lastVisible?_trim (text : Text) : lastVisible? (trim text) = lastVisible? text := by
  obtain ⟨start, ending, htext, hstart, hending⟩ := exists_trim text
  conv => rhs; rw [htext]
  rw [lastVisible?_append, lastVisible?_append, lastVisible?_of_isWhiteSpace hstart,
    lastVisible?_of_isWhiteSpace hending, Option.none_or, Option.or_none]

/-- A character at the very end. -/
theorem lastVisible?_of_getLast? {c : Char} (h : text.getLast? = some c) (hc : ¬isWhiteSpace c) :
    lastVisible? text = some c := by
  obtain ⟨before, rfl⟩ := List.getLast?_eq_some_iff.mp h
  rw [lastVisible?_append, lastVisible?, List.reverse_singleton, List.find?_singleton, if_pos (by simpa using hc),
    Option.some_or]

/-- A name with white space around it. -/
theorem lastVisible?_of_isName (h : isName (trim text)) : ∃ c, lastVisible? text = some c ∧ isNameChar c := by
  have hne : trim text ≠ [] := fun hnil => by
    rw [hnil] at h
    cases h
  obtain ⟨c, hc⟩ := Option.ne_none_iff_exists'.mp (mt List.getLast?_eq_none_iff.mp hne)
  have hname : isNameChar c := isNameChar_of_isName h c (List.mem_of_getLast? hc)
  refine ⟨c, ?_, hname⟩
  rw [← lastVisible?_trim]
  exact lastVisible?_of_getLast? hc (not_isWhiteSpace_of_isNameChar hname)

/-- A text after others, unless it is blank. -/
theorem lastVisible?_append_of_ne_nil (first : Text) (h : trim text ≠ []) :
    lastVisible? (first ++ text) = lastVisible? text := by
  obtain ⟨c, hc⟩ := Option.ne_none_iff_exists'.mp (mt List.getLast?_eq_none_iff.mp h)
  have hlast : lastVisible? text = some c := by
    rw [← lastVisible?_trim]
    exact lastVisible?_of_getLast? hc ((trimmed_trim h).last c hc)
  rw [lastVisible?_append, hlast, Option.some_or]

theorem mem_trim_of_mem {c : Char} (h : c ∈ text) (hc : ¬isWhiteSpace c) : c ∈ trim text := by
  obtain ⟨start, ending, htext, hstart, hending⟩ := exists_trim text
  rw [htext, List.mem_append, List.mem_append] at h
  rcases h with h | h | h
  · exact absurd (hstart c h) hc
  · exact h
  · exact absurd (hending c h) hc

end Text

/-! ## Signatures and arguments -/

/-- A signature ends in a parenthesis or a colon. -/
theorem Signature.lastVisible?_of_read {location : Location} {text name : Text} {tokens : List Token}
    (h : read location text = .ok (name, tokens)) :
    Text.lastVisible? text = some ')' ∨ Text.lastVisible? text = some ':' := by
  obtain ⟨rest, rfl, -, -, hrest⟩ := read_eq_ok h
  have hcolon : ∀ {part : Text}, Text.trim part = [':'] → Text.lastVisible? part = some ':' := by
    intro part hpart
    rw [← Text.lastVisible?_trim, hpart]
    decide
  rw [Text.lastVisible?_append]
  rcases hrest with ⟨hrest, -⟩ | ⟨list, inner, trailer, rfl, henclosed, htrailer, -⟩
  · rw [hcolon hrest]
    exact .inr rfl
  · obtain ⟨rfl, -⟩ := enclosed?_eq_some_iff.mp henclosed
    rw [← List.cons_append, Text.lastVisible?_append, ← List.singleton_append, Text.lastVisible?_append]
    rcases htrailer with htrailer | htrailer
    · rw [← Text.lastVisible?_trim trailer, htrailer]
      exact .inl rfl
    · rw [hcolon htrailer]
      exact .inr rfl

namespace Argument

/-- What closes a literal is neither white space nor a character of names. -/
theorem closingOf?_eq_some {first closing : Char} (h : closingOf? first = some closing) :
    ¬Text.isWhiteSpace closing ∧ ¬Text.isNameChar closing := by
  have hclosing : closing = '"' ∨ closing = '\'' ∨ closing = Text.backtick ∨ closing = ']' ∨ closing = '}' := by
    simp only [closingOf?, Text.isQuote, Bool.or_eq_true, beq_iff_eq] at h
    split at h
    · rename_i hquote
      cases h
      tauto
    · split at h
      · cases h
        tauto
      · split at h
        · cases h
          tauto
        · cases h
  rcases hclosing with rfl | rfl | rfl | rfl | rfl <;> decide

/-- A literal that ends in a character of names is neither quoted nor bracketed. -/
theorem isBareChar_of_literalFault? {text : Text} {c : Char} (h : literalFault? text = none)
    (hlast : Text.lastVisible? text = some c) (hc : Text.isNameChar c) : ∀ d ∈ text, isBareChar d := by
  cases text with
  | nil => cases h
  | cons first rest =>
    rw [literalFault?] at h
    split at h
    · rename_i closing hclosing
      split at h
      · rename_i hend
        obtain ⟨hvisible, hname⟩ := closingOf?_eq_some hclosing
        have hclose : Text.lastVisible? (first :: rest) = some closing :=
          Text.lastVisible?_cons (Text.lastVisible?_of_getLast? hend hvisible)
        cases hlast.symm.trans hclose
        exact absurd hc hname
      · cases h
    · rw [Option.map_eq_none_iff, List.find?_eq_none] at h
      simpa using h

/-- An argument that ends in a character of names has no `<` in it. -/
theorem lt_notMem_of_tokens {location : Location} {argument : Text} {list : List Token} {c : Char}
    (h : tokens location argument = .ok list) (hlast : Text.lastVisible? argument = some c)
    (hc : Text.isNameChar c) : '<' ∉ argument := by
  have hname : ∀ {name : Text}, (∀ d ∈ name, Text.isNameChar d) → '<' ∉ name := fun hchars hmem =>
    absurd (hchars _ hmem) (by decide)
  have hblank : ∀ {blanks : Text}, (∀ d ∈ blanks, Text.isWhiteSpace d) → '<' ∉ blanks := fun hchars hmem =>
    absurd (hchars _ hmem) (by decide)
  have hliteral : ∀ {text : Text}, literalFault? text = none → Text.lastVisible? text = some c → '<' ∉ text :=
    fun hfault hend hmem => absurd (isBareChar_of_literalFault? hfault hend hc _ hmem) (by decide)
  obtain ⟨printed, hprints⟩ := exists_prints h
  cases hprints with
  | literal _ hfault => exact hliteral hfault hlast
  | reference _ hchars hblanks => simp [hname hchars, hblank hblanks]
  | @named name blanks value _ hchars hblanks hne hfault =>
    have hsplit : '$' :: (name ++ (blanks ++ '=' :: value)) = '$' :: (name ++ (blanks ++ ['='])) ++ value := by simp
    have hvalue : Text.lastVisible? (Text.trim value) = some c := by
      rw [Text.lastVisible?_trim, ← hlast, hsplit, Text.lastVisible?_append_of_ne_nil _ hne]
    have hlt : '<' ∉ value := fun hmem => hliteral hfault hvalue (Text.mem_trim_of_mem hmem (by decide))
    simp [hname hchars, hblank hblanks, hlt]

end Argument

theorem Statement.importArgument?_eq_some {code path : Text} (h : importArgument? code = some path) :
    ∃ rest, code = importName ++ rest ∧ path = Text.trim rest ∧ path ≠ [] := by
  rw [importArgument?] at h
  split at h
  · cases h
  · rename_i rest hrest
    split at h
    · simp only at h
      split at h
      · rename_i hhead
        cases h
        refine ⟨rest, (List.isPrefixOf?_eq_some_iff_append_eq.mp hrest).symm, rfl, fun hnil => ?_⟩
        rw [hnil] at hhead
        cases hhead
      · cases h
    · cases h

/-! ## Code -/

section

variable {location : Location} {code : Text} {c : Char} (hlast : Text.lastVisible? code = some c)
  (hc : Text.isNameChar c)

include hlast hc

/-- No signature ends in a character of names. -/
theorem Signature.read_eq_error_of_lastVisible? {first text : Text} (h : code = first ++ text) :
    ∃ e, read location text = .error e := by
  cases hread : read location text with
  | error e => exact ⟨e, rfl⟩
  | ok result =>
    rw [h, Text.lastVisible?_append] at hlast
    rcases lastVisible?_of_read hread with hend | hend
    · rw [hend] at hlast
      cases hlast
      exact absurd hc (by decide)
    · rw [hend] at hlast
      cases hlast
      exact absurd hc (by decide)

theorem Argument.tokens_eq_error_of_import (hlt : '<' ∈ code) {path : Text}
    (h : Statement.importArgument? code = some path) : ∃ e, tokens location path = .error e := by
  obtain ⟨rest, rfl, rfl, hne⟩ := Statement.importArgument?_eq_some h
  cases htokens : tokens location (Text.trim rest) with
  | error e => exact ⟨e, rfl⟩
  | ok list =>
    rw [Text.lastVisible?_append_of_ne_nil _ hne, ← Text.lastVisible?_trim] at hlast
    have hrest : '<' ∈ rest := (List.mem_append.mp hlt).resolve_left (by decide)
    exact absurd (Text.mem_trim_of_mem hrest (by decide)) (lt_notMem_of_tokens htokens hlast hc)

/-- Code that ends in a character of names and has a `<` in it cannot be read if it has a signature. -/
theorem Line.codeTokens_eq_error (line : Line) (hlt : '<' ∈ code) (h : ¬Statement.NoSignature code) :
    ∃ e, line.codeTokens code = .error e := by
  rw [codeTokens]
  split
  · rename_i hat
    obtain ⟨signature, rfl⟩ := List.head?_eq_some_iff.mp hat
    obtain ⟨e, he⟩ := Signature.read_eq_error_of_lastVisible? hlast hc (List.singleton_append).symm
    exact ⟨e, by rw [List.tail_cons, he]; rfl⟩
  · rename_i hat
    split
    · obtain ⟨e, he⟩ := Signature.read_eq_error_of_lastVisible? hlast hc (List.nil_append code).symm
      exact ⟨e, by rw [he]; rfl⟩
    · rename_i hcall
      split
      · rename_i path himport
        obtain ⟨e, he⟩ := Argument.tokens_eq_error_of_import hlast hc hlt himport
        exact ⟨e, by rw [he]; rfl⟩
      · rename_i himport
        exact absurd ⟨hat, hcall, himport⟩ h

end

/-! ## Heredocs -/

theorem HeredocAtEnd.lt_mem {marker text : Text} (h : HeredocAtEnd marker text) : '<' ∈ text := by
  obtain ⟨-, before, rfl | rfl⟩ := h
  · simp
  · simp

namespace Line

variable {line opener : Line} {marker : Text} {body : List Text}

theorem opens?_of_comment (h : ['/', '/'] <+: line.content) : line.opens? = none := by
  obtain ⟨comment, hcomment⟩ := h
  rw [opens?, ← hcomment]
  rfl

theorem content_extend (opener : Line) (hne : body ≠ []) : ∃ rest, body.flatMap ('\n' :: ·) = '\n' :: rest ∧
    (opener.extend body).content = opener.content ++ '\n' :: rest := by
  obtain ⟨first, others, rfl⟩ := List.exists_cons_of_ne_nil hne
  exact ⟨first ++ others.flatMap ('\n' :: ·), rfl, rfl⟩

/-- Only the first source line of a heredoc can have a comment. -/
theorem code_extend (hfeed : '\n' ∉ opener.content) (hne : body ≠ []) :
    (opener.extend body).code = Text.stripComment opener.content ++ body.flatMap ('\n' :: ·) := by
  have hcontent : ∀ c ∈ opener.content, (c != '\n') = true := fun c hc => bne_iff_ne.mpr fun heq => hfeed (heq ▸ hc)
  obtain ⟨rest, hbody, hextend⟩ := content_extend opener hne
  rw [code, hextend, hbody, Text.takeWhile_append_cons (by decide), Text.dropWhile_append_cons (by decide),
    List.takeWhile_eq_self_iff.mpr hcontent, List.dropWhile_eq_nil_iff.mpr hcontent]
  rfl

/-- A heredoc as a line: it keeps the `<<` of its first source line and ends in its marker. -/
structure Marked (line : Line) : Prop where
  comment : ¬['/', '/'] <+: line.content
  lt_mem : '<' ∈ line.code
  name : ∃ c, Text.lastVisible? line.code = some c ∧ Text.isNameChar c

theorem Closes.marked (h : Closes (some marker) body) (hopens : opener.opens? = some marker)
    (hfeed : '\n' ∉ opener.content) : (opener.extend body).Marked := by
  have hopener : HeredocAtEnd marker (Text.stripComment opener.content) := heredocMarker?_eq_some_iff.mp hopens
  cases h with
  | @heredoc _ last body _ hlast =>
    have hne : body ++ [last] ≠ [] := List.append_ne_nil_of_right_ne_nil body (List.cons_ne_nil last [])
    have hcode : (opener.extend (body ++ [last])).code =
        (Text.stripComment opener.content ++ body.flatMap ('\n' :: ·) ++ ['\n']) ++ last := by
      rw [code_extend hfeed hne]
      simp
    refine ⟨fun hslashes => ?_, ?_, ?_⟩
    · -- The slashes would stand on the first source line, which then opens nothing.
      obtain ⟨rest, -, hextend⟩ := content_extend opener hne
      rw [hextend, slashes_append (by decide)] at hslashes
      rw [opens?_of_comment hslashes] at hopens
      cases hopens
    · rw [hcode, List.append_assoc, List.append_assoc]
      exact List.mem_append_left _ hopener.lt_mem
    · obtain ⟨c, hc, hname⟩ := Text.lastVisible?_of_isName (hlast ▸ hopener.1)
      refine ⟨c, ?_, hname⟩
      rw [hcode, Text.lastVisible?_append, hc, Option.some_or]

variable {file source : Text} {forest : Forest Line}

theorem marked_of_scan (h : scan file source = .ok forest) (hline : line ∈ forest.preorder)
    (hfeed : '\n' ∈ line.content) : line.Marked := by
  obtain ⟨before, first, opener, body, rest, hlines, hfirst, hcloses, rfl⟩ := (scan_eq_ok h).origin hline
  have hopener : '\n' ∉ opener.content := fun hmem =>
    Text.feed_notMem_of_mem_lines source first (by simp [hlines]) (mem_of_mem_content hfirst _ hmem)
  cases hopens : opener.opens? with
  | some marker => exact (hopens ▸ hcloses).marked hopens hopener
  | none =>
    rw [hopens] at hcloses
    cases hcloses
    rw [extend_nil] at hfeed
    exact absurd hfeed hopener

/-- A heredoc is never run. A line over several source lines is a literal or an assignment, or, if its code starts like
a declaration or a call, none at all: it is no comment, no declaration and no call, an import included. -/
theorem scan_heredoc (h : scan file source = .ok forest) (hline : line ∈ forest.preorder)
    (hfeed : '\n' ∈ line.content) :
    (Statement.NoSignature line.code ∧
      (line.statement = .ok (.literal line.code) ∨ ∃ name value, line.statement = .ok (.assignment name value))) ∨
    (¬Statement.NoSignature line.code ∧ ∃ e, line.statement = .error e) := by
  have hmarked := marked_of_scan h hline hfeed
  rw [statement_of_code hmarked.comment]
  by_cases hsignature : Statement.NoSignature line.code
  · rw [codeTokens_of_noSignature hsignature, unsigned]
    refine .inl ⟨hsignature, ?_⟩
    cases Statement.assignment? line.code with
    | some assigned => exact .inr ⟨assigned.1, assigned.2, rfl⟩
    | none => exact .inl rfl
  · obtain ⟨c, hlast, hc⟩ := hmarked.name
    obtain ⟨e, he⟩ := codeTokens_eq_error hlast hc line hmarked.lt_mem hsignature
    exact .inr ⟨hsignature, e, by rw [he]; rfl⟩

/-- The brackets of a call and the quotes of an import that close in the body of a heredoc, and a heredoc that is
assigned with a declaration in its body. -/
theorem scan_heredoc_brackets :
    let source := "f(<<E\n)\nE\nimport \"x\" <<F\n\"\n F \na = <<-G\n@m()\nG".toList
    let call : Line := ⟨⟨['f'], 1⟩, 0, "f(<<E\n)\nE".toList⟩
    let importing : Line := ⟨⟨['f'], 4⟩, 0, "import \"x\" <<F\n\"\n F ".toList⟩
    let assigned : Line := ⟨⟨['f'], 7⟩, 0, "a = <<-G\n@m()\nG".toList⟩
    scan ['f'] source = .ok (.cons call .nil (.cons importing .nil (.cons assigned .nil .nil))) ∧
      (∃ e, call.statement = .error e) ∧ (∃ e, importing.statement = .error e) ∧
      (assigned.statement = .ok (.literal assigned.code) ∨
        ∃ name value, assigned.statement = .ok (.assignment name value)) := by
  intro source call importing assigned
  have h : scan ['f'] source = .ok (.cons call .nil (.cons importing .nil (.cons assigned .nil .nil))) := by
    decide +kernel
  have hcall : ¬Statement.NoSignature call.code := fun hsignature => hsignature.call (by decide +kernel)
  have himport : ¬Statement.NoSignature importing.code := fun hsignature =>
    absurd hsignature.importing (by decide +kernel)
  have hassigned : Statement.NoSignature assigned.code :=
    ⟨by decide +kernel, by decide +kernel, by decide +kernel⟩
  refine ⟨h, ?_, ?_, ?_⟩
  · exact ((scan_heredoc h (.head _) (by decide)).resolve_left fun hsigned => hcall hsigned.1).2
  · exact ((scan_heredoc h (.tail _ (.head _)) (by decide)).resolve_left fun hsigned => himport hsigned.1).2
  · exact ((scan_heredoc h (.tail _ (.tail _ (.head _))) (by decide)).resolve_right fun hsigned =>
      hsigned.1 hassigned).2

end Line

end Scl
