import Mathlib.Data.List.Basic
import Mathlib.Data.List.TakeWhile
import Scl.Proofs.Text.Comment
import Scl.Proofs.Text.Trimming
import Scl.Statement.Basic

/-!
# Literals and assignments

A line whose code has no signature is an assignment or a literal:

* `statement_eq_literal_iff`, `statement_eq_assignment_iff`: which lines those are;
* `isCall_append_dollar`, `importArgument?_append_dollar`, `assignment?_append_dollar`: the kind of a statement does
  not depend on what stands after a `$` in it.
-/

namespace Scl

/-- Code that is neither a declaration nor a call. -/
structure Statement.NoSignature (code : Text) : Prop where
  declaration : code.head? ≠ some '@'
  call : ¬isCall code
  importing : importArgument? code = none

namespace Line

variable {line : Line}

theorem code_of_notMem (h : '\n' ∉ line.content) : line.code = Text.stripComment line.content := by
  have hline : ∀ c ∈ line.content, (c != '\n') = true := fun c hc => bne_iff_ne.mpr fun heq => h (heq ▸ hc)
  rw [code, List.takeWhile_eq_self_iff.mpr hline, List.dropWhile_eq_nil_iff.mpr hline, List.append_nil]

/-- Both slashes of a comment stand before any other character. -/
theorem slashes_append {c : Char} (hc : c ≠ '/') (front rest : Text) :
    ['/', '/'] <+: front ++ c :: rest ↔ ['/', '/'] <+: front := by
  match front with
  | [] => simp [hc.symm]
  | [d] => simp [hc.symm]
  | d :: e :: front => simp

theorem statement_of_code (h : ¬['/', '/'] <+: line.content) :
    line.statement = line.codeTokens line.code >>= Statement.ofTokens := by
  rw [statement, tokens]
  split
  · rename_i comment hcomment
    exact absurd ⟨comment, hcomment.symm⟩ h
  · rfl

theorem statement_of_comment (h : ['/', '/'] <+: line.content) :
    ∃ text, line.statement = .ok (.comment text) := by
  obtain ⟨comment, hcomment⟩ := h
  rw [statement, tokens, ← hcomment]
  exact ⟨_, rfl⟩

/-- The statement of code without a signature. -/
def unsigned (code : Text) : Statement :=
  match Statement.assignment? code with
  | some (name, value) => .assignment name value
  | none => .literal code

theorem codeTokens_of_noSignature {code : Text} (h : Statement.NoSignature code) :
    (line.codeTokens code >>= Statement.ofTokens) = .ok (unsigned code) := by
  rw [codeTokens, if_neg h.declaration, if_neg h.call, h.importing, unsigned]
  cases Statement.assignment? code <;> rfl

/-- A signature makes a declaration or a call, if it can be read. -/
theorem noSignature_of_codeTokens {code : Text} {statement : Statement}
    (h : (line.codeTokens code >>= Statement.ofTokens) = .ok statement)
    (hdeclaration : ∀ name arguments, statement ≠ .declaration name arguments)
    (hcall : ∀ name arguments, statement ≠ .call name arguments) : Statement.NoSignature code := by
  -- The tokens of a signature start with its head.
  have hheaded : ∀ {α : Type} (x : Except TokenError α) (f : α → List Token) (head : α → Token),
      (∀ a, (head a).kind = .declaration ∨ (head a).kind = .call) →
      ((fun a => head a :: f a) <$> x >>= Statement.ofTokens) ≠ .ok statement := by
    intro α x f head hkind heq
    cases x with
    | error e => cases heq
    | ok a =>
      replace heq : Statement.ofTokens (head a :: f a) = .ok statement := heq
      rcases hkind a with hkind | hkind
      · simp only [Statement.ofTokens, hkind] at heq
        exact hdeclaration _ _ (Except.ok.inj heq).symm
      · simp only [Statement.ofTokens, hkind] at heq
        exact hcall _ _ (Except.ok.inj heq).symm
  rw [codeTokens] at h
  split at h
  · exact absurd h (hheaded _ _ _ fun a => .inl rfl)
  · split at h
    · exact absurd h (hheaded _ _ _ fun a => .inr rfl)
    · rename_i hat hname
      cases himport : Statement.importArgument? code with
      | some path =>
        rw [himport] at h
        exact absurd h (hheaded _ _ _ fun a => .inr rfl)
      | none => exact ⟨hat, hname, himport⟩

theorem statement_eq_unsigned_iff {statement : Statement} (hcomment : ∀ text, statement ≠ .comment text)
    (hdeclaration : ∀ name arguments, statement ≠ .declaration name arguments)
    (hcall : ∀ name arguments, statement ≠ .call name arguments) :
    line.statement = .ok statement ↔
      ¬['/', '/'] <+: line.content ∧ Statement.NoSignature line.code ∧ unsigned line.code = statement := by
  by_cases hslashes : ['/', '/'] <+: line.content
  · obtain ⟨text, htext⟩ := statement_of_comment hslashes
    rw [htext]
    exact iff_of_false (fun h => hcomment text (Except.ok.inj h).symm) fun h => h.1 hslashes
  · rw [statement_of_code hslashes]
    constructor
    · intro h
      have hsignature := noSignature_of_codeTokens h hdeclaration hcall
      rw [codeTokens_of_noSignature hsignature] at h
      exact ⟨hslashes, hsignature, Except.ok.inj h⟩
    · rintro ⟨-, hsignature, rfl⟩
      exact codeTokens_of_noSignature hsignature

theorem statement_eq_literal_iff {text : Text} :
    line.statement = .ok (.literal text) ↔ ¬['/', '/'] <+: line.content ∧ Statement.NoSignature line.code ∧
      line.code = text ∧ Statement.assignment? line.code = none := by
  have hunsigned : line.statement = .ok (.literal text) ↔ _ := statement_eq_unsigned_iff nofun nofun nofun
  rw [hunsigned, unsigned]
  cases Statement.assignment? line.code <;> simp

theorem statement_eq_assignment_iff {name value : Text} :
    line.statement = .ok (.assignment name value) ↔ ¬['/', '/'] <+: line.content ∧
      Statement.NoSignature line.code ∧ Statement.assignment? line.code = some (name, value) := by
  have hunsigned : line.statement = .ok (.assignment name value) ↔ _ := statement_eq_unsigned_iff nofun nofun nofun
  rw [hunsigned, unsigned]
  cases Statement.assignment? line.code <;> simp [Prod.ext_iff]

end Line

/-! ## Code with a `$` in it -/

section

variable (front rest rest' : Text)

theorem Text.trim_append_dollar : trim (front ++ '$' :: rest) = trimStart front ++ '$' :: trimEnd rest := by
  have hlast : ∀ c ∈ (trimStart front ++ ['$']).getLast?, ¬isWhiteSpace c := by
    rw [List.getLast?_concat]
    rintro c ⟨⟩
    decide
  have hsplit : trimStart (front ++ '$' :: rest) = trimStart front ++ ['$'] ++ rest := by
    rw [trimStart, dropWhile_append_cons (by decide), List.append_assoc]
    rfl
  rw [trim, hsplit, trimEnd, dropEndWhile_append_right hlast, List.append_assoc]
  rfl

namespace Statement

theorem isCall_append_dollar : isCall (front ++ '$' :: rest') = isCall (front ++ '$' :: rest) := by
  cases front with
  | nil => rfl
  | cons c front =>
    have hrest : ∀ rest : Text, front.dropWhile Text.isNameChar ++ '$' :: rest ≠ [':'] := by
      intro rest heq
      have hmem : '$' ∈ [':'] := by simp [← heq]
      exact absurd hmem (by decide)
    have hhead : ∀ rest : Text, (front.dropWhile Text.isNameChar ++ '$' :: rest).head? =
        (front.dropWhile Text.isNameChar).head?.or (some '$') := fun rest => List.head?_append
    by_cases hstart : Text.isNameStart c
    · simp only [isCall, List.cons_append, Text.spanName, hstart, if_true,
        Text.dropWhile_append_cons (show ¬Text.isNameChar '$' by decide), hrest, hhead]
      rfl
    · simp only [isCall, List.cons_append, Text.spanName, hstart, Bool.false_eq_true, if_false]
      rfl

theorem importArgument?_eq_none_iff {text : Text} :
    importArgument? text = none ↔ ∀ rest, text = importName ++ rest → rest.head?.any Text.isWhiteSpace →
      ¬(Text.trim rest).head?.any fun c => c == '"' || c == '\'' || c == '$' := by
  rw [importArgument?]
  cases hprefix : importName.isPrefixOf? text with
  | none =>
    refine iff_of_true rfl ?_
    rintro rest rfl
    rw [List.isPrefixOf?_eq_some_iff_append_eq.mpr rfl] at hprefix
    cases hprefix
  | some rest =>
    have htext := List.isPrefixOf?_eq_some_iff_append_eq.mp hprefix
    subst htext
    simp only [List.append_cancel_left_eq, forall_eq']
    split
    · rename_i hblank
      split
      · rename_i hquote
        exact iff_of_false nofun fun h => h hblank hquote
      · rename_i hquote
        exact iff_of_true rfl fun _ => hquote
    · rename_i hblank
      exact iff_of_true rfl fun h => absurd h hblank

theorem importArgument?_append_dollar (h : importArgument? (front ++ '$' :: rest) = none) :
    importArgument? (front ++ '$' :: rest') = none := by
  rw [importArgument?_eq_none_iff] at h ⊢
  intro path hpath hblank
  obtain ⟨others, rfl, rfl⟩ := Text.append_eq_append_cons (by decide) hpath.symm
  have hquote := h (others ++ '$' :: rest) (List.append_assoc ..)
  rw [List.head?_append, Text.trim_append_dollar, List.head?_append] at hquote
  rw [List.head?_append] at hblank
  rw [Text.trim_append_dollar, List.head?_append]
  exact hquote hblank

/-- Whether code is an assignment does not depend on what stands after a `$`, unless that is the first
character. -/
theorem assignment?_append_dollar (hne : front ≠ []) :
    (∀ rest, assignment? (front ++ '$' :: rest) = none) ∨
      ∃ name value, ∀ rest, assignment? (front ++ '$' :: rest) = some (name, Text.trim (value ++ '$' :: rest)) := by
  have hvalue : ∀ value rest : Text, (Text.trim (value ++ '$' :: rest)).isEmpty = false := by
    intro value rest
    rw [Text.trim_append_dollar]
    simp
  obtain ⟨c, front, rfl⟩ := List.exists_cons_of_ne_nil hne
  by_cases hdollar : c = '$'
  · subst hdollar
    simp only [List.cons_append, assignment?, Text.takeWhile_append_cons (show ¬Text.isNameChar '$' by decide),
      Text.dropWhile_append_cons (show ¬Text.isNameChar '$' by decide), Text.trimStart,
      Text.dropWhile_append_cons (show ¬Text.isWhiteSpace '$' by decide)]
    split
    · exact .inl fun _ => rfl
    · -- What stands between the name and the `$` decides.
      generalize (front.dropWhile Text.isNameChar).dropWhile Text.isWhiteSpace = between
      rcases between with _ | ⟨d, between⟩
      · exact .inl fun _ => rfl
      · by_cases hequals : d = '='
        · subst hequals
          rcases between with _ | ⟨e, value⟩
          · exact .inr ⟨_, [], fun rest => if_neg (Bool.eq_false_iff.mp (hvalue [] rest))⟩
          · by_cases hcomparison : e = '='
            · subst hcomparison
              exact .inl fun _ => rfl
            · refine .inr ⟨front.takeWhile Text.isNameChar, e :: value, fun rest => ?_⟩
              simp only [List.cons_append]
              split
              · rename_i heq
                exact absurd (List.cons.inj (List.cons.inj heq).2).1 hcomparison
              · rename_i heq
                rw [← (List.cons.inj heq).2]
                exact if_neg (Bool.eq_false_iff.mp (hvalue (e :: value) rest))
              · rename_i hnone
                exact absurd rfl (hnone _)
        · left
          intro rest
          simp only [List.cons_append]
          split
          · rename_i heq
            exact absurd (List.cons.inj heq).1 hequals
          · rename_i heq
            exact absurd (List.cons.inj heq).1 hequals
          · rfl
  · left
    intro rest
    rw [List.cons_append, assignment?]
    rintro reference heq
    exact hdollar (List.cons.inj heq).1

end Statement

end

end Scl
