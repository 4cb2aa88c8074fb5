import Mathlib.Data.List.Basic
import Scl.Expansion.Binding
import Scl.Proofs.Template.Reading
import Scl.Scope.Request

/-!
# The grammar of templates

What a text says, rule by rule, apart from how it is read: `Template.Reads`. Every rule looks at its own
characters and at most two after them. The pieces do not depend on the scopes, and filling them in looks at
nothing but the values of the names.

* `reads_iff`: the rules and the reader agree, so every text is one template;
* `Reads.append`: texts can be joined where no rule looks across;
* `fill_eq_ok_iff`, `fill_eq_error_iff`: what a template is filled in with, and why it cannot be;
* `Scopes.perform_fill_template`: how scopes fill in a text.
-/

namespace Scl

namespace Template

open Text (backtick)

/-- The pieces of a text. -/
inductive Reads : Text → Template → Prop
  | nil : Reads [] []
  /-- A character that starts nothing. -/
  | plain {c : Char} {rest : Text} {template : Template} : c ≠ '\\' ∧ c ≠ backtick ∧ c ≠ '$' →
    Reads rest template → Reads (c :: rest) (.text [c] :: template)
  /-- A backslash before a character that it keeps from acting. -/
  | escaped {c : Char} {rest : Text} {template : Template} : c = '$' ∨ c = backtick →
    Reads rest template → Reads ('\\' :: c :: rest) (.text [c] :: template)
  | backslashes {rest : Text} {template : Template} :
    Reads rest template → Reads ('\\' :: '\\' :: rest) (.text ['\\', '\\'] :: template)
  /-- A backslash before any other character. -/
  | backslash {rest : Text} {template : Template} :
    (∀ c ∈ rest.head?, c ≠ '$' ∧ c ≠ backtick ∧ c ≠ '\\') →
    Reads rest template → Reads ('\\' :: rest) (.text ['\\'] :: template)
  | span {raw rest : Text} {template : Template} : backtick ∉ raw →
    Reads rest template → Reads (backtick :: (raw ++ backtick :: rest)) (.text raw :: template)
  /-- A span that reaches the end of the text. -/
  | unterminated {raw : Text} : backtick ∉ raw → Reads (backtick :: raw) [.text raw, .unterminated]
  /-- Two or more `$`, all of them. -/
  | run {run rest : Text} {template : Template} : run ≠ [] → (∀ c ∈ run, c = '$') →
    (∀ c ∈ rest.head?, c ≠ '$') →
    Reads rest template → Reads ('$' :: (run ++ rest)) (.text ('$' :: run) :: template)
  | reference {name rest : Text} {template : Template} : name ≠ [] → (∀ c ∈ name, Text.isNameChar c) →
    (∀ c ∈ rest.head?, ¬Text.isNameChar c) →
    Reads rest template → Reads ('$' :: (name ++ rest)) (.reference name :: template)
  | braced {name rest : Text} {template : Template} : name ≠ [] → (∀ c ∈ name, Text.isNameChar c) →
    Reads rest template → Reads ('$' :: '{' :: (name ++ '}' :: rest)) (.reference name :: template)
  /-- A reference in braces without the closing one. -/
  | unclosed {name rest : Text} {template : Template} : name ≠ [] → (∀ c ∈ name, Text.isNameChar c) →
    (∀ c ∈ rest.head?, ¬Text.isNameChar c ∧ c ≠ '}') →
    Reads rest template → Reads ('$' :: '{' :: (name ++ rest)) (.unclosed name :: template)
  /-- A single `$` without a name after it. -/
  | dollar {rest : Text} {template : Template} : (∀ c ∈ rest.head?, c ≠ '$' ∧ ¬Text.isNameChar c) →
    (∀ c more, rest = '{' :: c :: more → ¬Text.isNameChar c) →
    Reads rest template → Reads ('$' :: rest) (.text ['$'] :: template)

variable {text rest : Text} {template : Template}

/-! ## The rules and the reader -/

theorem ofText_backslash (h : ∀ c ∈ rest.head?, c ≠ '$' ∧ c ≠ backtick ∧ c ≠ '\\') :
    ofText ('\\' :: rest) = .text ['\\'] :: ofText rest := by
  have hfirst : first '\\' rest = ([.text ['\\']], 0) := by
    show escape rest = _
    cases rest with
    | nil => rfl
    | cons c rest =>
      obtain ⟨hdollar, hbacktick, hbackslash⟩ := h c rfl
      simp [escape, hbacktick]
  show (first '\\' rest).1 ++ readFrom (first '\\' rest).2 rest = _
  rw [hfirst]
  rfl

theorem ofText_run {run : Text} (hne : run ≠ []) (hrun : ∀ c ∈ run, c = '$') (hrest : ∀ c ∈ rest.head?, c ≠ '$') :
    ofText ('$' :: (run ++ rest)) = .text ('$' :: run) :: ofText rest := by
  obtain ⟨c, run, rfl⟩ := List.exists_cons_of_ne_nil hne
  cases hrun c List.mem_cons_self
  have htake : (run ++ rest).takeWhile (· == '$') = run := by
    have hall : ∀ c ∈ run, (c == '$') = true := fun c hc => beq_iff_eq.mpr (hrun c (List.mem_cons_of_mem _ hc))
    rw [List.takeWhile_append_of_pos hall, Text.takeWhile_of_head? (by simpa using hrest), List.append_nil]
  have hfirst : first '$' ('$' :: run ++ rest) = ([.text ('$' :: '$' :: run)], run.length + 1) := by
    show dollar ('$' :: (run ++ rest)) = _
    rw [dollar, htake]
  have hread : ofText ('$' :: ('$' :: run ++ rest)) = _ := ofText_cons (by rw [hfirst]; rfl)
  rw [hfirst] at hread
  exact hread

theorem ofText_dollar (h : ∀ c ∈ rest.head?, c ≠ '$' ∧ ¬Text.isNameChar c)
    (hbrace : ∀ c more, rest = '{' :: c :: more → ¬Text.isNameChar c) :
    ofText ('$' :: rest) = .text ['$'] :: ofText rest := by
  have hfirst : first '$' rest = ([.text ['$']], 0) := by
    show dollar rest = _
    cases rest with
    | nil => rfl
    | cons c rest =>
      obtain ⟨hdollar, hname⟩ := h c rfl
      by_cases hopen : c = '{'
      · subst hopen
        have hempty : rest.takeWhile Text.isNameChar = [] := by
          refine Text.takeWhile_of_head? fun d hd => ?_
          obtain ⟨more, rfl⟩ := List.head?_eq_some_iff.mp hd
          exact hbrace d more rfl
        simp [dollar, hempty]
      · rw [dollar_bare hdollar hopen, List.takeWhile_cons_of_neg hname]
        rfl
  show (first '$' rest).1 ++ readFrom (first '$' rest).2 rest = _
  rw [hfirst]
  rfl

theorem Reads.ofText_eq (h : Reads text template) : ofText text = template := by
  induction h with
  | nil => rfl
  | plain hc _ ih => rw [ofText_plain hc, ih]
  | escaped hc _ ih =>
    rcases hc with rfl | rfl
    · exact congrArg (_ :: ·) ih
    · exact congrArg (_ :: ·) ih
  | backslashes _ ih => exact congrArg (_ :: ·) ih
  | backslash hrest _ ih => rw [ofText_backslash hrest, ih]
  | span hraw _ ih => rw [ofText_span hraw, ih]
  | unterminated hraw => exact ofText_span_open hraw
  | run hne hrun hrest _ ih => rw [ofText_run hne hrun hrest, ih]
  | reference hne hname hrest _ ih => rw [ofText_reference hne hname hrest, ih]
  | braced hne hname _ ih => rw [ofText_reference_braced hne hname, ih]
  | unclosed hne hname hrest _ ih => rw [ofText_unclosed hne hname hrest, ih]
  | dollar hrest hbrace _ ih => rw [ofText_dollar hrest hbrace, ih]

/-- A text whose first character satisfies `p` starts with a longest part that does. -/
theorem exists_longest {p : Char → Bool} {c : Char} (hc : p c) (rest : Text) :
    ∃ part after, c :: rest = part ++ after ∧ part ≠ [] ∧ (∀ d ∈ part, p d) ∧ (∀ d ∈ after.head?, ¬p d) ∧
      after.length ≤ rest.length := by
  refine ⟨c :: rest.takeWhile p, rest.dropWhile p, ?_, by simp, ?_, Text.head?_dropWhile p rest, ?_⟩
  · rw [List.cons_append, List.takeWhile_append_dropWhile]
  · exact List.forall_mem_cons.mpr ⟨hc, List.all_eq_true.mp List.all_takeWhile⟩
  · exact (List.dropWhile_suffix p).length_le

section

variable (shorter : ∀ text : Text, text.length ≤ rest.length → ∃ template, Reads text template)

include shorter

theorem exists_reads_backslash : ∃ template, Reads ('\\' :: rest) template := by
  cases rest with
  | nil => exact ⟨_, .backslash nofun .nil⟩
  | cons c more =>
    obtain ⟨template, htemplate⟩ := shorter more (Nat.le_succ _)
    by_cases hactive : c = '$' ∨ c = backtick
    · exact ⟨_, .escaped hactive htemplate⟩
    · by_cases hbackslash : c = '\\'
      · subst hbackslash
        exact ⟨_, .backslashes htemplate⟩
      · obtain ⟨template, htemplate⟩ := shorter (c :: more) (Nat.le_refl _)
        rw [not_or] at hactive
        refine ⟨_, .backslash ?_ htemplate⟩
        rintro _ ⟨⟩
        exact ⟨hactive.1, hactive.2, hbackslash⟩

theorem exists_reads_span : ∃ template, Reads (backtick :: rest) template := by
  by_cases hmem : backtick ∈ rest
  · obtain ⟨raw, more, rfl, hraw⟩ := List.eq_append_cons_of_mem hmem
    obtain ⟨template, htemplate⟩ := shorter more (by simp; omega)
    exact ⟨_, .span hraw htemplate⟩
  · exact ⟨_, .unterminated hmem⟩

theorem exists_reads_brace {c : Char} {more : Text} (hrest : rest = '{' :: c :: more) (hc : Text.isNameChar c) :
    ∃ template, Reads ('$' :: rest) template := by
  obtain ⟨name, after, hsplit, hne, hname, hafter, hlength⟩ := exists_longest hc more
  rw [hrest, hsplit]
  have hshorter : ∀ text : Text, text.length ≤ after.length → ∃ template, Reads text template := fun text htext =>
    shorter text (by rw [hrest]; simp; omega)
  by_cases hclosed : after.head? = some '}'
  · obtain ⟨others, rfl⟩ := List.head?_eq_some_iff.mp hclosed
    obtain ⟨template, htemplate⟩ := hshorter others (Nat.le_succ _)
    exact ⟨_, .braced hne hname htemplate⟩
  · obtain ⟨template, htemplate⟩ := hshorter after (Nat.le_refl _)
    refine ⟨_, .unclosed hne hname (fun d hd => ⟨hafter d hd, ?_⟩) htemplate⟩
    rintro rfl
    exact hclosed hd

theorem exists_reads_dollar : ∃ template, Reads ('$' :: rest) template := by
  by_cases hbrace : ∃ c more, rest = '{' :: c :: more ∧ Text.isNameChar c
  · obtain ⟨c, more, hrest, hc⟩ := hbrace
    exact exists_reads_brace shorter hrest hc
  · by_cases hhead : ∀ c ∈ rest.head?, c ≠ '$' ∧ ¬Text.isNameChar c
    · obtain ⟨template, htemplate⟩ := shorter rest (Nat.le_refl _)
      exact ⟨_, .dollar hhead (fun c more heq hc => hbrace ⟨c, more, heq, hc⟩) htemplate⟩
    · cases rest with
      | nil => exact absurd nofun hhead
      | cons c more =>
        by_cases hc : c = '$'
        · obtain ⟨run, after, hsplit, hne, hrun, hafter, hlength⟩ :=
            exists_longest (p := (· == '$')) (beq_iff_eq.mpr hc) more
          obtain ⟨template, htemplate⟩ := shorter after (Nat.le_succ_of_le hlength)
          rw [hsplit]
          exact ⟨_, .run hne (by simpa using hrun) (by simpa using hafter) htemplate⟩
        · have hchar : Text.isNameChar c := by
            by_contra hchar
            refine hhead ?_
            rintro _ ⟨⟩
            exact ⟨hc, hchar⟩
          obtain ⟨name, after, hsplit, hne, hname, hafter, hlength⟩ := exists_longest hchar more
          obtain ⟨template, htemplate⟩ := shorter after (Nat.le_succ_of_le hlength)
          rw [hsplit]
          exact ⟨_, .reference hne hname hafter htemplate⟩

end

theorem exists_reads (text : Text) : ∃ template, Reads text template := by
  -- A rule may take any number of characters, so the induction is on the length.
  induction hlength : text.length using Nat.strongRecOn generalizing text with
  | ind length ih =>
    cases text with
    | nil => exact ⟨_, .nil⟩
    | cons c rest =>
      have shorter : ∀ text : Text, text.length ≤ rest.length → ∃ template, Reads text template := fun text htext =>
        ih text.length (by rw [← hlength, List.length_cons]; omega) text rfl
      by_cases hbackslash : c = '\\'
      · exact hbackslash ▸ exists_reads_backslash shorter
      · by_cases hbacktick : c = backtick
        · exact hbacktick ▸ exists_reads_span shorter
        · by_cases hdollar : c = '$'
          · exact hdollar ▸ exists_reads_dollar shorter
          · obtain ⟨template, htemplate⟩ := shorter rest (Nat.le_refl _)
            exact ⟨_, .plain ⟨hbackslash, hbacktick, hdollar⟩ htemplate⟩

/-- Every text is the text of one template, which is the one that is read. -/
theorem reads_iff : Reads text template ↔ template = ofText text := by
  refine ⟨fun h => h.ofText_eq.symm, ?_⟩
  rintro rfl
  obtain ⟨template, htemplate⟩ := exists_reads text
  exact htemplate.ofText_eq ▸ htemplate

/-! ## Texts joined -/

/-- A character after which a rule may go on. -/
def Pending (c : Char) : Prop :=
  c = '\\' ∨ c = '$' ∨ c = '{' ∨ Text.isNameChar c

/-- No rule goes on after the end of the text. -/
def Settled (text : Text) : Prop :=
  ∀ c ∈ text.getLast?, ¬Pending c

namespace Settled

variable {before part : Text}

theorem of_append (h : Settled (before ++ rest)) : Settled rest := by
  intro c hc
  refine h c ?_
  rw [List.getLast?_append, Option.mem_def.mp hc]
  rfl

/-- A settled text goes on after pending characters. -/
theorem ne_nil (h : Settled (before ++ (part ++ rest))) (hne : part ≠ []) (hpart : ∀ c ∈ part, Pending c) :
    rest ≠ [] := by
  rintro rfl
  rw [List.append_nil] at h
  exact h.of_append (part.getLast hne) (List.getLast?_eq_getLast_of_ne_nil hne) (hpart _ (List.getLast_mem hne))

theorem head?_append (h : Settled (before ++ (part ++ rest))) (hne : part ≠ []) (hpart : ∀ c ∈ part, Pending c)
    (second : Text) : (rest ++ second).head? = rest.head? := by
  obtain ⟨c, more, rfl⟩ := List.exists_cons_of_ne_nil (h.ne_nil hne hpart)
  rfl

end Settled

/-- Texts can be joined after the end of a settled text whose spans all end. -/
theorem Reads.append {second : Text} {template' : Template} (h : Reads text template)
    (hspans : .unterminated ∉ template) (hsettled : Settled text) (hsecond : Reads second template') :
    Reads (text ++ second) (template ++ template') := by
  induction h with
  | nil => exact hsecond
  | @plain c rest template hc _ ih =>
    have hrest : Settled rest := @Settled.of_append rest [c] hsettled
    exact .plain hc (ih (by simpa using hspans) hrest)
  | @escaped c rest template hc _ ih =>
    have hrest : Settled rest := @Settled.of_append rest ['\\', c] hsettled
    exact .escaped hc (ih (by simpa using hspans) hrest)
  | @backslashes rest template _ ih =>
    have hrest : Settled rest := @Settled.of_append rest ['\\', '\\'] hsettled
    exact .backslashes (ih (by simpa using hspans) hrest)
  | @backslash rest template hhead _ ih =>
    have hrest : Settled rest := @Settled.of_append rest ['\\'] hsettled
    have hsame := @Settled.head?_append rest [] ['\\'] hsettled (by simp) (by simp [Pending]) second
    exact .backslash (hsame ▸ hhead) (ih (by simpa using hspans) hrest)
  | @span raw rest template hraw _ ih =>
    have hrest : Settled rest := @Settled.of_append rest (backtick :: (raw ++ [backtick])) (by simpa using hsettled)
    have hread := Reads.span hraw (ih (by simpa using hspans) hrest)
    simpa using hread
  | unterminated hraw => simp at hspans
  | @run run rest template hne hrun hhead _ ih =>
    have hrest : Settled rest := @Settled.of_append rest ('$' :: run) hsettled
    have hsame := @Settled.head?_append rest ['$'] run hsettled hne (fun c hc => .inr (.inl (hrun c hc))) second
    have hread := Reads.run hne hrun (hsame ▸ hhead) (ih (by simpa using hspans) hrest)
    simpa using hread
  | @reference name rest template hne hname hhead _ ih =>
    have hrest : Settled rest := @Settled.of_append rest ('$' :: name) hsettled
    have hsame :=
      @Settled.head?_append rest ['$'] name hsettled hne (fun c hc => .inr (.inr (.inr (hname c hc)))) second
    have hread := Reads.reference hne hname (hsame ▸ hhead) (ih (by simpa using hspans) hrest)
    simpa using hread
  | @braced name rest template hne hname _ ih =>
    have hrest : Settled rest := @Settled.of_append rest ('$' :: '{' :: (name ++ ['}'])) (by simpa using hsettled)
    have hread := Reads.braced hne hname (ih (by simpa using hspans) hrest)
    simpa using hread
  | @unclosed name rest template hne hname hhead _ ih =>
    have hrest : Settled rest := @Settled.of_append rest ('$' :: '{' :: name) hsettled
    have hsame := @Settled.head?_append rest ['$', '{'] name hsettled hne
      (fun c hc => .inr (.inr (.inr (hname c hc)))) second
    have hread := Reads.unclosed hne hname (hsame ▸ hhead) (ih (by simpa using hspans) hrest)
    simpa using hread
  | @dollar rest template hhead hbrace _ ih =>
    have hrest : Settled rest := @Settled.of_append rest ['$'] hsettled
    have hsame := @Settled.head?_append rest [] ['$'] hsettled (by simp) (by simp [Pending]) second
    refine .dollar (hsame ▸ hhead) (fun c more heq => ?_) (ih (by simpa using hspans) hrest)
    rcases rest with _ | ⟨d, _ | ⟨e, others⟩⟩
    · exact absurd rfl (@Settled.ne_nil [] [] ['$'] hsettled (by simp) (by simp [Pending]))
    · obtain ⟨rfl, -⟩ := List.cons.inj heq
      exact absurd (.inr (.inr (.inl rfl))) (hrest '{' rfl)
    · obtain ⟨rfl, hothers⟩ := List.cons.inj heq
      obtain ⟨rfl, -⟩ := List.cons.inj hothers
      exact hbrace e others rfl

theorem ofText_append {second : Text} (hspans : .unterminated ∉ ofText text) (hsettled : Settled text) :
    ofText (text ++ second) = ofText text ++ ofText second :=
  ((reads_iff.mpr rfl).append hspans hsettled (reads_iff.mpr rfl)).ofText_eq

/-- A name that goes on is another name. -/
example : ofText ['$', 'a', 'b'] ≠ ofText ['$', 'a'] ++ ofText ['b'] := by decide

/-! ## Filling in -/

section

variable {value? : Text → Option Text} {output : Text} {fault : Fault}

/-- A piece that can be filled in: text, or a reference to a name that has a value. -/
inductive Piece.Found (value? : Text → Option Text) : Piece → Prop
  | text (text : Text) : Found value? (.text text)
  | reference {name value : Text} : value? name = some value → Found value? (.reference name)

/-- A piece that cannot be filled in. -/
inductive Piece.Fails (value? : Text → Option Text) : Piece → Fault → Prop
  | reference {name : Text} : value? name = none → Fails value? (.reference name) (.unknownVariable name)
  | unclosed (name : Text) : Fails value? (.unclosed name) (.unclosedBrace name)
  | unterminated : Fails value? .unterminated .unterminatedBacktick

theorem Piece.fault?_eq_none_iff {piece : Piece} : piece.fault? value? = none ↔ piece.Found value? := by
  cases piece with
  | text text => exact ⟨fun _ => .text text, fun _ => rfl⟩
  | unclosed name => exact ⟨nofun, nofun⟩
  | unterminated => exact ⟨nofun, nofun⟩
  | reference name =>
    rw [fault?]
    constructor
    · intro h
      cases hvalue : value? name with
      | some value => exact .reference hvalue
      | none => simp [hvalue] at h
    · rintro ⟨⟩
      rename_i value hvalue
      simp [hvalue]

theorem Piece.fault?_eq_some_iff {piece : Piece} : piece.fault? value? = some fault ↔ piece.Fails value? fault := by
  cases piece with
  | text text => exact ⟨nofun, nofun⟩
  | unclosed name =>
    constructor
    · rintro ⟨⟩
      exact .unclosed name
    · rintro ⟨⟩
      rfl
  | unterminated =>
    constructor
    · rintro ⟨⟩
      exact .unterminated
    · rintro ⟨⟩
      rfl
  | reference name =>
    rw [fault?]
    constructor
    · intro h
      cases hvalue : value? name with
      | some value => simp [hvalue] at h
      | none =>
        simp only [hvalue, Option.isSome_none, Bool.false_eq_true, if_false] at h
        cases h
        exact .reference hvalue
    · rintro ⟨⟩
      rename_i hvalue
      simp [hvalue]

theorem fill_eq_ok_iff :
    template.fill value? = .ok output ↔
      (∀ piece ∈ template, piece.Found value?) ∧ output = template.flatMap (Piece.output value?) := by
  simp only [fill, ← Piece.fault?_eq_none_iff, ← List.findSome?_eq_none_iff]
  cases template.findSome? (Piece.fault? value?) with
  | none => exact ⟨fun h => ⟨rfl, (Except.ok.inj h).symm⟩, fun h => congrArg Except.ok h.2.symm⟩
  | some fault =>
    constructor
    · intro h
      cases h
    · rintro ⟨h, -⟩
      cases h

theorem fill_eq_error_iff :
    template.fill value? = .error ⟨fault, output⟩ ↔
      (∃ before piece after, template = before ++ piece :: after ∧ piece.Fails value? fault ∧
        ∀ earlier ∈ before, earlier.Found value?) ∧ output = template.flatMap (Piece.output value?) := by
  simp only [fill, ← Piece.fault?_eq_none_iff, ← Piece.fault?_eq_some_iff, ← List.findSome?_eq_some_iff]
  cases template.findSome? (Piece.fault? value?) with
  | none =>
    constructor
    · intro h
      cases h
    · rintro ⟨h, -⟩
      cases h
  | some first =>
    constructor
    · intro h
      cases h
      exact ⟨rfl, rfl⟩
    · rintro ⟨hfault, rfl⟩
      cases hfault
      rfl

end

end Template

open Template (Piece)

/-- How scopes fill in a text. Its template depends on the text alone, and the outcome on the template and on the
values of its names: every piece contributes its text or its value, once and as it is, and if a piece fails, the
first one that does decides the fault. Templates can be joined where no rule goes on. -/
theorem Scopes.perform_fill_template (text : Text) :
    (∀ template, Template.Reads text template ↔ template = Template.ofText text) ∧
      (∀ (scopes : Scopes) (id : Nat), scopes.contains id → ∃ result,
        scopes.perform (.fill id text) = (.filled result, scopes) ∧
        scopes.fill id text = result.mapError (fun failure => .template failure.fault) ∧
        (∀ output, result = .ok output ↔
          (∀ piece ∈ Template.ofText text, piece.Found (scopes.value? id)) ∧
            output = (Template.ofText text).flatMap (Piece.output (scopes.value? id))) ∧
        ∀ fault output, result = .error ⟨fault, output⟩ ↔
          (∃ before piece after, Template.ofText text = before ++ piece :: after ∧
            piece.Fails (scopes.value? id) fault ∧ ∀ earlier ∈ before, earlier.Found (scopes.value? id)) ∧
          output = (Template.ofText text).flatMap (Piece.output (scopes.value? id))) ∧
      ∀ rest, Piece.unterminated ∉ Template.ofText text → Template.Settled text →
        Template.ofText (text ++ rest) = Template.ofText text ++ Template.ofText rest := by
  refine ⟨fun _ => Template.reads_iff, fun scopes id hid => ?_, fun _ => Template.ofText_append⟩
  refine ⟨(Template.ofText text).fill (scopes.value? id), ?_, ?_, fun _ => Template.fill_eq_ok_iff,
    fun _ _ => Template.fill_eq_error_iff⟩
  · rw [perform]
    split
    · rfl
    · rw [guarded, if_pos hid]
  · rw [fill]
    cases (Template.ofText text).fill (scopes.value? id) <;> rfl

end Scl
