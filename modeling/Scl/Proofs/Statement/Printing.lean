import Scl.Proofs.Line.Folding
import Scl.Proofs.Statement.Classification
import Scl.Proofs.Statement.Parameters
import Scl.Proofs.Statement.Signature
import Scl.Proofs.Text.Stripping

/-!
# Printed signatures

A signature is printed from the name and the tokens of a declaration, with a comma and a space between arguments
and nothing escaped. What the tokens came from was cut at its commas and checked for comments as a whole, and the
printed signature is cut and checked again:

* `Argument.Prints`: an argument, its tokens, and how these are printed;
* `Argument.Reprints`: what printing an argument keeps;
* `read_parts`, `not_hasComment_parts`: a list of printed arguments is read as their tokens and has no comment;
* `read_print`: so a printed signature is read as what it was printed from.
-/

namespace Scl

namespace Text

theorem Nesting.Item.trim {text : Text} (h : Nesting.top.Item text) : Nesting.top.Item (trim text) := by
  obtain ⟨start, ending, htext, hstart, hending⟩ := exists_trim text
  rw [htext, item_append fun c hc => inert_of_isWhiteSpace (hstart c hc)] at h
  exact h.of_append trivial fun c hc => inert_of_isWhiteSpace (hending c hc)

theorem mem_of_mem_trim {text : Text} {c : Char} (h : c ∈ trim text) : c ∈ text := by
  obtain ⟨start, ending, htext, -⟩ := exists_trim text
  rw [htext]
  simp [h]

theorem mem_join {separator : Text} {texts : List Text} {c : Char} (h : c ∈ join separator texts) :
    c ∈ separator ∨ ∃ text ∈ texts, c ∈ text := by
  induction texts with
  | nil => simp [join] at h
  | cons first others ih =>
    cases others with
    | nil =>
      rw [join_singleton] at h
      exact .inr ⟨first, List.mem_cons_self, h⟩
    | cons second others =>
      rw [join_cons_cons, List.mem_append, List.mem_append] at h
      rcases h with h | h | h
      · exact .inr ⟨first, List.mem_cons_self, h⟩
      · exact .inl h
      · refine (ih h).imp_right fun hother => ?_
        obtain ⟨text, htext, hc⟩ := hother
        exact ⟨text, List.mem_cons_of_mem first htext, hc⟩

end Text

/-! ## Arguments -/

namespace Argument

open Text (Nesting HasComment Trimmed)

variable {location : Location} {argument printed : Text} {list : List Token}

/-- An argument, the tokens that it has, and how these are printed: without white space after the name and the
equals sign. -/
inductive Prints (location : Location) : Text → List Token → Text → Prop
  | literal {text : Text} : text.head? ≠ some '$' → literalFault? text = none →
    Prints location text [⟨.literal, text, location⟩] text
  | reference {name blanks : Text} : name ≠ [] → (∀ c ∈ name, Text.isNameChar c) →
    (∀ c ∈ blanks, Text.isWhiteSpace c) →
    Prints location ('$' :: (name ++ blanks)) [⟨.variable, name, location⟩] ('$' :: name)
  | named {name blanks value : Text} : name ≠ [] → (∀ c ∈ name, Text.isNameChar c) →
    (∀ c ∈ blanks, Text.isWhiteSpace c) → Text.trim value ≠ [] → literalFault? (Text.trim value) = none →
    Prints location ('$' :: (name ++ (blanks ++ '=' :: value)))
      [⟨.assignment, name, location⟩, ⟨.literal, Text.trim value, location⟩]
      ('$' :: (name ++ '=' :: Text.trim value))

/-- Every argument that can be read can be printed. -/
theorem exists_prints (h : tokens location argument = .ok list) : ∃ printed, Prints location argument list printed := by
  unfold tokens at h
  split at h
  · cases h
  · rename_i reference
    have hreference : reference = reference.takeWhile Text.isNameChar ++ reference.dropWhile Text.isNameChar :=
      List.takeWhile_append_dropWhile.symm
    have hrest : reference.dropWhile Text.isNameChar =
        (reference.dropWhile Text.isNameChar).takeWhile Text.isWhiteSpace ++
          Text.trimStart (reference.dropWhile Text.isNameChar) := List.takeWhile_append_dropWhile.symm
    have hname : ∀ c ∈ reference.takeWhile Text.isNameChar, Text.isNameChar c := fun c hc =>
      List.all_eq_true.mp List.all_takeWhile c hc
    have hblanks : ∀ c ∈ (reference.dropWhile Text.isNameChar).takeWhile Text.isWhiteSpace, Text.isWhiteSpace c :=
      fun c hc => List.all_eq_true.mp List.all_takeWhile c hc
    generalize reference.takeWhile Text.isNameChar = name at *
    generalize reference.dropWhile Text.isNameChar = rest at *
    generalize rest.takeWhile Text.isWhiteSpace = blanks at *
    simp only at h
    split at h
    · cases h
    · rename_i hne
      replace hne : name ≠ [] := by simpa using hne
      split at h
      · rename_i hnil
        cases h
        rw [hreference, hrest, hnil, List.append_nil]
        exact ⟨_, .reference hne hname hblanks⟩
      · rename_i value hvalue
        split at h
        · cases h
        · rename_i hsome
          split at h
          · cases h
          · rename_i hfault
            cases h
            rw [hreference, hrest, hvalue]
            exact ⟨_, .named hne hname hblanks (by simpa using hsome) hfault⟩
      · cases h
  · rename_i hempty hdollar
    split at h
    · cases h
    · rename_i hfault
      cases h
      refine ⟨_, .literal (fun hhead => ?_) hfault⟩
      obtain ⟨reference, rfl⟩ := List.head?_eq_some_iff.mp hhead
      exact hdollar reference rfl

namespace Prints

/-- A printed argument has the tokens that it was printed from. -/
theorem tokens_eq (h : Prints location argument list printed) : tokens location printed = .ok list := by
  cases h with
  | literal hhead hfault =>
    unfold tokens
    split
    · cases hfault
    · exact absurd rfl hhead
    · rw [hfault]
  | @reference name _ hne hname _ =>
    have hempty : ¬(name.isEmpty = true) := by simpa using hne
    simp only [tokens, List.takeWhile_eq_self_iff.mpr hname, List.dropWhile_eq_nil_iff.mpr hname, if_neg hempty]
    rfl
  | @named name _ value hne hname _ hvalue hfault =>
    have hempty : ¬(name.isEmpty = true) := by simpa using hne
    have htake : (name ++ '=' :: Text.trim value).takeWhile Text.isNameChar = name := by
      rw [Text.takeWhile_append_cons (by decide), List.takeWhile_eq_self_iff.mpr hname]
    have hdrop : (name ++ '=' :: Text.trim value).dropWhile Text.isNameChar = '=' :: Text.trim value := by
      rw [Text.dropWhile_append_cons (by decide), List.dropWhile_eq_nil_iff.mpr hname, List.nil_append]
    have hstart : Text.trimStart ('=' :: Text.trim value) = '=' :: Text.trim value :=
      List.dropWhile_cons_of_neg (by decide)
    simp only [tokens, htake, hdrop, hstart, if_neg hempty, (Text.trimmed_trim hvalue).trim_eq_self, hfault]
    rw [if_neg (by simpa using hvalue)]

theorem trimmed (h : Prints location argument list printed) (hargument : Trimmed argument) : Trimmed printed := by
  have hdollar : ∀ c ∈ ('$' :: ([] : Text)).head?, ¬Text.isWhiteSpace c := by
    rintro c ⟨⟩
    decide
  cases h with
  | literal => exact hargument
  | @reference name _ hne hname _ =>
    refine ⟨by simp, hdollar, fun c hc => ?_⟩
    rw [List.getLast?_cons_of_ne_nil hne] at hc
    exact Text.not_isWhiteSpace_of_isNameChar (hname c (List.mem_of_getLast? hc))
  | @named name _ value _ _ _ hvalue _ =>
    refine ⟨by simp, hdollar, fun c hc => (Text.trimmed_trim hvalue).last c ?_⟩
    rwa [← List.cons_append, List.getLast?_append_of_ne_nil _ (by simp), List.getLast?_cons_of_ne_nil hvalue] at hc

/-- The tokens of one argument are put together to one. -/
theorem group_eq (h : Prints location argument list printed) : ∃ one : Argument, one.toText = printed ∧
    ∀ others, group (list ++ others) = one :: group others := by
  cases h with
  | literal => exact ⟨.single _, rfl, group_cons_of_ne (by simp)⟩
  | reference => exact ⟨.single _, rfl, group_cons_of_ne (by simp)⟩
  | @named name _ value => exact ⟨.named name (Text.trim value), by simp [toText], fun others => rfl⟩

end Prints

/-- What printing keeps of an argument. -/
structure Reprints (argument printed : Text) : Prop where
  item : Nesting.top.Item argument → Nesting.top.Item printed
  comment : HasComment .outside printed → HasComment .outside argument
  subset : printed ⊆ argument

theorem Reprints.of_trim (h : Reprints (Text.trim argument) printed) : Reprints argument printed :=
  ⟨fun hitem => h.item hitem.trim, fun hcomment => Text.hasComment_of_trim (h.comment hcomment),
    fun _ hc => Text.mem_of_mem_trim (h.subset hc)⟩

theorem Prints.reprints (h : Prints location argument list printed) : Reprints argument printed := by
  have hdollar : Text.Inert '$' ∧ Text.Neutral '$' := by decide
  have hequals : Text.Inert '=' ∧ Text.Neutral '=' := by decide
  cases h with
  | literal => exact ⟨id, id, List.Subset.refl _⟩
  | @reference name blanks _ hname hblanks =>
    rw [← List.cons_append]
    refine ⟨fun hitem => ?_, fun hcomment => Text.hasComment_append hcomment blanks, by simp⟩
    exact hitem.of_append trivial fun c hc => Text.inert_of_isWhiteSpace (hblanks c hc)
  | @named name blanks value _ hname hblanks hvalue _ =>
    -- The name and what stands between it and the value, with and without white space.
    have hfront : ∀ c ∈ '$' :: (name ++ (blanks ++ ['='])), Text.Inert c ∧ Text.Neutral c := by
      simp only [List.forall_mem_cons, List.forall_mem_append, List.not_mem_nil, false_implies, implies_true, and_true]
      refine ⟨hdollar, fun c hc => ?_, fun c hc => ?_, hequals⟩
      · exact ⟨Text.inert_of_isNameChar (hname c hc), Text.neutral_of_isNameChar (hname c hc)⟩
      · exact ⟨Text.inert_of_isWhiteSpace (hblanks c hc), Text.neutral_of_isWhiteSpace (hblanks c hc)⟩
    have hkept : ∀ c ∈ '$' :: (name ++ ['=']), Text.Inert c ∧ Text.Neutral c := fun c hc => hfront c (by
      simp only [List.mem_cons, List.mem_append] at hc ⊢
      tauto)
    have hargument : '$' :: (name ++ (blanks ++ '=' :: value)) = '$' :: (name ++ (blanks ++ ['='])) ++ value := by simp
    have hprinted : '$' :: (name ++ '=' :: Text.trim value) = '$' :: (name ++ ['=']) ++ Text.trim value := by simp
    rw [hargument, hprinted]
    refine ⟨fun hitem => ?_, fun hcomment => ?_, fun c hc => ?_⟩
    · rw [Nesting.item_append fun c hc => (hfront c hc).1] at hitem
      rw [Nesting.item_append fun c hc => (hkept c hc).1]
      exact hitem.trim
    · rw [Text.hasComment_neutral_append fun c hc => (hkept c hc).2] at hcomment
      rw [Text.hasComment_neutral_append fun c hc => (hfront c hc).2]
      exact Text.hasComment_of_trim hcomment
    · simp only [List.mem_cons, List.mem_append] at hc ⊢
      have := @Text.mem_of_mem_trim value c
      tauto

/-- Arguments one by one: the texts that their tokens are printed as. -/
theorem exists_parts {arguments : List Text} {lists : List (List Token)}
    (h : List.Forall₂ (fun argument list => tokens location (Text.trim argument) = .ok list) arguments lists) :
    ∃ parts, (group lists.flatten).map toText = parts ∧
      List.Forall₂ (fun part list => tokens location part = .ok list ∧ Trimmed part) parts lists ∧
      ∀ part ∈ parts, ∃ argument ∈ arguments, Reprints argument part := by
  induction h with
  | nil => exact ⟨[], rfl, .nil, fun part hpart => nomatch hpart⟩
  | @cons argument list arguments lists hfirst _ ih =>
    obtain ⟨parts, hparts, hread, hreprints⟩ := ih
    obtain ⟨part, hprints⟩ := exists_prints hfirst
    obtain ⟨one, hone, hgroup⟩ := hprints.group_eq
    have hne : Text.trim argument ≠ [] := by
      intro hnil
      rw [hnil] at hfirst
      cases hfirst
    refine ⟨part :: parts, ?_, .cons ⟨hprints.tokens_eq, ?_⟩ hread,
      List.forall_mem_cons.mpr ⟨?_, fun other hother => ?_⟩⟩
    · rw [List.flatten_cons, hgroup, List.map_cons, hone, hparts]
    · exact hprints.trimmed (Text.trimmed_trim hne)
    · exact ⟨argument, List.mem_cons_self, hprints.reprints.of_trim⟩
    · obtain ⟨from', hfrom, hreprint⟩ := hreprints other hother
      exact ⟨from', List.mem_cons_of_mem argument hfrom, hreprint⟩

end Argument

/-! ## Lists -/

namespace Signature

open Text (Nesting HasComment Trimmed Quoting)

variable {location : Location} {text name : Text} {tokens : List Token} {arguments parts : List Text}

/-- The space after a comma belongs to the argument that follows. -/
theorem join_spaced (first : Text) (others : List Text) :
    Text.join [','] (first :: others.map (' ' :: ·)) = Text.join [',', ' '] (first :: others) := by
  induction others generalizing first with
  | nil => rw [List.map_nil, Text.join_singleton, Text.join_singleton]
  | cons second others ih => rw [List.map_cons, Text.join_cons_cons, Text.join_cons_cons, Text.join_cons_head, ih]; rfl

/-- A list of arguments is read as their tokens. -/
theorem read_parts {lists : List (List Token)} (hname : Text.isName name)
    (hread : List.Forall₂ (fun part list => Argument.tokens location part = .ok list ∧ Trimmed part) parts lists)
    (hitems : ∀ part ∈ parts, Nesting.top.Item part) :
    read location (name ++ '(' :: (Text.join [',', ' '] parts ++ [')'])) = .ok (name, lists.flatten) := by
  have hlongest : ∀ (rest : Text), ∀ c ∈ ('(' :: rest).head?, ¬Text.isNameChar c := by
    rintro rest c ⟨⟩
    decide
  cases hread with
  | nil =>
    have hparses : Parses location (name ++ '(' :: [')']) name (.blank [] []) [] :=
      ⟨rfl, hname, hlongest _, .inl rfl, rfl, rfl⟩
    exact hparses.read_eq
  | @cons first list others lists hfirst hothers =>
    have hform : Form.toText (.list (first :: others.map (' ' :: ·)) []) =
        '(' :: (Text.join [',', ' '] (first :: others) ++ [')']) := by rw [Form.toText, join_spaced]
    rw [← hform]
    refine Parses.read_eq ⟨rfl, hname, hform ▸ hlongest _, .inl rfl, by simp, ?_, list :: lists, .cons ?_ ?_, rfl⟩
    · obtain ⟨hitem, hitems⟩ := List.forall_mem_cons.mp hitems
      refine List.forall_mem_cons.mpr ⟨hitem, List.forall_mem_map.mpr fun part hpart => ?_⟩
      have hspace : Text.Inert ' ' := Text.inert_of_isWhiteSpace (by decide)
      exact (Nesting.item_append (List.forall_mem_singleton.mpr hspace)).mpr (hitems part hpart)
    · rw [hfirst.2.trim_eq_self, hfirst.1]
    · rw [List.forall₂_map_left_iff]
      refine hothers.imp fun part list ⟨htokens, htrimmed⟩ => ?_
      have htrim : Text.trim ([' '] ++ (part ++ [])) = part :=
        htrimmed.trim_eq (List.forall_mem_singleton.mpr (by decide)) nofun
      rw [List.append_nil, List.singleton_append] at htrim
      rw [htrim, htokens]

/-- Arguments without comments make a list without one. -/
theorem not_hasComment_parts (hitems : ∀ part ∈ parts, Nesting.top.Item part)
    (hparts : ∀ part ∈ parts, ¬HasComment .outside part) :
    ¬HasComment .outside (Text.join [',', ' '] parts) ∧
      (Text.join [',', ' '] parts).foldl Quoting.step .outside = .outside := by
  induction parts with
  | nil => exact ⟨Text.hasComment_nil, rfl⟩
  | cons first others ih =>
    obtain ⟨hitem, hitems⟩ := List.forall_mem_cons.mp hitems
    obtain ⟨hfirst, hothers⟩ := List.forall_mem_cons.mp hparts
    have houtside : first.foldl Quoting.step .outside = .outside := hitem.outside
    cases others with
    | nil =>
      rw [Text.join_singleton]
      exact ⟨hfirst, houtside⟩
    | cons second others =>
      obtain ⟨hrest, hend⟩ := ih hitems hothers
      rw [Text.join_cons_cons]
      constructor
      · refine Text.not_hasComment_append (by decide) hfirst ?_
        rw [houtside]
        have hcomma : ∀ c ∈ [',', ' '], Text.Neutral c :=
          List.forall_mem_cons.mpr ⟨by decide, List.forall_mem_singleton.mpr (by decide)⟩
        exact fun hcomment => hrest ((Text.hasComment_neutral_append hcomma).mp hcomment)
      · rw [List.foldl_append, houtside]
        exact hend

/-- A comment in one of the arguments is one in the list. -/
theorem hasComment_of_mem (hitems : ∀ argument ∈ arguments, Nesting.top.Item argument) {argument : Text}
    (hmem : argument ∈ arguments) (h : HasComment .outside argument) (rest : Text) :
    HasComment .outside (Text.join [','] arguments ++ rest) := by
  induction arguments with
  | nil => cases hmem
  | cons first others ih =>
    obtain ⟨hitem, hitems⟩ := List.forall_mem_cons.mp hitems
    cases others with
    | nil =>
      rw [List.mem_singleton.mp hmem] at h
      rw [Text.join_singleton]
      exact Text.hasComment_append h rest
    | cons second others =>
      rw [Text.join_cons_cons, List.append_assoc]
      rcases List.mem_cons.mp hmem with rfl | hmem
      · exact Text.hasComment_append h _
      · refine Text.HasComment.append_left ?_ hitem.outside
        have hcomma : ∀ c ∈ [','], Text.Neutral c := List.forall_mem_singleton.mpr (by decide)
        exact (Text.hasComment_neutral_append hcomma).mpr (ih hitems hmem)

theorem print_eq (name : Text) (tokens : List Token) : print name tokens =
    '@' :: (name ++ '(' :: (Text.join [',', ' '] ((Argument.group tokens).map Argument.toText) ++ [')'])) := by
  simp [print]

/-- What is printed of a signature that was read. -/
theorem parts_of_read (h : read location text = .ok (name, tokens)) :
    let parts := (Argument.group tokens).map Argument.toText
    Text.isName name ∧
      (∃ lists, tokens = lists.flatten ∧
        List.Forall₂ (fun part list => Argument.tokens location part = .ok list ∧ Trimmed part) parts lists) ∧
      (∀ part ∈ parts, Nesting.top.Item part) ∧
      ∀ part ∈ parts, (HasComment .outside part → HasComment .outside text) ∧ part ⊆ text := by
  intro parts
  obtain ⟨form, htext, hname, -, hgives⟩ := exists_parses h
  refine ⟨hname, ?_⟩
  -- Without arguments nothing is printed between the parentheses.
  have hempty : tokens = [] → (∃ lists, tokens = lists.flatten ∧ List.Forall₂
      (fun part list => Argument.tokens location part = .ok list ∧ Trimmed part) parts lists) ∧
      (∀ part ∈ parts, Nesting.top.Item part) ∧
      ∀ part ∈ parts, (HasComment .outside part → HasComment .outside text) ∧ part ⊆ text := by
    rintro rfl
    have hparts : parts = [] := rfl
    rw [hparts]
    exact ⟨⟨[], rfl, .nil⟩, by simp⟩
  cases form with
  | colon rest => exact hempty hgives.2
  | blank inner trailer => exact hempty hgives.2.2
  | list arguments trailer =>
    obtain ⟨-, -, hitems, lists, hlists, rfl⟩ := hgives
    obtain ⟨_, rfl, hread, hreprints⟩ := Argument.exists_parts hlists
    refine ⟨⟨lists, rfl, hread⟩, fun part hpart => ?_, fun part hpart => ?_⟩
    · obtain ⟨argument, hargument, hreprint⟩ := hreprints part hpart
      exact hreprint.item (hitems argument hargument)
    · obtain ⟨argument, hargument, hreprint⟩ := hreprints part hpart
      have hfront : ∀ c ∈ name ++ ['('], Text.Neutral c := by
        refine List.forall_mem_append.mpr ⟨fun c hc => ?_, List.forall_mem_singleton.mpr (by decide)⟩
        exact Text.neutral_of_isNameChar (Text.isNameChar_of_isName hname c hc)
      have hsplit : text = name ++ ['('] ++ (Text.join [','] arguments ++ ')' :: trailer) := by
        simp [htext, Form.toText]
      rw [hsplit]
      refine ⟨fun hcomment => ?_, fun c hc => ?_⟩
      · rw [Text.hasComment_neutral_append hfront]
        exact hasComment_of_mem hitems hargument (hreprint.comment hcomment) _
      · exact List.mem_append_right _ (List.mem_append_left _ (Text.mem_join_of_mem hargument (hreprint.subset hc)))

/-- What is printed after `@` is read as what it was printed from. -/
theorem read_printed (h : read location text = .ok (name, tokens)) :
    ∃ rest, print name tokens = '@' :: rest ∧ read location rest = .ok (name, tokens) := by
  obtain ⟨hname, ⟨lists, hlists, hread⟩, hitems, -⟩ := parts_of_read h
  refine ⟨_, print_eq name tokens, ?_⟩
  rw [read_parts hname hread hitems, hlists]

/-- A printed signature has no comment if the text that it was read from has none. -/
theorem not_hasComment_print (h : read location text = .ok (name, tokens)) (htext : ¬HasComment .outside text) :
    ¬HasComment .outside (print name tokens) := by
  obtain ⟨hname, -, hitems, hparts⟩ := parts_of_read h
  obtain ⟨hlist, hend⟩ := not_hasComment_parts hitems fun part hpart hcomment => htext ((hparts part hpart).1 hcomment)
  have hfront : ∀ c ∈ '@' :: (name ++ ['(']), Text.Neutral c := by
    refine List.forall_mem_cons.mpr ⟨by decide, List.forall_mem_append.mpr ⟨fun c hc => ?_, ?_⟩⟩
    · exact Text.neutral_of_isNameChar (Text.isNameChar_of_isName hname c hc)
    · exact List.forall_mem_singleton.mpr (by decide)
  have hsplit : ∀ rest : Text, '@' :: (name ++ '(' :: rest) = '@' :: (name ++ ['(']) ++ rest := by simp
  rw [print_eq, hsplit, Text.hasComment_neutral_append hfront]
  refine Text.not_hasComment_append (by decide) hlist ?_
  rw [hend]
  exact Text.not_hasComment_of_slash_notMem (by decide)

theorem trimmed_print (name : Text) (tokens : List Token) : Trimmed (print name tokens) := by
  refine ⟨by simp [print], ?_, ?_⟩
  · rintro c ⟨⟩
    decide
  · rw [print, List.getLast?_concat]
    rintro c ⟨⟩
    decide

theorem feed_notMem_print (h : read location text = .ok (name, tokens)) (hfeed : '\n' ∉ text) :
    '\n' ∉ print name tokens := by
  obtain ⟨hname, -, -, hparts⟩ := parts_of_read h
  have hlist : '\n' ∉ Text.join [',', ' '] ((Argument.group tokens).map Argument.toText) := by
    intro hmem
    rcases Text.mem_join hmem with hmem | ⟨part, hpart, hmem⟩
    · exact absurd hmem (by decide)
    · exact hfeed ((hparts part hpart).2 hmem)
  have hname' : '\n' ∉ name := fun hmem => absurd (Text.isNameChar_of_isName hname _ hmem) (by decide)
  simp [print_eq, hlist, hname']

end Signature

/-! ## Lines -/

namespace Line

variable {line : Line} {head : Token} {tokens : List Token}

/-- A declaration is a signature after `@`. -/
theorem codeTokens_eq_declaration {code : Text} (h : line.codeTokens code = .ok (head :: tokens))
    (hkind : head.kind = .declaration) : ∃ signature, code = '@' :: signature ∧
      head = ⟨.declaration, head.text, line.location⟩ ∧
      Signature.read line.location signature = .ok (head.text, tokens) := by
  rw [codeTokens] at h
  split at h
  · rename_i hat
    obtain ⟨signature, rfl⟩ := List.head?_eq_some_iff.mp hat
    obtain ⟨⟨name, arguments⟩, hread, heq⟩ := Except.map_eq_ok h
    cases heq
    exact ⟨signature, rfl, rfl, hread⟩
  · -- No other head is that of a declaration.
    split at h
    · obtain ⟨_, -, heq⟩ := Except.map_eq_ok h
      cases heq
      cases hkind
    · split at h
      · obtain ⟨_, -, heq⟩ := Except.map_eq_ok h
        cases heq
        cases hkind
      · split at h <;> (cases h; cases hkind)

/-- The line of a declaration with its printed signature as content has the same tokens. -/
theorem tokens_print (hfeed : '\n' ∉ line.content) (h : line.tokens = .ok (head :: tokens))
    (hkind : head.kind = .declaration) :
    { line with content := Signature.print head.text tokens }.tokens = .ok (head :: tokens) := by
  have hcode : line.codeTokens line.code = .ok (head :: tokens) := by
    rw [Line.tokens] at h
    split at h
    · cases h
      cases hkind
    · exact h
  rw [code_of_notMem hfeed] at hcode
  obtain ⟨signature, hsignature, hhead, hread⟩ := codeTokens_eq_declaration hcode hkind
  -- Neither a comment nor a line feed comes back into what is printed.
  have hcomment : ¬Text.HasComment .outside signature := by
    intro hcomment
    have hstripped : Text.HasComment .outside (Text.stripComment line.content) := by
      rw [hsignature]
      have hat : ∀ c ∈ ['@'], Text.Neutral c := List.forall_mem_singleton.mpr (by decide)
      exact (Text.hasComment_neutral_append hat).mpr hcomment
    rw [Text.stripComment_eq] at hstripped
    exact Text.not_hasComment_uncommented _ _ (Text.hasComment_of_trim hstripped)
  have hfeed' : '\n' ∉ signature := by
    intro hmem
    have hmem' : '\n' ∈ Text.stripComment line.content := by
      rw [hsignature]
      exact List.mem_cons_of_mem _ hmem
    rw [Text.stripComment_eq] at hmem'
    exact hfeed (Text.mem_of_mem_uncommented (Text.mem_of_mem_trim hmem'))
  have hcode' : Line.code { line with content := Signature.print head.text tokens } =
      Signature.print head.text tokens := by
    rw [code_of_notMem (Signature.feed_notMem_print hread hfeed'), Text.stripComment_eq,
      Text.uncommented_eq_self (Signature.not_hasComment_print hread hcomment),
      (Signature.trimmed_print head.text tokens).trim_eq_self]
  obtain ⟨rest, hprint, hread'⟩ := Signature.read_printed hread
  rw [Line.tokens, hcode', hprint]
  show (fun result : Text × List Token => _) <$> Signature.read line.location rest = _
  rw [hread', hhead]
  rfl

end Line

/-- A signature that is printed from a name and tokens which were read is read as the same again. And so is the line
of a declaration, if its content is replaced by the signature that is printed from its tokens. -/
theorem Signature.read_print :
    (∀ (location : Location) (text name : Text) (tokens : List Token), read location text = .ok (name, tokens) →
      ∃ rest, print name tokens = '@' :: rest ∧ read location rest = .ok (name, tokens)) ∧
    ∀ (line : Line) (head : Token) (tokens : List Token), '\n' ∉ line.content →
      line.tokens = .ok (head :: tokens) → head.kind = .declaration →
      { line with content := print head.text tokens }.tokens = .ok (head :: tokens) :=
  ⟨fun _ _ _ _ h => read_printed h, fun _ _ _ hfeed h hkind => Line.tokens_print hfeed h hkind⟩

/-- A declaration with a comment, with slashes and commas in quotes and brackets, and with white space of all kinds. -/
theorem Signature.read_print_quoted :
    let line : Line := ⟨⟨['f'], 3⟩, 2, "@m( $a , $b\t= \"x // y, )\",$c = [1, `)`] ) : // see \"n\"".toList⟩
    let tokens : List Token :=
      [⟨.variable, ['a'], ⟨['f'], 3⟩⟩, ⟨.assignment, ['b'], ⟨['f'], 3⟩⟩, ⟨.literal, "\"x // y, )\"".toList, ⟨['f'], 3⟩⟩,
        ⟨.assignment, ['c'], ⟨['f'], 3⟩⟩, ⟨.literal, "[1, `)`]".toList, ⟨['f'], 3⟩⟩]
    print ['m'] tokens = "@m($a, $b=\"x // y, )\", $c=[1, `)`])".toList ∧
      line.tokens = .ok (⟨.declaration, ['m'], ⟨['f'], 3⟩⟩ :: tokens) ∧
      { line with content := print ['m'] tokens }.tokens = .ok (⟨.declaration, ['m'], ⟨['f'], 3⟩⟩ :: tokens) := by
  intro line tokens
  have hfeed : '\n' ∉ line.content := by decide +kernel
  have htokens : line.tokens = .ok (⟨.declaration, ['m'], ⟨['f'], 3⟩⟩ :: tokens) := by decide +kernel
  exact ⟨by decide +kernel, htokens, read_print.2 line ⟨.declaration, ['m'], ⟨['f'], 3⟩⟩ tokens hfeed htokens rfl⟩

end Scl
