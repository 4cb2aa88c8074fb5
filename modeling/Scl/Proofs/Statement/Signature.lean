import Mathlib.Data.List.Forall2
import Mathlib.Data.List.TakeWhile
import Scl.Proofs.Text.Bytes
import Scl.Proofs.Text.Nesting
import Scl.Proofs.Text.Trimming
import Scl.Statement.Signature

/-!
# The grammar of signatures

A signature is a name and what stands after it: a colon, or a list in parentheses, perhaps with a colon after
it. The list is blank, or it consists of arguments with commas between them, each of which closes its quotes
and brackets.

* `enclosed?_eq_some_iff`: the end of the list is where the text before it has closed everything;
* `closingAt?_list`: it is also where as many brackets are closed as are opened, with the first one of the list;
* `pieces_join`, `exists_items`: cutting a text at its commas is the inverse of joining arguments;
* `read_eq_ok_iff_form`: what is read, and in how many ways a text is a signature.
-/

namespace Scl

namespace Text

theorem spanName_append {name rest : Text} (hname : isName name) (hrest : ∀ c ∈ rest.head?, ¬isNameChar c) :
    spanName (name ++ rest) = (name, rest) := by
  cases name with
  | nil => cases hname
  | cons c name =>
    rw [isName, Bool.and_eq_true, List.all_eq_true] at hname
    rw [List.cons_append, spanName, if_pos hname.1, List.takeWhile_append_of_pos hname.2,
      List.dropWhile_append_of_pos hname.2, takeWhile_of_head? hrest, dropWhile_of_head? hrest, List.append_nil]

theorem spanName_append_eq (text : Text) : (spanName text).1 ++ (spanName text).2 = text := by
  cases text with
  | nil => rfl
  | cons c rest =>
    rw [spanName]
    split
    · exact congrArg (c :: ·) List.takeWhile_append_dropWhile
    · rfl

/-- A text that starts with a name. -/
theorem isName_spanName {text : Text} (h : (spanName text).1 ≠ []) :
    isName (spanName text).1 ∧ ∀ c ∈ (spanName text).2.head?, ¬isNameChar c := by
  cases text with
  | nil => exact absurd rfl h
  | cons c rest =>
    rw [spanName] at h ⊢
    split
    · rename_i hstart
      refine ⟨?_, head?_dropWhile isNameChar rest⟩
      rw [isName, hstart, Bool.true_and]
      exact List.all_takeWhile
    · rename_i hstart
      rw [if_neg hstart] at h
      exact absurd rfl h

theorem join_cons_cons (separator first second : Text) (others : List Text) :
    join separator (first :: second :: others) = first ++ (separator ++ join separator (second :: others)) := by
  simp [join, List.intercalate_cons_cons]

theorem join_singleton (separator first : Text) : join separator [first] = first := by
  simp [join]

theorem join_cons_head (separator first : Text) (c : Char) (others : List Text) :
    join separator ((c :: first) :: others) = c :: join separator (first :: others) := by
  cases others with
  | nil => rw [join_singleton, join_singleton]
  | cons second others => rw [join_cons_cons, join_cons_cons, List.cons_append]

theorem mem_join_of_mem {separator : Text} {texts : List Text} {text : Text} (htext : text ∈ texts) {c : Char}
    (hc : c ∈ text) : c ∈ join separator texts := by
  induction texts with
  | nil => cases htext
  | cons first others ih =>
    cases others with
    | nil =>
      rw [join_singleton, ← List.mem_singleton.mp htext]
      exact hc
    | cons second others =>
      rw [join_cons_cons]
      rcases List.mem_cons.mp htext with rfl | htext
      · exact List.mem_append_left _ hc
      · exact List.mem_append_right _ (List.mem_append_right _ (ih htext))

theorem trim_eq_nil_iff {text : Text} : trim text = [] ↔ ∀ c ∈ text, isWhiteSpace c := by
  constructor
  · intro h
    obtain ⟨ending, hsplit, hending⟩ := exists_dropEndWhile_append isWhiteSpace (trimStart text)
    have hstart : trimStart text = ending := by
      rw [hsplit]
      exact congrArg (· ++ ending) h
    intro c hc
    rw [← List.takeWhile_append_dropWhile (p := isWhiteSpace) (l := text), List.mem_append] at hc
    rcases hc with hc | hc
    · exact List.all_eq_true.mp List.all_takeWhile c hc
    · exact hending c (hstart ▸ hc)
  · intro h
    rw [trim, trimStart, List.dropWhile_eq_nil_iff.mpr h]
    rfl

end Text

namespace Signature

open Text (Nesting Quoting utf8)

variable {nesting : Nesting} {text inner after : Text} {texts : List Text}

/-! ## The end of a list -/

/-- A list ends at the first parenthesis before which everything is closed. -/
theorem enclosed?_eq_some_iff :
    enclosed? nesting text = some (inner, after) ↔ text = inner ++ ')' :: after ∧ nesting.Closes inner := by
  induction text generalizing nesting inner with
  | nil => simp [enclosed?]
  | cons c rest ih =>
    rw [enclosed?]
    by_cases hend : nesting = .top ∧ Text.isClosing c
    · rw [if_pos (by simp [hend])]
      obtain ⟨rfl, hclosing⟩ := hend
      by_cases hc : c = ')'
      · subst hc
        rw [if_pos (by rfl), Option.some_inj, Prod.mk.injEq]
        constructor
        · rintro ⟨rfl, rfl⟩
          exact ⟨rfl, Nesting.closes_nil.mpr rfl⟩
        · rintro ⟨hsplit, hcloses⟩
          rcases List.cons_eq_append_iff.mp hsplit with ⟨rfl, hhead⟩ | ⟨others, rfl, -⟩
          · exact ⟨rfl, (List.cons.inj hhead).2.symm⟩
          · exact absurd hcloses (Nesting.not_closes_top hclosing others)
      · rw [if_neg (by simpa using hc)]
        refine ⟨nofun, fun ⟨hsplit, hcloses⟩ => ?_⟩
        rcases List.cons_eq_append_iff.mp hsplit with ⟨rfl, hhead⟩ | ⟨others, rfl, -⟩
        · exact absurd (List.cons.inj hhead).1.symm hc
        · exact absurd hcloses (Nesting.not_closes_top hclosing others)
    · rw [if_neg (by simpa using hend), Option.map_eq_some_iff]
      constructor
      · rintro ⟨⟨others, after'⟩, hrest, heq⟩
        obtain ⟨rfl, rfl⟩ := Prod.mk.inj heq
        obtain ⟨rfl, hcloses⟩ := ih.mp hrest
        exact ⟨rfl, Nesting.closes_cons.mpr ⟨hend, hcloses⟩⟩
      · rintro ⟨hsplit, hcloses⟩
        rcases List.cons_eq_append_iff.mp hsplit with ⟨rfl, hhead⟩ | ⟨others, rfl, hrest⟩
        · obtain ⟨rfl, -⟩ := List.cons.inj hhead
          exact absurd ⟨Nesting.closes_nil.mp hcloses, rfl⟩ hend
        · exact ⟨(others, after), ih.mpr ⟨hrest, (Nesting.closes_cons.mp hcloses).2⟩, rfl⟩

/-- The number of bytes before the bracket that closes the first one of a text, which has to be a parenthesis. The
first one is counted as the others are, and a bracket that closes none of them ends the search. -/
def closingAt? (quoting : Quoting) (depth : Nat) : Text → Option Nat
  | [] => none
  | c :: rest =>
    let later depth := (closingAt? (quoting.step c) depth rest).map (c.utf8Size + ·)
    if quoting ≠ .outside then later depth
    else if Text.isOpening c then later (depth + 1)
    else if Text.isClosing c then
      match depth with
      | 0 => none
      | depth + 1 => if depth = 0 then (if c == ')' then some 0 else none) else later depth
    else later depth

/-- Inside of a list one more bracket is open than the list itself has opened. -/
theorem closingAt?_succ (nesting : Nesting) (text : Text) :
    closingAt? nesting.quoting (nesting.depth + 1) text =
      (enclosed? nesting text).map fun found => (utf8 found.1).length := by
  induction text generalizing nesting with
  | nil => rfl
  | cons c rest ih =>
    have hlater : (closingAt? (nesting.quoting.step c) ((nesting.step c).depth + 1) rest).map (c.utf8Size + ·) =
        ((enclosed? (nesting.step c) rest).map fun found => (c :: found.1, found.2)).map
          fun found => (utf8 found.1).length := by
      rw [show nesting.quoting.step c = (nesting.step c).quoting from rfl, ih, Option.map_map, Option.map_map]
      refine congrArg (Option.map · _) (funext fun found => ?_)
      simp [Text.utf8_cons]
    obtain ⟨quoting, depth⟩ := nesting
    rw [closingAt?, enclosed?]
    by_cases hquoting : quoting = .outside
    · subst hquoting
      by_cases hclosing : Text.isClosing c
      · have hopening := Text.Nesting.isOpening_of_isClosing hclosing
        cases depth with
        | zero =>
          by_cases hc : c = ')'
          · subst hc
            rfl
          · simp [hopening, hclosing, hc]
        | succ depth => simpa [Nesting.step, hopening, hclosing] using hlater
      · cases hopening : Text.isOpening c <;> simpa [Nesting.step, hopening, hclosing] using hlater
    · simpa [Nesting.step, hquoting] using hlater

/-- Counted from its own parenthesis on, a list ends at the same place. -/
theorem closingAt?_list (list : Text) :
    closingAt? .outside 0 ('(' :: list) =
      (enclosed? .top list).map fun found => (utf8 ('(' :: found.1)).length := by
  have hinside : closingAt? .outside 1 list = (enclosed? .top list).map fun found => (utf8 found.1).length :=
    closingAt?_succ .top list
  have hopen : closingAt? .outside 0 ('(' :: list) = (closingAt? .outside 1 list).map ('('.utf8Size + ·) := rfl
  rw [hopen, hinside, Option.map_map]
  refine congrArg (Option.map · _) (funext fun found => ?_)
  simp [Text.utf8_cons]

/-! ## Commas -/

theorem pieces_cons {c : Char} {rest piece : Text} {others : List Text} (hcomma : ¬(nesting = .top ∧ c = ','))
    (h : pieces (nesting.step c) rest = piece :: others) :
    pieces nesting (c :: rest) = (c :: piece) :: others := by
  rw [pieces, if_neg (by simpa using hcomma), h]

theorem pieces_of_item (h : nesting.Item text) : pieces nesting text = [text] := by
  induction text generalizing nesting with
  | nil => rfl
  | cons c rest ih =>
    obtain ⟨hc, hrest⟩ := Nesting.item_cons.mp h
    exact pieces_cons (fun htop => hc ⟨htop.1, .inr htop.2⟩) (ih hrest)

theorem pieces_append (h : nesting.Item text) (rest : Text) :
    pieces nesting (text ++ ',' :: rest) = text :: pieces .top rest := by
  induction text generalizing nesting with
  | nil =>
    cases Nesting.item_nil.mp h
    rfl
  | cons c text ih =>
    obtain ⟨hc, hrest⟩ := Nesting.item_cons.mp h
    exact pieces_cons (fun htop => hc ⟨htop.1, .inr htop.2⟩) (ih hrest)

/-- Arguments are what stands between the commas that join them. -/
theorem pieces_join (hne : texts ≠ []) (h : ∀ text ∈ texts, Nesting.top.Item text) :
    pieces .top (Text.join [','] texts) = texts := by
  induction texts with
  | nil => exact absurd rfl hne
  | cons first others ih =>
    have hfirst := h first List.mem_cons_self
    cases others with
    | nil => rw [Text.join_singleton, pieces_of_item hfirst]
    | cons second others =>
      rw [Text.join_cons_cons, List.singleton_append, pieces_append hfirst]
      exact congrArg (first :: ·) (ih (by simp) fun text htext => h text (List.mem_cons_of_mem _ htext))

/-- Cut at its commas, a text that closes everything gives arguments, of which only the first one closes what
was open before. -/
theorem exists_items (h : nesting.Closes text) :
    ∃ first others, pieces nesting text = first :: others ∧ nesting.Item first ∧
      (∀ other ∈ others, Nesting.top.Item other) ∧ Text.join [','] (first :: others) = text := by
  induction text generalizing nesting with
  | nil =>
    cases Nesting.closes_nil.mp h
    exact ⟨[], [], rfl, Nesting.item_nil.mpr rfl, nofun, rfl⟩
  | cons c rest ih =>
    obtain ⟨hclosing, hrest⟩ := Nesting.closes_cons.mp h
    obtain ⟨first, others, hpieces, hfirst, hothers, hjoin⟩ := ih hrest
    by_cases hcomma : nesting = .top ∧ c = ','
    · obtain ⟨rfl, rfl⟩ := hcomma
      refine ⟨[], first :: others, congrArg ([] :: ·) hpieces, Nesting.item_nil.mpr rfl, ?_, ?_⟩
      · exact List.forall_mem_cons.mpr ⟨hfirst, hothers⟩
      · rw [Text.join_cons_cons, hjoin]
        rfl
    · refine ⟨c :: first, others, pieces_cons hcomma hpieces, ?_, hothers, ?_⟩
      · exact Nesting.item_cons.mpr
          ⟨fun htop => htop.2.elim (fun hc => hclosing ⟨htop.1, hc⟩) fun hc => hcomma ⟨htop.1, hc⟩, hfirst⟩
      · rw [Text.join_cons_head, hjoin]

theorem closes_join (h : ∀ text ∈ texts, Nesting.top.Item text) :
    Nesting.top.Closes (Text.join [','] texts) := by
  induction texts with
  | nil => exact Nesting.closes_nil.mpr rfl
  | cons first others ih =>
    have hfirst := (h first List.mem_cons_self).toCloses
    cases others with
    | nil => rwa [Text.join_singleton]
    | cons second others =>
      rw [Text.join_cons_cons]
      refine hfirst.append (Nesting.closes_cons.mpr ⟨by decide, ?_⟩)
      exact ih fun text htext => h text (List.mem_cons_of_mem _ htext)

theorem closes_of_blank (h : Text.trim text = []) : Nesting.top.Closes text :=
  Nesting.closes_of_inert fun c hc => Text.inert_of_isWhiteSpace (Text.trim_eq_nil_iff.mp h c hc)

/-! ## Arguments -/

theorem mapM_eq_ok_iff {ε α β : Type} {f : α → Except ε β} {inputs : List α} {outputs : List β} :
    inputs.mapM f = .ok outputs ↔ List.Forall₂ (fun input output => f input = .ok output) inputs outputs := by
  induction inputs generalizing outputs with
  | nil =>
    rw [List.mapM_nil, List.forall₂_nil_left_iff]
    exact ⟨fun h => (Except.ok.inj h).symm, fun h => congrArg Except.ok h.symm⟩
  | cons input rest ih =>
    rw [List.mapM_cons, List.forall₂_cons_left_iff]
    constructor
    · intro h
      cases hinput : f input with
      | error e => rw [hinput] at h; cases h
      | ok output =>
        cases hrest : rest.mapM f with
        | error e => rw [hinput, hrest] at h; cases h
        | ok others =>
          rw [hinput, hrest] at h
          exact ⟨output, others, rfl, ih.mp hrest, (Except.ok.inj h).symm⟩
    · rintro ⟨output, others, hinput, hrest, rfl⟩
      rw [hinput, ih.mpr hrest]
      rfl

/-! ## Signatures -/

/-- What stands after the name of a signature. -/
inductive Form where
  /-- A colon with white space around it. -/
  | colon (text : Text)
  /-- Parentheses around white space, and what follows them. -/
  | blank (inner trailer : Text)
  /-- Parentheses around arguments, and what follows them. -/
  | list (arguments : List Text) (trailer : Text)

namespace Form

def toText : Form → Text
  | colon text => text
  | blank inner trailer => '(' :: (inner ++ ')' :: trailer)
  | list arguments trailer => '(' :: (Text.join [','] arguments ++ ')' :: trailer)

/-- The form follows the grammar and its arguments have these tokens. -/
def Gives (location : Location) (tokens : List Token) : Form → Prop
  | colon text => Text.trim text = [':'] ∧ tokens = []
  | blank inner trailer =>
    (Text.trim trailer = [] ∨ Text.trim trailer = [':']) ∧ Text.trim inner = [] ∧ tokens = []
  | list arguments trailer =>
    (Text.trim trailer = [] ∨ Text.trim trailer = [':']) ∧ arguments ≠ [] ∧
      (∀ argument ∈ arguments, Nesting.top.Item argument) ∧
      ∃ lists, List.Forall₂ (fun argument list => Argument.tokens location (Text.trim argument) = .ok list)
        arguments lists ∧ tokens = lists.flatten

end Form

/-- A text as the longest name at its start and a form. -/
structure Parses (location : Location) (text name : Text) (form : Form) (tokens : List Token) : Prop where
  text_eq : text = name ++ form.toText
  isName : Text.isName name
  longest : ∀ c ∈ form.toText.head?, ¬Text.isNameChar c
  gives : form.Gives location tokens

section

variable {location : Location} {name trailer : Text} {form form' : Form} {tokens tokens' : List Token}

theorem trim_paren_ne_colon (rest : Text) : Text.trim ('(' :: rest) ≠ [':'] := by
  have hhead : (Text.trim ('(' :: rest)).head? = some '(' := by
    have hstart : Text.trimStart ('(' :: rest) = ['('] ++ rest := List.dropWhile_cons_of_neg (by decide)
    have hlast : ∀ c ∈ ['('].getLast?, ¬Text.isWhiteSpace c := by
      rintro c ⟨⟩
      decide
    rw [Text.trim, hstart, Text.trimEnd, Text.dropEndWhile_append_right hlast]
    rfl
  intro h
  rw [h] at hhead
  cases hhead

/-- No argument is blank, so a list with arguments is not. -/
theorem trim_join_ne_nil {lists : List (List Token)} (hne : texts ≠ [])
    (h : List.Forall₂ (fun text list => Argument.tokens location (Text.trim text) = .ok list) texts lists) :
    Text.trim (Text.join [','] texts) ≠ [] := by
  obtain ⟨first, others, rfl⟩ := List.exists_cons_of_ne_nil hne
  obtain ⟨list, -, hfirst, -, -⟩ := List.forall₂_cons_left_iff.mp h
  intro hblank
  have hfirst' : Text.trim first = [] :=
    Text.trim_eq_nil_iff.mpr fun c hc =>
      Text.trim_eq_nil_iff.mp hblank c (Text.mem_join_of_mem List.mem_cons_self hc)
  rw [hfirst'] at hfirst
  cases hfirst

theorem listTokens_eq_ok (hcloses : Nesting.top.Closes inner) (h : listTokens location inner = .ok tokens) :
    Text.trim inner = [] ∧ tokens = [] ∨
      ∃ arguments lists, arguments ≠ [] ∧ (∀ argument ∈ arguments, Nesting.top.Item argument) ∧
        List.Forall₂ (fun argument list => Argument.tokens location (Text.trim argument) = .ok list)
          arguments lists ∧ Text.join [','] arguments = inner ∧ tokens = lists.flatten := by
  rw [listTokens] at h
  split at h
  · rename_i hblank
    exact .inl ⟨by simpa using hblank, (Except.ok.inj h).symm⟩
  · obtain ⟨first, others, hpieces, hfirst, hothers, hjoin⟩ := exists_items hcloses
    rw [hpieces] at h
    cases hlists : (first :: others).mapM fun piece => Argument.tokens location (Text.trim piece) with
    | error e => rw [hlists] at h; cases h
    | ok lists =>
      rw [hlists] at h
      exact .inr ⟨first :: others, lists, by simp, List.forall_mem_cons.mpr ⟨hfirst, hothers⟩,
        mapM_eq_ok_iff.mp hlists, hjoin, (Except.ok.inj h).symm⟩

/-- A form with parentheses is what the text between them and after them makes of it. -/
theorem Form.Gives.eq_of_toText (h : form.Gives location tokens) {list : Text} (hlist : form.toText = '(' :: list) :
    ∃ inner trailer, enclosed? .top list = some (inner, trailer) ∧
      (Text.trim trailer = [] ∨ Text.trim trailer = [':']) ∧ listTokens location inner = .ok tokens ∧
      form = if Text.trim inner = [] then .blank inner trailer else .list (pieces .top inner) trailer := by
  cases form with
  | colon text =>
    cases hlist
    exact absurd h.1 (trim_paren_ne_colon list)
  | blank inner trailer =>
    obtain ⟨htrailer, hblank, rfl⟩ := h
    cases hlist
    refine ⟨inner, trailer, enclosed?_eq_some_iff.mpr ⟨rfl, closes_of_blank hblank⟩, htrailer, ?_, ?_⟩
    · rw [listTokens, if_pos (by rw [hblank]; rfl)]
    · rw [if_pos hblank]
  | list arguments trailer =>
    obtain ⟨htrailer, hne, hitems, lists, hlists, rfl⟩ := h
    have hblank := trim_join_ne_nil hne hlists
    have hpieces := pieces_join hne hitems
    cases hlist
    refine ⟨_, trailer, enclosed?_eq_some_iff.mpr ⟨rfl, closes_join hitems⟩, htrailer, ?_, ?_⟩
    · rw [listTokens, if_neg (by simpa using hblank), hpieces, mapM_eq_ok_iff.mpr hlists]
      rfl
    · rw [if_neg hblank, hpieces]

/-- A text is the text of one form at most. -/
theorem Form.Gives.unique (h : form.Gives location tokens) (h' : form'.Gives location tokens')
    (heq : form.toText = form'.toText) : form = form' := by
  by_cases hparen : ∃ list, form.toText = '(' :: list
  · obtain ⟨list, hlist⟩ := hparen
    obtain ⟨inner, trailer, henclosed, -, -, hform⟩ := h.eq_of_toText hlist
    obtain ⟨inner', trailer', henclosed', -, -, hform'⟩ := h'.eq_of_toText (heq ▸ hlist)
    cases henclosed.symm.trans henclosed'
    rw [hform, hform']
  · cases form with
    | blank inner trailer => exact absurd ⟨_, rfl⟩ hparen
    | list arguments trailer => exact absurd ⟨_, rfl⟩ hparen
    | colon text =>
      cases form' with
      | colon text' => exact congrArg colon heq
      | blank inner trailer => exact absurd ⟨_, heq⟩ hparen
      | list arguments trailer => exact absurd ⟨_, heq⟩ hparen

theorem Parses.spanName_eq (h : Parses location text name form tokens) :
    Text.spanName text = (name, form.toText) := by
  rw [h.text_eq, Text.spanName_append h.isName h.longest]

theorem Parses.read_eq (h : Parses location text name form tokens) :
    read location text = .ok (name, tokens) := by
  have hspan := h.spanName_eq
  have hname : ¬name.isEmpty := by
    have hname := h.isName
    cases name with
    | nil => cases hname
    | cons => exact Bool.false_ne_true
  have hgives := h.gives
  rw [read, hspan]
  simp only [hname, Bool.false_eq_true, if_false]
  generalize htext : form.toText = rest
  by_cases hcolon : Text.trim rest = [':']
  · rw [if_pos hcolon]
    cases form with
    | colon text => rw [hgives.2]
    | blank inner trailer => exact absurd hcolon (htext ▸ trim_paren_ne_colon _)
    | list arguments trailer => exact absurd hcolon (htext ▸ trim_paren_ne_colon _)
  · rw [if_neg hcolon]
    have hparen : ∃ list, rest = '(' :: list := by
      cases form with
      | colon text =>
        cases htext
        exact absurd hgives.1 hcolon
      | blank inner trailer => exact ⟨_, htext.symm⟩
      | list arguments trailer => exact ⟨_, htext.symm⟩
    obtain ⟨list, rfl⟩ := hparen
    obtain ⟨inner, trailer, henclosed, htrailer, hlist, -⟩ := hgives.eq_of_toText htext
    simp only [henclosed, if_pos htrailer, hlist]
    rfl

theorem read_eq_ok (h : read location text = .ok (name, tokens)) :
    ∃ rest, text = name ++ rest ∧ Text.isName name ∧ (∀ c ∈ rest.head?, ¬Text.isNameChar c) ∧
      (Text.trim rest = [':'] ∧ tokens = [] ∨
        ∃ list inner trailer, rest = '(' :: list ∧ enclosed? .top list = some (inner, trailer) ∧
          (Text.trim trailer = [] ∨ Text.trim trailer = [':']) ∧ listTokens location inner = .ok tokens) := by
  have hsplit := Text.spanName_append_eq text
  have hspan := @Text.isName_spanName text
  rw [read] at h
  generalize Text.spanName text = span at hsplit hspan h
  obtain ⟨found, rest⟩ := span
  simp only at hsplit hspan h
  split at h
  · cases h
  · rename_i hne
    obtain ⟨hname, hlongest⟩ := hspan (by simpa using hne)
    split at h
    · rename_i hcolon
      cases h
      exact ⟨rest, hsplit.symm, hname, hlongest, .inl ⟨hcolon, rfl⟩⟩
    · split at h
      · rename_i list _
        split at h
        · cases h
        · rename_i inner trailer henclosed
          split at h
          · rename_i htrailer
            cases hlist : listTokens location inner with
            | error e => rw [hlist] at h; cases h
            | ok found =>
              rw [hlist] at h
              cases h
              exact ⟨_, hsplit.symm, hname, hlongest, .inr ⟨list, inner, trailer, rfl, henclosed, htrailer, hlist⟩⟩
          · cases h
      · cases h

theorem exists_parses (h : read location text = .ok (name, tokens)) :
    ∃ form, Parses location text name form tokens := by
  obtain ⟨rest, htext, hname, hlongest, hrest⟩ := read_eq_ok h
  rcases hrest with ⟨hcolon, rfl⟩ | ⟨list, inner, trailer, rfl, henclosed, htrailer, hlist⟩
  · exact ⟨.colon rest, htext, hname, hlongest, hcolon, rfl⟩
  · obtain ⟨rfl, hcloses⟩ := enclosed?_eq_some_iff.mp henclosed
    rcases listTokens_eq_ok hcloses hlist with
      ⟨hblank, rfl⟩ | ⟨arguments, lists, harguments, hitems, hlists, rfl, rfl⟩
    · exact ⟨.blank inner trailer, htext, hname, hlongest, htrailer, hblank, rfl⟩
    · exact ⟨.list arguments trailer, htext, hname, hlongest, htrailer, harguments, hitems, lists, hlists, rfl⟩

end

/-- A text reads as a name with tokens if and only if it is that name, the longest one at its start, and then a
form with these tokens; name, form and tokens are unique. -/
theorem read_eq_ok_iff_form (location : Location) (text : Text) :
    (∀ name tokens, read location text = .ok (name, tokens) ↔ ∃ form, Parses location text name form tokens) ∧
      ∀ name form tokens name' form' tokens', Parses location text name form tokens →
        Parses location text name' form' tokens' → name = name' ∧ form = form' ∧ tokens = tokens' := by
  refine ⟨fun name tokens => ⟨exists_parses, fun ⟨form, h⟩ => h.read_eq⟩, ?_⟩
  intro name form tokens name' form' tokens' h h'
  obtain ⟨rfl, htext⟩ := Prod.mk.inj (h.spanName_eq.symm.trans h'.spanName_eq)
  have hread : Except.ok (name, tokens) = (Except.ok (name, tokens') : Except TokenError _) :=
    h.read_eq.symm.trans h'.read_eq
  cases hread
  exact ⟨rfl, h.gives.unique h'.gives htext, rfl⟩

-- Brackets of any kind close each other, and those in quotes do not count.
example : read ⟨['f'], 1⟩ "m([1, (2]], \"a, )\"):".toList =
    .ok (['m'], [⟨.literal, "[1, (2]]".toList, ⟨['f'], 1⟩⟩, ⟨.literal, "\"a, )\"".toList, ⟨['f'], 1⟩⟩]) := by
  decide +kernel

end Signature

end Scl
