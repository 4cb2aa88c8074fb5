import Scl.Proofs.Expansion.Success

/-!
# The shape of output

Output can be decoded if none of its lines is a bare header, and only bare headers stand over blocks without a
body. Lines are always of that kind. A block is either the leaf of a header, or it comes from a literal with lines
below it, and then nothing keeps its body from being empty:

* `Environment.Opens`: a literal with lines below it, which becomes a block;
* `Expansion.emits_of_expand`: each block of an output is the leaf of a header, or is opened at a point that the
  expansion reaches;
* `Environment.Yields.of_reaches`: whatever is opened at such a point is a block of the output;
* `expandFile_shaped`: so the blocks that cannot be decoded are those opened over lines without output.
-/

namespace Scl

/-! ## Lines and blocks -/

namespace Output

/-- The texts of all lines, at any depth. -/
def texts : Output → List Text
  | nil => []
  | line text next => text :: next.texts
  | block _ body next => body.texts ++ next.texts

/-- All blocks, at any depth, as headers with bodies. -/
def blocks : Output → List (Text × Output)
  | nil => []
  | line _ next => next.blocks
  | block header body next => (header, body) :: (body.blocks ++ next.blocks)

/-- No line is a header, and every block without a body has one. -/
def Shaped (output : Output) : Prop :=
  (∀ text ∈ output.texts, isHeader text = false) ∧ ∀ block ∈ output.blocks, block.2 = nil → isHeader block.1

instance (output : Output) : Decidable output.Shaped :=
  inferInstanceAs (Decidable (_ ∧ _))

theorem texts_append (first second : Output) : (first ++ second).texts = first.texts ++ second.texts := by
  induction first with
  | nil => rfl
  | line text next ih => exact congrArg (text :: ·) ih
  | block header body next _ ih =>
    show body.texts ++ (next ++ second).texts = body.texts ++ next.texts ++ second.texts
    rw [ih, List.append_assoc]

theorem blocks_append (first second : Output) : (first ++ second).blocks = first.blocks ++ second.blocks := by
  induction first with
  | nil => rfl
  | line text next ih => exact ih
  | block header body next _ ih =>
    show (header, body) :: (body.blocks ++ (next ++ second).blocks) = _
    rw [ih, ← List.append_assoc]
    rfl

end Output

/-! ## Where blocks come from -/

namespace Environment

open Expansion
open Output (isHeader)

variable (env : Environment)

/-- At a point stands a literal with lines below it, which becomes a block. -/
inductive Opens : Point → Text → Output → Prop
  | literal {above : List Line} {line : Line} {below next : Forest Line} {id : Nat} {scopes : Scopes}
    {text header : Text} {body : Output} : line.statement = .ok (.literal text) → below.isEmpty = false →
    scopes.fill id text = .ok header →
    env.Yields ⟨[], below, scopes.count, scopes.enter env.inheritance id⟩ body →
    Opens ⟨above, .cons line below next, id, scopes⟩ header body

/-- No line is a header, and every block is the leaf of a header or opened at a point that is reached. -/
structure Emits (start : Point) (output : Output) : Prop where
  text : ∀ text ∈ output.texts, isHeader text = false
  block : ∀ block ∈ output.blocks,
    (isHeader block.1 ∧ block.2 = .nil) ∨ ∃ p, env.Reaches start p ∧ env.Opens p block.1 block.2

end Environment

namespace Environment.Emits

open Output (isHeader)

variable {env : Environment} {p q : Point} {output : Output}

theorem nil (p : Point) : env.Emits p .nil :=
  ⟨nofun, nofun⟩

theorem append {first second : Output} (h : env.Emits p first) (h' : env.Emits p second) :
    env.Emits p (first ++ second) := by
  constructor
  · intro text htext
    rw [Output.texts_append, List.mem_append] at htext
    exact htext.elim (h.text text) (h'.text text)
  · intro block hblock
    rw [Output.blocks_append, List.mem_append] at hblock
    exact hblock.elim (h.block block) (h'.block block)

theorem of_step (hstep : env.Step p q) (h : env.Emits q output) : env.Emits p output := by
  refine ⟨h.text, fun block hblock => (h.block block hblock).imp_right ?_⟩
  rintro ⟨point, hreaches, hopens⟩
  exact ⟨point, .head hstep hreaches, hopens⟩

theorem line (p : Point) {text : Text} (h : isHeader text = false) : env.Emits p (.line text .nil) :=
  ⟨List.forall_mem_singleton.mpr h, nofun⟩

theorem leaf (p : Point) (text : Text) : env.Emits p (.leaf text) := by
  cases h : isHeader text with
  | false =>
    rw [Output.leaf, h]
    exact line p h
  | true =>
    rw [Output.leaf, h]
    exact ⟨nofun, List.forall_mem_singleton.mpr (.inl ⟨h, rfl⟩)⟩

theorem opened {header : Text} {body : Output} (hopens : env.Opens p header body) (h : env.Emits p body) :
    env.Emits p (.block header body .nil) := by
  constructor
  · intro text htext
    rw [Output.texts, Output.texts, List.append_nil] at htext
    exact h.text text htext
  · intro block hblock
    rw [Output.blocks, Output.blocks, List.append_nil, List.mem_cons] at hblock
    obtain rfl | hblock := hblock
    · exact .inr ⟨p, .refl, hopens⟩
    · exact h.block block hblock

end Environment.Emits

namespace Expansion

open Environment
open Output (isHeader)

variable {env : Environment} {depth : Nat} {run : Expander} {above : List Line} {line : Line}
  {below next : Forest Line} {id : Nat} {scopes after : Scopes} {output : Output} {p q : Point}

/-! ## What is written -/

/-- The line of an assignment has an equals sign. -/
theorem isHeader_assignment (name value : Text) : isHeader (name ++ [' ', '=', ' '] ++ value) = false := by
  simp [isHeader]

theorem emits_of_expandLine
    (hrun : ∀ {forest id scopes output after}, env.expand depth forest id scopes = some (.ok output, after) →
      env.Emits ⟨[], forest, id, scopes⟩ output)
    (hinside : ∀ {id scopes output after},
      env.expandForest (env.expand depth) [] below id scopes = some (.ok output, after) →
      env.Emits ⟨[], below, id, scopes⟩ output)
    (h : env.expandLine (env.expand depth) (env.expandForest (env.expand depth) [] below) above line below id
      scopes = some (.ok output, after)) : env.Emits ⟨above, .cons line below next, id, scopes⟩ output := by
  rw [expandLine_eq] at h
  match hline : line.statement with
  | .error error =>
    rw [hline] at h
    cases h
  | .ok (.comment text) =>
    rw [hline] at h
    exact .of_step (.inl (.comment hline)) (hinside h)
  | .ok (.literal text) =>
    rw [hline] at h
    obtain ⟨filled, between, hask, hblock⟩ := bind_eq_ok h
    obtain ⟨hfilled, rfl⟩ := ask_eq_ok hask
    split at hblock
    · cases hblock
      exact .leaf _ filled
    · rename_i hbelow
      obtain ⟨body, last, hscope, hpure⟩ := bind_eq_ok hblock
      cases hpure
      obtain ⟨inner, hbody, -⟩ := inScope_eq_some hscope
      have hopens : env.Opens ⟨above, .cons line below next, id, between⟩ filled body :=
        .literal hline (Bool.eq_false_iff.mpr hbelow) hfilled ⟨depth, inner, hbody⟩
      exact .opened hopens (.of_step (.inl (.block hline hfilled)) (hinside hbody))
  | .ok (.assignment name value) =>
    rw [hline] at h
    simp only [assignment] at h
    split at h
    · cases h
    · obtain ⟨filled, between, -, hpure⟩ := bind_eq_ok h
      cases hpure
      exact .line _ (isHeader_assignment name filled)
  | .ok (.declaration name arguments) =>
    rw [hline] at h
    obtain ⟨parameters, between, -, hpure⟩ := bind_eq_ok h
    cases hpure
    exact .nil _
  | .ok (.call name arguments) =>
    rw [hline] at h
    by_cases hname : name = importName
    · subst hname
      obtain ⟨rfl, paths, hresolves, hall⟩ := expandImport_eq_ok hline (by simpa using h)
      refine expandAll_induction (.nil _) .append (fun hsplit hbefore hload hforest => ?_) hall
      subst hsplit
      exact .of_step (.inr ⟨line, .file hresolves hbefore hload⟩) (hrun hforest)
    · simp only [hname, if_false] at h
      obtain ⟨rfl, mixin, bound, last, hinvokes, hbody⟩ := expandCall_eq_ok hline hname h
      exact .of_step (.inr ⟨line, .call hinvokes⟩) (hrun hbody)

theorem emits_of_expandForest
    (hrun : ∀ {forest id scopes output after}, env.expand depth forest id scopes = some (.ok output, after) →
      env.Emits ⟨[], forest, id, scopes⟩ output) {forest : Forest Line}
    (h : env.expandForest (env.expand depth) above forest id scopes = some (.ok output, after)) :
    env.Emits ⟨above, forest, id, scopes⟩ output := by
  induction forest generalizing above id scopes output after with
  | nil =>
    cases h
    exact .nil _
  | cons line below next ihBelow ihNext =>
    obtain ⟨here, between, hline, hrest⟩ := bind_eq_ok h
    obtain ⟨rest, last, hnext, hpure⟩ := bind_eq_ok hrest
    cases hpure
    exact .append (emits_of_expandLine hrun ihBelow hline) (.of_step (.inl (.next ⟨depth, here, hline⟩)) (ihNext hnext))

theorem emits_of_expand {forest : Forest Line} (h : env.expand depth forest id scopes = some (.ok output, after)) :
    env.Emits ⟨[], forest, id, scopes⟩ output := by
  induction depth generalizing forest id scopes output after with
  | zero => cases h
  | succ depth ih => exact emits_of_expandForest ih h

end Expansion

/-! ## What is reached -/

namespace Environment

open Expansion

variable {env : Environment} {p q : Point} {line : Line} {id : Nat} {scopes : Scopes} {output : Output}

namespace Yields

/-- The blocks from the next point on are among those from this one on. -/
theorem of_advance (hadvance : env.Advance p q) (h : env.Yields p output) :
    ∃ inner, env.Yields q inner ∧ inner.blocks ⊆ output.blocks := by
  cases hadvance with
  | next hpasses =>
    obtain ⟨depth, here, after, rest, hline, hrest, rfl⟩ := h.cons_inv
    -- The step may pass the line at another depth, but not with other scopes.
    obtain rfl := hpasses.unique ⟨depth, here, hline⟩
    exact ⟨rest, hrest, by rw [Output.blocks_append]; exact List.subset_append_right _ _⟩
  | comment hcomment =>
    obtain ⟨depth, here, after, rest, hline, -, rfl⟩ := h.cons_inv
    rw [expandLine_eq, hcomment] at hline
    exact ⟨here, ⟨depth, after, hline⟩, by rw [Output.blocks_append]; exact List.subset_append_left _ _⟩
  | @block above line below next id scopes text filled hliteral hfilled =>
    obtain ⟨depth, here, after, rest, hline, -, rfl⟩ := h.cons_inv
    rw [expandLine_eq, hliteral] at hline
    obtain ⟨header, between, hask, hblock⟩ := bind_eq_ok hline
    obtain ⟨-, rfl⟩ := ask_eq_ok hask
    cases below with
    | nil => exact ⟨.nil, ⟨0, _, rfl⟩, List.nil_subset _⟩
    | cons root inside others =>
      obtain ⟨body, last, hscope, hpure⟩ := bind_eq_ok hblock
      cases hpure
      obtain ⟨inner, hbody, -⟩ := inScope_eq_some hscope
      refine ⟨body, ⟨depth, inner, hbody⟩, fun block hmem => ?_⟩
      exact List.mem_cons_of_mem _ (List.mem_append_left _ hmem)

theorem of_enter (henter : env.Enter line p q) (h : env.Yields p output) :
    ∃ inner, env.Yields q inner ∧ inner.blocks ⊆ output.blocks := by
  cases henter with
  | call hinvokes =>
    obtain ⟨depth, here, after, rest, hline, -, rfl⟩ := h.cons_inv
    obtain ⟨name, arguments, -, -, hcall, hname, -⟩ := id hinvokes
    rw [expandLine_eq, hcall] at hline
    simp only [hname, if_false] at hline
    obtain ⟨-, mixin, bound, last, hinvokes', hbody⟩ := expandCall_eq_ok hcall hname hline
    obtain ⟨rfl, rfl⟩ := hinvokes.unique hinvokes'
    exact ⟨here, of_expand hbody, by rw [Output.blocks_append]; exact List.subset_append_left _ _⟩
  | file hresolves hbefore hload =>
    obtain ⟨depth, here, after, rest, hline, -, rfl⟩ := h.cons_inv
    obtain ⟨arguments, -, himport, -⟩ := id hresolves
    rw [expandLine_eq, himport] at hline
    simp only [if_true] at hline
    obtain ⟨-, paths, hresolves', hall⟩ := expandImport_eq_ok himport hline
    rw [← hresolves.unique hresolves', expandAll_append] at hall
    obtain ⟨first, between, hfirst, hothers⟩ := bind_eq_ok hall
    obtain ⟨others, last, hothers, hpure⟩ := bind_eq_ok hothers
    cases hpure
    obtain rfl := hbefore.unique ⟨depth, first, hfirst⟩
    rw [expandAll_cons hload] at hothers
    obtain ⟨inner, middle, hrun, hrest⟩ := bind_eq_ok hothers
    obtain ⟨more, last, -, hpure⟩ := bind_eq_ok hrest
    cases hpure
    refine ⟨inner, of_expand hrun, fun block hblock => ?_⟩
    simp only [Output.blocks_append, List.mem_append, hblock, true_or, or_true]

/-- Whatever is reached from a point with an output has an output, and its blocks are among those of the first. -/
theorem of_reaches (hreaches : env.Reaches p q) (h : env.Yields p output) :
    ∃ inner, env.Yields q inner ∧ inner.blocks ⊆ output.blocks := by
  induction hreaches with
  | refl => exact ⟨output, h, List.Subset.refl _⟩
  | tail _ hstep ih =>
    obtain ⟨between, hbetween, hsubset⟩ := ih
    obtain ⟨inner, hinner, hsubset'⟩ : ∃ inner, env.Yields _ inner ∧ inner.blocks ⊆ between.blocks := by
      obtain hadvance | ⟨line, henter⟩ := hstep
      · exact of_advance hadvance hbetween
      · exact of_enter henter hbetween
    exact ⟨inner, hinner, List.Subset.trans hsubset' hsubset⟩

theorem mem_blocks (h : env.Yields p output) {header : Text} {body : Output} (hopens : env.Opens p header body) :
    (header, body) ∈ output.blocks := by
  cases hopens with
  | literal hliteral hbelow hfilled hbody =>
    obtain ⟨depth, here, after, rest, hline, -, rfl⟩ := h.cons_inv
    rw [expandLine_eq, hliteral] at hline
    obtain ⟨header', between, hask, hblock⟩ := bind_eq_ok hline
    obtain ⟨hfilled', rfl⟩ := ask_eq_ok hask
    simp only [hbelow, Bool.false_eq_true, if_false] at hblock
    obtain ⟨body', last, hscope, hpure⟩ := bind_eq_ok hblock
    cases hpure
    obtain ⟨inner, hbody', -⟩ := inScope_eq_some hscope
    cases hfilled.symm.trans hfilled'
    obtain rfl := hbody.unique ⟨depth, inner, hbody'⟩
    exact List.mem_cons_self

end Yields

end Environment

/-- In the output of a file no line is a header. A block without a body that has no header comes from a literal whose
lines below have no output, and every such literal gives one. -/
theorem expandFile_shaped {env : Environment} {params : List (Text × Text)} {depth : Nat} {path : Text}
    {output : Output} (h : env.expandFile params depth path = some (.ok output)) :
    ∃ forest, env.files.load path = .ok forest ∧ (∀ text ∈ output.texts, Output.isHeader text = false) ∧
      ∀ header, Output.isHeader header = false → ((header, .nil) ∈ output.blocks ↔
        ∃ p, env.Reaches ⟨[], forest, Scopes.rootId, Scopes.ofParams params⟩ p ∧ env.Opens p header .nil) := by
  rw [Environment.expandFile] at h
  cases hload : env.files.load path with
  | error e =>
    rw [hload] at h
    cases h
  | ok forest =>
    rw [hload] at h
    obtain ⟨⟨result, after⟩, hexpand, rfl⟩ := Option.map_eq_some_iff.mp h
    have hemits := Expansion.emits_of_expand hexpand
    refine ⟨forest, rfl, hemits.text, fun header hheader => ⟨fun hblock => ?_, ?_⟩⟩
    · obtain ⟨hheader', -⟩ | hopens := hemits.block _ hblock
      · rw [hheader] at hheader'
        cases hheader'
      · exact hopens
    · rintro ⟨p, hreaches, hopens⟩
      obtain ⟨inner, hinner, hsubset⟩ := (Environment.Yields.of_expand hexpand).of_reaches hreaches
      exact hsubset (hinner.mem_blocks hopens)

/-- Below the literal in a mixin's body stand a comment and a declaration only. -/
theorem expandFile_shaped_silent :
    let source := "@m($v):\n  x = $v\n    // note\n    @n():\n      y\nb\n  m(1)\n".toList
    let files : Files := [("main.scl".toList, source)]
    let env : Environment := { files := files.system }
    let header : Text := "x = 1".toList
    env.expandFile [] 2 "main.scl".toList = some (.ok (.block ['b'] (.block header .nil .nil) .nil)) ∧
      Output.isHeader header = false ∧
      ∃ forest, env.files.load "main.scl".toList = .ok forest ∧
        ∃ p, env.Reaches ⟨[], forest, Scopes.rootId, Scopes.ofParams []⟩ p ∧ env.Opens p header .nil := by
  intro source files env header
  have h : env.expandFile [] 2 "main.scl".toList =
      some (.ok (.block ['b'] (.block header .nil .nil) .nil)) := by decide +kernel
  have hplain : Output.isHeader header = false := by decide +kernel
  obtain ⟨forest, hload, -, hblocks⟩ := expandFile_shaped h
  refine ⟨h, hplain, forest, hload, (hblocks header hplain).mp ?_⟩
  exact List.mem_cons_of_mem _ List.mem_cons_self

/-- An attribute over a comment becomes a block without a body. -/
theorem expandFile_not_shaped :
    let files : Files := [("main.scl".toList, "x = 1\n  // note\n".toList)]
    let env : Environment := { files := files.system }
    let output : Output := .block "x = 1".toList .nil .nil
    env.expandFile [] 1 "main.scl".toList = some (.ok output) ∧ output.render = "x = 1 \x7b\x7d".toList ∧
      ¬output.Shaped := by
  decide +kernel

end Scl
