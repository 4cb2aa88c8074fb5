import Scl.Proofs.Forest.Layout

/-!
# Forests without some leaves

A leaf that is not the only child of its parent can be left out of a forest, and no other node becomes a leaf:

* `prune`: the forest without the nodes of a kind;
* `Spare`: the nodes of the kind are leaves, and none of them is an only child;
* `prune_layout`: what is left is the layout of the other nodes;
* `Spare.pruned`: what is left has the same parents.
-/

namespace Scl.Forest

variable {α β : Type} {p : α → Bool} {rank : α → Nat} {forest : Forest α}

/-- The forest without the nodes that satisfy `p` and what is below them. -/
def prune (p : α → Bool) : Forest α → Forest α
  | nil => nil
  | cons root below next => if p root then next.prune p else cons root (below.prune p) (next.prune p)

theorem prune_cons_of_pos {root : α} (h : p root) (below next : Forest α) :
    (cons root below next).prune p = next.prune p :=
  if_pos h

theorem prune_cons_of_neg {root : α} (h : ¬p root) (below next : Forest α) :
    (cons root below next).prune p = cons root (below.prune p) (next.prune p) :=
  if_neg h

/-- The nodes that satisfy `p` are leaves, and none of them is the only child of its parent. -/
structure Spare (p : α → Bool) (forest : Forest α) : Prop where
  leaf {node : α} {below : Forest α} : forest.Has node below → p node → below = nil
  notOnly {parent node : α} {below : Forest α} : forest.Has parent below → below.heads = [node] → ¬p node

section

variable {root : α} {below next : Forest α} (h : (cons root below next).Spare p)

include h

theorem Spare.inside : below.Spare p :=
  ⟨fun hhas => h.leaf (.inside hhas), fun hhas => h.notOnly (.inside hhas)⟩

theorem Spare.later : next.Spare p :=
  ⟨fun hhas => h.leaf (.later hhas), fun hhas => h.notOnly (.later hhas)⟩

theorem Spare.below_eq_nil (hroot : p root) : below = nil :=
  h.leaf .here hroot

end

theorem spare_nil : (nil : Forest α).Spare p :=
  ⟨nofun, nofun⟩

theorem spare_cons_iff {root : α} {below next : Forest α} :
    (cons root below next).Spare p ↔ (p root → below.isEmpty) ∧
      (∀ node ∈ below.heads, below.heads.length = 1 → ¬p node) ∧ below.Spare p ∧ next.Spare p := by
  have hempty : below.isEmpty ↔ below = nil := by cases below <;> simp [isEmpty]
  have honly : ∀ node, below.heads = [node] ↔ node ∈ below.heads ∧ below.heads.length = 1 := by
    intro node
    refine ⟨fun h => by simp [h], fun ⟨hmem, hlength⟩ => ?_⟩
    obtain ⟨only, heq⟩ := List.length_eq_one_iff.mp hlength
    rw [heq, List.mem_singleton] at hmem
    rw [heq, hmem]
  constructor
  · intro h
    refine ⟨fun hroot => hempty.mpr (h.below_eq_nil hroot), fun node hmem hlength => ?_, h.inside, h.later⟩
    exact h.notOnly .here ((honly node).mpr ⟨hmem, hlength⟩)
  · rintro ⟨hroot, hheads, hbelow, hnext⟩
    constructor
    · intro node below' hhas hnode
      cases hhas with
      | here => exact hempty.mp (hroot hnode)
      | inside hhas => exact hbelow.leaf hhas hnode
      | later hhas => exact hnext.leaf hhas hnode
    · intro parent node below' hhas heq
      cases hhas with
      | here => exact hheads node ((honly node).mp heq).1 ((honly node).mp heq).2
      | inside hhas => exact hbelow.notOnly hhas heq
      | later hhas => exact hnext.notOnly hhas heq

instance decidableSpare (p : α → Bool) : (forest : Forest α) → Decidable (forest.Spare p)
  | nil => isTrue spare_nil
  | cons _ below next =>
    have := decidableSpare p below
    have := decidableSpare p next
    decidable_of_iff _ spare_cons_iff.symm

/-! ## Layouts -/

theorem preorder_prune (h : forest.Spare p) : (forest.prune p).preorder = forest.preorder.filter (!p ·) := by
  induction forest with
  | nil => rfl
  | cons root below next ihBelow ihNext =>
    by_cases hroot : p root
    · rw [prune_cons_of_pos hroot, ihNext h.later, h.below_eq_nil hroot, preorder,
        List.filter_cons_of_neg (by simpa using hroot)]
      rfl
    · rw [prune_cons_of_neg hroot, preorder, preorder, ihBelow h.inside, ihNext h.later,
        List.filter_cons_of_pos (by simpa using hroot), List.filter_append]

theorem heads_prune (p : α → Bool) (forest : Forest α) : (forest.prune p).heads = forest.heads.filter (!p ·) := by
  induction forest with
  | nil => rfl
  | cons root below next _ ihNext =>
    by_cases hroot : p root
    · rw [prune_cons_of_pos hroot, ihNext, heads, List.filter_cons_of_neg (by simpa using hroot)]
    · rw [prune_cons_of_neg hroot, heads, heads, ihNext, List.filter_cons_of_pos (by simpa using hroot)]

theorem Ranked.prune (hranked : Ranked rank forest) (h : forest.Spare p) : Ranked rank (forest.prune p) := by
  induction hranked with
  | nil => exact .nil
  | @cons root below next deeper beside _ _ ihBelow ihNext =>
    by_cases hroot : p root
    · rw [prune_cons_of_pos hroot]
      exact ihNext h.later
    · rw [prune_cons_of_neg hroot]
      refine .cons (fun node hnode => ?_) (fun node hnode => ?_) (ihBelow h.inside) (ihNext h.later)
      · rw [preorder_prune h.inside] at hnode
        exact deeper node (List.mem_of_mem_filter hnode)
      · rw [heads_prune] at hnode
        exact beside node (List.mem_of_mem_filter hnode)

/-- Without spare nodes a layout is that of the other nodes. -/
theorem prune_layout {nodes : List α} (h : (layout rank nodes).Spare p) :
    (layout rank nodes).prune p = layout rank (nodes.filter (!p ·)) := by
  have hranked := (ranked_layout rank nodes).prune h
  rw [← layout_preorder hranked, preorder_prune h, preorder_layout]

/-! ## Forests that differ in leaves -/

/-- The same forests but for some more leaves of a kind in the first one, where the same nodes have nothing below
them. -/
inductive Pruned (P : α → Prop) : Forest α → Forest α → Prop
  | nil : Pruned P nil nil
  | cons {root : α} {below below' next next' : Forest α} : below.isEmpty = below'.isEmpty → Pruned P below below' →
    Pruned P next next' → Pruned P (cons root below next) (cons root below' next')
  | leaf {root : α} {next next' : Forest α} : P root → Pruned P next next' → Pruned P (cons root nil next) next'

theorem Pruned.refl (P : α → Prop) (forest : Forest α) : Pruned P forest forest := by
  induction forest with
  | nil => exact .nil
  | cons root below next ihBelow ihNext => exact .cons rfl ihBelow ihNext

/-- If only one node satisfies `p`, then its parent keeps other children. -/
theorem isEmpty_prune (hsingle : forest.preorder.Pairwise fun node other => ¬(p node ∧ p other))
    (h : ∀ node, forest.heads = [node] → ¬p node) : forest.isEmpty = (forest.prune p).isEmpty := by
  cases forest with
  | nil => rfl
  | cons root below next =>
    by_cases hroot : p root
    · rw [prune_cons_of_pos hroot]
      cases next with
      | nil => exact absurd hroot (h root rfl)
      | cons second below' next =>
        have hsecond : ¬p second := by
          obtain ⟨hfirst, -⟩ := List.pairwise_cons.mp hsingle
          have hmem : second ∈ below.preorder ++ (cons second below' next).preorder :=
            List.mem_append_right _ List.mem_cons_self
          exact fun hsecond => hfirst second hmem ⟨hroot, hsecond⟩
        rw [prune_cons_of_neg hsecond]
        rfl
    · rw [prune_cons_of_neg hroot]
      rfl

theorem Spare.pruned {P : α → Prop} (h : forest.Spare p)
    (hsingle : forest.preorder.Pairwise fun node other => ¬(p node ∧ p other))
    (hP : ∀ node ∈ forest.preorder, p node → P node) : Pruned P forest (forest.prune p) := by
  induction forest with
  | nil => exact .nil
  | cons root below next ihBelow ihNext =>
    obtain ⟨hbelow, hnext, -⟩ := List.pairwise_append.mp (List.pairwise_cons.mp hsingle).2
    rw [preorder, List.forall_mem_cons, List.forall_mem_append] at hP
    by_cases hroot : p root
    · rw [prune_cons_of_pos hroot, h.below_eq_nil hroot]
      exact .leaf (hP.1 hroot) (ihNext h.later hnext hP.2.2)
    · rw [prune_cons_of_neg hroot]
      exact .cons (isEmpty_prune hbelow fun node hheads => h.notOnly .here hheads) (ihBelow h.inside hbelow hP.2.1)
        (ihNext h.later hnext hP.2.2)

/-! ## Forests of the same shape -/

variable {R : α → β → Prop} {forest' : Forest β}

theorem Rel.heads (h : Rel R forest forest') : List.Forall₂ R forest.heads forest'.heads := by
  induction h with
  | nil => exact .nil
  | cons hroot _ _ _ ihNext => exact .cons hroot ihNext

theorem Rel.has (h : Rel R forest forest') {node' : β} {below' : Forest β} (hhas : forest'.Has node' below') :
    ∃ node below, forest.Has node below ∧ R node node' ∧ Rel R below below' := by
  induction h with
  | nil => cases hhas
  | cons hroot hbelow _ ihBelow ihNext =>
    cases hhas with
    | here => exact ⟨_, _, .here, hroot, hbelow⟩
    | inside hhas =>
      obtain ⟨node, below, hhas, hrel⟩ := ihBelow hhas
      exact ⟨node, below, .inside hhas, hrel⟩
    | later hhas =>
      obtain ⟨node, below, hhas, hrel⟩ := ihNext hhas
      exact ⟨node, below, .later hhas, hrel⟩

theorem Spare.of_rel {q : β → Bool} (h : forest.Spare p) (hrel : Rel R forest forest')
    (hpq : ∀ node node', R node node' → p node = q node') : forest'.Spare q := by
  constructor
  · intro node' below' hhas' hnode'
    obtain ⟨node, below, hhas, hnode, hbelow⟩ := hrel.has hhas'
    rw [← hpq node node' hnode] at hnode'
    rw [h.leaf hhas hnode'] at hbelow
    cases hbelow
    rfl
  · intro parent' node' below' hhas' hheads' hnode'
    obtain ⟨parent, below, hhas, -, hbelow⟩ := hrel.has hhas'
    have hheads := hbelow.heads
    rw [hheads', List.forall₂_cons_right_iff] at hheads
    obtain ⟨node, rest, hnode, hrest, hbelow⟩ := hheads
    rw [List.forall₂_nil_right_iff.mp hrest] at hbelow
    rw [← hpq node node' hnode] at hnode'
    exact h.notOnly hhas hbelow hnode'

end Scl.Forest
