import Mathlib.Data.List.Forall2
import Scl.Forest

/-!
# Forests laid out by rank

A forest is `Ranked` if what hangs below a node has a greater rank than the node, and what follows it at
the same level has no greater one. Layout makes such forests and no others:

* `ranked_layout`: every layout is ranked;
* `layout_preorder`: a ranked forest is the layout of its nodes;
* `layout_append`: the layout of two lists is that of one after that of the other, if the second starts
  with a node of least rank;
* `Rel.layout`: nodes of the same ranks make forests of the same shape;
* `Has.unique`: where no node comes twice, it has one forest below it.
-/

namespace Scl.Forest

variable {α β : Type} {rank : α → Nat}

/-- The roots of the trees, in order. -/
def heads : Forest α → List α
  | nil => []
  | cons root _ next => root :: next.heads

/-- Ranks grow downwards, and do not grow from a tree to the next one. -/
inductive Ranked (rank : α → Nat) : Forest α → Prop
  | nil : Ranked rank nil
  | cons {root : α} {below next : Forest α} (deeper : ∀ node ∈ below.preorder, rank root < rank node)
    (beside : ∀ node ∈ next.heads, rank node ≤ rank root) (ranked : Ranked rank below)
    (rest : Ranked rank next) : Ranked rank (cons root below next)

theorem mem_preorder_of_mem_heads {forest : Forest α} {node : α} (h : node ∈ forest.heads) :
    node ∈ forest.preorder := by
  induction forest with
  | nil => cases h
  | cons root below next _ ihNext =>
    rcases List.mem_cons.mp h with rfl | h
    · exact List.mem_cons_self
    · exact List.mem_cons_of_mem _ (List.mem_append_right _ (ihNext h))

/-- The roots of a ranked forest bound the ranks of all nodes from below. -/
theorem Ranked.le_rank {forest : Forest α} (h : Ranked rank forest) {least : Nat}
    (hheads : ∀ node ∈ forest.heads, least ≤ rank node) : ∀ node ∈ forest.preorder, least ≤ rank node := by
  induction h with
  | nil => exact nofun
  | @cons root below next deeper _ _ _ _ ihNext =>
    have hroot : least ≤ rank root := hheads root List.mem_cons_self
    intro node hnode
    rw [preorder, List.mem_cons, List.mem_append] at hnode
    rcases hnode with rfl | hnode | hnode
    · exact hroot
    · exact Nat.le_trans hroot (Nat.le_of_lt (deeper node hnode))
    · exact ihNext (fun other hother => hheads other (List.mem_cons_of_mem _ hother)) node hnode

/-! ## Layouts are ranked -/

theorem Ranked.span {forest : Forest α} (h : Ranked rank forest) (root : α) :
    let parts := forest.span fun other => rank root < rank other
    Ranked rank parts.1 ∧ Ranked rank parts.2 ∧ (∀ node ∈ parts.1.heads, rank root < rank node) ∧
      (∀ node ∈ parts.2.heads, rank node ≤ rank root) ∧ ∀ node ∈ parts.1.heads, node ∈ forest.heads := by
  induction h with
  | nil => exact ⟨.nil, .nil, by simp [Forest.span, heads]⟩
  | @cons other below next deeper beside hbelow hnext _ ihNext =>
    obtain ⟨hfirst, hsecond, hgreater, hless, hsub⟩ := ihNext
    rw [Forest.span]
    by_cases hrank : rank root < rank other
    · simp only [hrank, decide_true, if_true]
      refine ⟨.cons deeper (fun node hnode => beside node (hsub node hnode)) hbelow hfirst, hsecond, ?_, hless,
        ?_⟩
      · intro node hnode
        rcases List.mem_cons.mp hnode with rfl | hnode
        · exact hrank
        · exact hgreater node hnode
      · intro node hnode
        rcases List.mem_cons.mp hnode with rfl | hnode
        · exact List.mem_cons_self
        · exact List.mem_cons_of_mem _ (hsub node hnode)
    · simp only [hrank, decide_false, Bool.false_eq_true, if_false]
      refine ⟨.nil, .cons deeper beside hbelow hnext, by simp [heads], ?_, by simp [heads]⟩
      intro node hnode
      rcases List.mem_cons.mp hnode with rfl | hnode
      · omega
      · have := beside node hnode
        omega

theorem Ranked.hang {forest : Forest α} (h : Ranked rank forest) (root : α) :
    Ranked rank (hang rank root forest) := by
  obtain ⟨hbelow, hnext, hdeeper, hbeside, -⟩ := h.span root
  exact .cons (hbelow.le_rank hdeeper) hbeside hbelow hnext

theorem ranked_layout (rank : α → Nat) (nodes : List α) : Ranked rank (layout rank nodes) := by
  induction nodes with
  | nil => exact .nil
  | cons root rest ih => exact ih.hang root

/-! ## Ranked forests are layouts -/

theorem append_nil (forest : Forest α) : forest ++ nil = forest := by
  induction forest with
  | nil => rfl
  | cons root below next _ ihNext => exact congrArg (cons root below) ihNext

theorem append_assoc (first second third : Forest α) :
    first ++ second ++ third = first ++ (second ++ third) := by
  induction first with
  | nil => rfl
  | cons root below next _ ihNext => exact congrArg (cons root below) ihNext

/-- Trees up to the first root that fails a test. -/
theorem span_append {p : α → Bool} {first second : Forest α} (hfirst : ∀ node ∈ first.heads, p node)
    (hsecond : ∀ node ∈ second.heads.head?, ¬p node) : (first ++ second).span p = (first, second) := by
  induction first with
  | nil =>
    cases second with
    | nil => rfl
    | cons root below next =>
      show (cons root below next).span p = _
      rw [span, if_neg (hsecond root rfl)]
  | cons root below next _ ihNext =>
    show (cons root below (next ++ second)).span p = _
    rw [span, if_pos (hfirst root List.mem_cons_self),
      ihNext fun node hnode => hfirst node (List.mem_cons_of_mem _ hnode)]

/-- Where no tree leads, the first root fails the test. -/
theorem span_of_fst_eq_nil {p : α → Bool} {forest : Forest α} (h : (forest.span p).1 = nil) :
    forest.span p = (nil, forest) ∧ ∀ node ∈ forest.heads.head?, ¬p node := by
  cases forest with
  | nil => exact ⟨rfl, nofun⟩
  | cons root below next =>
    by_cases hroot : p root
    · rw [span, if_pos hroot] at h
      cases h
    · rw [span, if_neg hroot]
      exact ⟨rfl, fun node hnode => by cases hnode; exact hroot⟩

/-- Trees after a root that fails a test do not matter. -/
theorem span_append_right (p : α → Bool) (first : Forest α) {second : Forest α}
    (hsecond : ∀ node ∈ second.heads.head?, ¬p node) :
    (first ++ second).span p = ((first.span p).1, (first.span p).2 ++ second) := by
  induction first with
  | nil => exact span_append nofun hsecond
  | cons root below next _ ihNext =>
    show (cons root below (next ++ second)).span p = _
    rw [span, span]
    split
    · rw [ihNext]
    · rfl

theorem head?_heads_layout (rank : α → Nat) (nodes : List α) :
    (layout rank nodes).heads.head? = nodes.head? := by
  cases nodes <;> rfl

theorem layout_append {first second : List α}
    (h : ∀ node ∈ second.head?, ∀ other ∈ first, rank node ≤ rank other) :
    layout rank (first ++ second) = layout rank first ++ layout rank second := by
  induction first with
  | nil => rfl
  | cons root rest ih =>
    have hrest := ih fun node hnode other hother => h node hnode other (List.mem_cons_of_mem _ hother)
    show hang rank root (layout rank (rest ++ second)) = hang rank root (layout rank rest) ++ _
    rw [hrest, hang, span_append_right]
    · rfl
    · intro node hnode
      rw [head?_heads_layout] at hnode
      have := h node hnode root List.mem_cons_self
      simpa using this

theorem head?_heads (forest : Forest α) : forest.heads.head? = forest.preorder.head? := by
  cases forest <;> rfl

theorem layout_preorder {forest : Forest α} (h : Ranked rank forest) :
    layout rank forest.preorder = forest := by
  induction h with
  | nil => rfl
  | @cons root below next deeper beside hbelow _ ihBelow ihNext =>
    have hhead : ∀ node ∈ next.heads.head?, rank node ≤ rank root := fun node hnode =>
      beside node (List.mem_of_mem_head? hnode)
    have hsplit : layout rank (below.preorder ++ next.preorder) = below ++ next := by
      rw [layout_append, ihBelow, ihNext]
      intro node hnode other hother
      rw [← head?_heads] at hnode
      exact Nat.le_trans (hhead node hnode) (Nat.le_of_lt (deeper other hother))
    show hang rank root (layout rank (below.preorder ++ next.preorder)) = _
    rw [hsplit, hang, span_append]
    · intro node hnode
      exact decide_eq_true (deeper node (mem_preorder_of_mem_heads hnode))
    · intro node hnode
      have := hhead node hnode
      simpa using this

/-! ## Forests of the same shape -/

/-- Forests of the same shape whose nodes are related one by one. -/
inductive Rel (R : α → β → Prop) : Forest α → Forest β → Prop
  | nil : Rel R nil nil
  | cons {root : α} {root' : β} {below next : Forest α} {below' next' : Forest β} : R root root' →
    Rel R below below' → Rel R next next' → Rel R (cons root below next) (cons root' below' next')

variable {R : α → β → Prop} {rank' : β → Nat}

theorem Rel.of_refl {R : α → α → Prop} (h : ∀ node, R node node) (forest : Forest α) : Rel R forest forest := by
  induction forest with
  | nil => exact .nil
  | cons root below next ihBelow ihNext => exact .cons (h root) ihBelow ihNext

theorem Rel.isEmpty_eq {forest : Forest α} {forest' : Forest β} (h : Rel R forest forest') :
    forest.isEmpty = forest'.isEmpty := by
  cases h <;> rfl

theorem Rel.size_eq {forest : Forest α} {forest' : Forest β} (h : Rel R forest forest') :
    forest.size = forest'.size := by
  induction h with
  | nil => rfl
  | cons _ _ _ ihBelow ihNext => rw [size, size, ihBelow, ihNext]

/-- Forests of the same shape have their nodes and children under the same numbers. -/
theorem Rel.roots_eq {forest : Forest α} {forest' : Forest β} (h : Rel R forest forest') (first : Nat) :
    forest.roots first = forest'.roots first := by
  induction h generalizing first with
  | nil => rfl
  | cons _ hbelow _ _ ihNext => rw [roots, roots, hbelow.size_eq, ihNext]

theorem Rel.rows {forest : Forest α} {forest' : Forest β} (h : Rel R forest forest') (first : Nat) :
    List.Forall₂ (fun row row' => R row.1 row'.1 ∧ row.2 = row'.2) (forest.rows first) (forest'.rows first) := by
  induction h generalizing first with
  | nil => exact .nil
  | cons hroot hbelow _ ihBelow ihNext =>
    rw [Forest.rows, Forest.rows, hbelow.size_eq]
    exact .cons ⟨hroot, hbelow.roots_eq _⟩ (List.rel_append (ihBelow _) (ihNext _))

theorem Rel.span {p : α → Bool} {q : β → Bool} (hpq : ∀ node node', R node node' → p node = q node')
    {forest : Forest α} {forest' : Forest β} (h : Rel R forest forest') :
    Rel R (forest.span p).1 (forest'.span q).1 ∧ Rel R (forest.span p).2 (forest'.span q).2 := by
  induction h with
  | nil => exact ⟨.nil, .nil⟩
  | cons hroot hbelow hnext _ ihNext =>
    rw [Forest.span, Forest.span, hpq _ _ hroot]
    split
    · exact ⟨.cons hroot hbelow ihNext.1, ihNext.2⟩
    · exact ⟨.nil, .cons hroot hbelow hnext⟩

/-- Nodes of the same ranks are laid out alike. -/
theorem Rel.layout (hrank : ∀ node node', R node node' → rank node = rank' node') {nodes : List α}
    {nodes' : List β} (h : List.Forall₂ R nodes nodes') :
    Rel R (layout rank nodes) (layout rank' nodes') := by
  induction h with
  | nil => exact .nil
  | @cons root root' rest rest' hroot _ ih =>
    have hspan := ih.span (p := fun other => rank root < rank other) (q := fun other => rank' root' < rank' other)
      fun node node' hnode => by rw [hrank _ _ hnode, hrank _ _ hroot]
    exact .cons hroot hspan.1 hspan.2

/-! ## Nodes and what is below them -/

/-- A forest has a node, with a forest below it. -/
inductive Has : Forest α → α → Forest α → Prop
  | here {node : α} {below next : Forest α} : Has (cons node below next) node below
  | inside {root node : α} {forest next below : Forest α} : Has forest node below →
    Has (cons root forest next) node below
  | later {root node : α} {forest next below : Forest α} : Has next node below →
    Has (cons root forest next) node below

theorem exists_has {forest : Forest α} {node : α} (h : node ∈ forest.preorder) :
    ∃ below, forest.Has node below := by
  induction forest with
  | nil => cases h
  | cons root below next ihBelow ihNext =>
    rw [preorder, List.mem_cons, List.mem_append] at h
    rcases h with rfl | h | h
    · exact ⟨below, .here⟩
    · obtain ⟨forest, hhas⟩ := ihBelow h
      exact ⟨forest, .inside hhas⟩
    · obtain ⟨forest, hhas⟩ := ihNext h
      exact ⟨forest, .later hhas⟩

namespace Has

variable {node other : α} {below below' forest : Forest α}

theorem trans (h : forest.Has node below) (h' : below.Has other below') : forest.Has other below' := by
  induction h with
  | here => exact .inside h'
  | inside _ ih => exact .inside (ih h')
  | later _ ih => exact .later (ih h')

theorem append_left (h : forest.Has node below) (first : Forest α) : (first ++ forest).Has node below := by
  induction first with
  | nil => exact h
  | cons root below next _ ihNext => exact .later ihNext

theorem mem_preorder (h : forest.Has node below) : node ∈ forest.preorder := by
  induction h with
  | here => exact List.mem_cons_self
  | inside _ ih => exact List.mem_cons_of_mem _ (List.mem_append_left _ ih)
  | later _ ih => exact List.mem_cons_of_mem _ (List.mem_append_right _ ih)

theorem preorder_subset (h : forest.Has node below) : ∀ other ∈ below.preorder, other ∈ forest.preorder := by
  induction h with
  | here => exact fun other hother => List.mem_cons_of_mem _ (List.mem_append_left _ hother)
  | inside _ ih => exact fun other hother => List.mem_cons_of_mem _ (List.mem_append_left _ (ih other hother))
  | later _ ih => exact fun other hother => List.mem_cons_of_mem _ (List.mem_append_right _ (ih other hother))

/-- Where no node comes twice, it has one forest below it. -/
theorem unique (hnodup : forest.preorder.Nodup) (h : forest.Has node below) (h' : forest.Has node below') :
    below = below' := by
  induction forest with
  | nil => cases h
  | cons root first next ihFirst ihNext =>
    obtain ⟨hroot, hrest⟩ := List.nodup_cons.mp hnodup
    obtain ⟨hfirst, hnext, hdisjoint⟩ := List.nodup_append.mp hrest
    rw [List.mem_append, not_or] at hroot
    cases h with
    | here =>
      cases h' with
      | here => rfl
      | inside h' => exact absurd h'.mem_preorder hroot.1
      | later h' => exact absurd h'.mem_preorder hroot.2
    | inside h =>
      cases h' with
      | here => exact absurd h.mem_preorder hroot.1
      | inside h' => exact ihFirst hfirst h h'
      | later h' => exact absurd rfl (hdisjoint _ h.mem_preorder _ h'.mem_preorder)
    | later h =>
      cases h' with
      | here => exact absurd h.mem_preorder hroot.2
      | inside h' => exact absurd rfl (hdisjoint _ h'.mem_preorder _ h.mem_preorder)
      | later h' => exact ihNext hnext h h'

end Has

end Scl.Forest
