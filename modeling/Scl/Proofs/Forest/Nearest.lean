import Mathlib.Data.List.Basic
import Scl.Proofs.Forest.Layout

/-!
# Numbers of a forest

The numbers of a forest say everything about its shape, and in a layout they can be told from the ranks
alone: the parent of a node is the nearest earlier node of a smaller rank.

* `nearest?`: the greatest position before another at which a list of ranks has a smaller one;
* `Parented`: a forest in which every node has the parent that a function gives for its number;
* `roots_eq_filter`, `children_eq_filter`: the roots and the children of such a forest, by that function;
* `parented_layout`: a layout has the nearest earlier nodes of smaller rank as parents;
* `perm_children`, `depthFirst_roots`: every number is a root or a child once, and a depth-first walk
  meets the numbers in order.
-/

namespace Scl

/-! ## The nearest smaller rank -/

/-- The rank at a position. -/
abbrev rankAt (ranks : List Nat) (i : Nat) : Nat :=
  ranks.getD i 0

/-- The greatest position before `i` with a smaller rank than `i` has. -/
def nearest? (ranks : List Nat) (i : Nat) : Option Nat :=
  ((List.range i).filter fun j => rankAt ranks j < rankAt ranks i).getLast?

/-- The greatest position before `limit` with a rank smaller than `rank`, if there is one. -/
def IsNearest (ranks : List Nat) (limit rank : Nat) : Option Nat → Prop
  | none => ∀ k < limit, rank ≤ rankAt ranks k
  | some j => j < limit ∧ rankAt ranks j < rank ∧ ∀ k, j < k → k < limit → rank ≤ rankAt ranks k

section

variable {ranks : List Nat} {limit rank : Nat} {parent? : Option Nat}

/-- Positions of ranks that are no smaller do not count. -/
theorem IsNearest.extend (h : IsNearest ranks limit rank parent?) {limit' : Nat} (hle : limit ≤ limit')
    (hskip : ∀ k, limit ≤ k → k < limit' → rank ≤ rankAt ranks k) : IsNearest ranks limit' rank parent? := by
  have hsplit : ∀ {k}, k < limit' → (k < limit → rank ≤ rankAt ranks k) → rank ≤ rankAt ranks k := by
    intro k hk hold
    by_cases hlt : k < limit
    · exact hold hlt
    · exact hskip k (by omega) hk
  cases parent? with
  | none => exact fun k hk => hsplit hk (h k)
  | some j =>
    obtain ⟨hj, hrank, hbetween⟩ := h
    exact ⟨by omega, hrank, fun k hjk hk => hsplit hk (hbetween k hjk)⟩

theorem isNearest_last {j : Nat} (h : rankAt ranks j < rank) : IsNearest ranks (j + 1) rank (some j) :=
  ⟨by omega, h, fun k _ _ => by omega⟩

/-- A search backwards from `limit`. -/
theorem isNearest_getLast? (ranks : List Nat) (limit rank : Nat) :
    IsNearest ranks limit rank ((List.range limit).filter fun j => rankAt ranks j < rank).getLast? := by
  induction limit with
  | zero => exact nofun
  | succ limit ih =>
    rw [List.range_succ, List.filter_append]
    by_cases h : rankAt ranks limit < rank
    · rw [List.filter_cons_of_pos (by simpa using h), List.filter_nil, List.getLast?_concat]
      exact isNearest_last h
    · rw [List.filter_cons_of_neg (by simpa using h), List.filter_nil, List.append_nil]
      refine ih.extend (by omega) fun k hk hlt => ?_
      have : k = limit := by omega
      subst this
      omega

theorem IsNearest.unique {other? : Option Nat} (h : IsNearest ranks limit rank parent?)
    (h' : IsNearest ranks limit rank other?) : parent? = other? := by
  cases parent? with
  | none =>
    cases other? with
    | none => rfl
    | some j =>
      have := h j h'.1
      have := h'.2.1
      omega
  | some i =>
    cases other? with
    | none =>
      have := h' i h.1
      have := h.2.1
      omega
    | some j =>
      have hij := h.2.2 j
      have hji := h'.2.2 i
      have := h.1
      have := h'.1
      have := h.2.1
      have := h'.2.1
      exact congrArg some (by omega)

theorem nearest?_eq_iff {i : Nat} : nearest? ranks i = parent? ↔ IsNearest ranks i (rankAt ranks i) parent? := by
  have hsearch := isNearest_getLast? ranks i (rankAt ranks i)
  constructor
  · rintro rfl
    exact hsearch
  · exact hsearch.unique

end

namespace Forest

variable {α : Type} {rank : α → Nat} {parent : Nat → Option Nat} {parent? : Option Nat} {first : Nat}

/-! ## Forests with given parents -/

/-- Every root has the parent `parent?`, and every other node the one that it hangs below, when the first
node has number `first`. -/
def Parented (parent : Nat → Option Nat) (parent? : Option Nat) (first : Nat) : Forest α → Prop
  | nil => True
  | cons _ below next =>
    parent first = parent? ∧ Parented parent (some first) (first + 1) below ∧
      Parented parent parent? (first + below.size + 1) next

/-- A node is a root or has its parent among the nodes before it. -/
theorem Parented.eq_or_mem {forest : Forest α} (h : Parented parent parent? first forest) {i : Nat}
    (hfirst : first ≤ i) (hi : i < first + forest.size) :
    parent i = parent? ∨ ∃ j, parent i = some j ∧ first ≤ j ∧ j < i := by
  induction forest generalizing parent? first with
  | nil =>
    simp only [size] at hi
    omega
  | cons root below next ihBelow ihNext =>
    obtain ⟨hroot, hbelow, hnext⟩ := h
    simp only [size] at hi
    by_cases heq : i = first
    · exact .inl (heq ▸ hroot)
    by_cases hlt : i < first + below.size + 1
    · right
      rcases ihBelow hbelow (by omega) (by omega) with hparent | ⟨j, hparent, hj, hji⟩
      · exact ⟨first, hparent, by omega, by omega⟩
      · exact ⟨j, hparent, by omega, hji⟩
    · rcases ihNext hnext (by omega) (by omega) with hparent | ⟨j, hparent, hj, hji⟩
      · exact .inl hparent
      · exact .inr ⟨j, hparent, by omega, hji⟩

/-- The numbers of a forest: the root's, those below it and those after it. -/
theorem range'_size (first : Nat) (root : α) (below next : Forest α) :
    List.range' first (cons root below next).size =
      first :: (List.range' (first + 1) below.size ++ List.range' (first + below.size + 1) next.size) := by
  rw [size, show below.size + next.size + 1 = (below.size + next.size) + 1 from rfl, List.range'_succ,
    show first + below.size + 1 = first + 1 + 1 * below.size by omega, List.range'_append]

/-- Numbers with parents of their own are not among the children of another node. -/
theorem Parented.filter_eq_nil {forest : Forest α} (h : Parented parent parent? first forest)
    {other? : Option Nat} (hother : parent? ≠ other?)
    (houtside : ∀ j, other? = some j → first ≤ j → first + forest.size ≤ j) :
    (List.range' first forest.size).filter (parent · = other?) = [] := by
  rw [List.filter_eq_nil_iff]
  intro i hi
  rw [List.mem_range'_1] at hi
  rw [decide_eq_true_eq]
  rintro heq
  rcases h.eq_or_mem hi.1 hi.2 with hparent | ⟨j, hparent, hj, hji⟩
  · exact hother (hparent.symm.trans heq)
  · have := houtside j (heq.symm.trans hparent) hj
    omega

theorem roots_eq_filter {forest : Forest α} (h : Parented parent parent? first forest)
    (hparent : ∀ j, parent? = some j → j < first) :
    forest.roots first = (List.range' first forest.size).filter (parent · = parent?) := by
  induction forest generalizing first with
  | nil => rfl
  | cons root below next _ ihNext =>
    obtain ⟨hroot, hbelow, hnext⟩ := h
    have hne : some first ≠ parent? := fun heq => Nat.lt_irrefl _ (hparent first heq.symm)
    have hnil := hbelow.filter_eq_nil hne fun j heq hj => by
      have := hparent j heq
      omega
    have hroots := ihNext hnext fun j heq => Nat.lt_of_lt_of_le (hparent j heq) (by omega)
    rw [range'_size, roots, List.filter_cons_of_pos (by simpa using hroot), List.filter_append, hnil,
      List.nil_append, hroots]

/-- The children of the nodes of a forest are all among its numbers. -/
theorem children_eq_filter {forest : Forest α} (h : Parented parent parent? first forest)
    (hparent : ∀ j, parent? = some j → j < first) :
    (forest.rows first).map Prod.snd = (List.range' first forest.size).map fun j =>
      (List.range' first forest.size).filter (parent · = some j) := by
  induction forest generalizing first parent? with
  | nil => rfl
  | cons root below next ihBelow ihNext =>
    obtain ⟨hroot, hbelow, hnext⟩ := h
    have hne : ∀ {j}, first ≤ j → parent? ≠ some j := fun hj heq => by
      have := hparent _ heq
      omega
    have hfirst : ∀ {j} (rest : List Nat), first ≤ j →
        (first :: rest).filter (parent · = some j) = rest.filter (parent · = some j) := fun rest hj => by
      rw [List.filter_cons_of_neg]
      simpa [hroot] using hne hj
    have hbelowNil : ∀ {j}, first + below.size + 1 ≤ j →
        (List.range' (first + 1) below.size).filter (parent · = some j) = [] := fun {j} hj =>
      hbelow.filter_eq_nil (by simp only [ne_eq, Option.some.injEq]; omega) fun k heq _ => by
        cases heq
        omega
    have hnextNil : ∀ {j}, first ≤ j → j < first + below.size + 1 →
        (List.range' (first + below.size + 1) next.size).filter (parent · = some j) = [] := fun {j} hj hlt =>
      hnext.filter_eq_nil (hne hj) fun k heq _ => by
        cases heq
        omega
    rw [range'_size, rows, List.map_cons, List.map_cons, List.map_append, List.map_append]
    refine congrArg₂ List.cons ?_ (congrArg₂ (· ++ ·) ?_ ?_)
    · rw [roots_eq_filter hbelow (by simp), hfirst _ (Nat.le_refl _), List.filter_append,
        hnextNil (Nat.le_refl _) (by omega), List.append_nil]
    · rw [ihBelow hbelow (by simp)]
      refine List.map_congr_left fun j hj => ?_
      rw [List.mem_range'_1] at hj
      rw [hfirst _ (by omega), List.filter_append, hnextNil (by omega) (by omega), List.append_nil]
    · rw [ihNext hnext fun j heq => by
        have := hparent j heq
        omega]
      refine List.map_congr_left fun j hj => ?_
      rw [List.mem_range'_1] at hj
      rw [hfirst _ (by omega), List.filter_append, hbelowNil (by omega), List.nil_append]

/-! ## The parents of a layout -/

theorem Ranked.parented {forest : Forest α} (h : Ranked rank forest) {ranks : List Nat}
    (hranks : ∀ k < forest.size, rankAt ranks (first + k) = rankAt (forest.preorder.map rank) k)
    (hheads : ∀ node ∈ forest.heads, IsNearest ranks first (rank node) parent?) :
    Parented (nearest? ranks) parent? first forest := by
  induction h generalizing parent? first with
  | nil => trivial
  | @cons root below next deeper beside _ _ ihBelow ihNext =>
    have hroot : rankAt ranks first = rank root := hranks 0 (by simp only [size]; omega)
    have hbelow : ∀ k < below.size, rankAt ranks (first + 1 + k) = rankAt (below.preorder.map rank) k := by
      intro k hk
      rw [show first + 1 + k = first + (k + 1) by omega, hranks (k + 1) (by simp only [size]; omega)]
      simp [rankAt, preorder, List.getD_eq_getElem?_getD, List.getElem?_append_left, length_preorder, hk]
    have hnext : ∀ k < next.size,
        rankAt ranks (first + below.size + 1 + k) = rankAt (next.preorder.map rank) k := by
      intro k hk
      rw [show first + below.size + 1 + k = first + (below.size + k + 1) by omega,
        hranks (below.size + k + 1) (by simp only [size]; omega)]
      simp [rankAt, preorder, List.getD_eq_getElem?_getD, List.getElem?_append_right, length_preorder]
    -- The root and everything below it has at least the root's rank.
    have hskip : ∀ k, first ≤ k → k < first + below.size + 1 → rank root ≤ rankAt ranks k := by
      intro k hk hlt
      by_cases heq : k = first
      · exact heq ▸ Nat.le_of_eq hroot.symm
      · obtain ⟨m, rfl⟩ : ∃ m, k = first + 1 + m := ⟨k - first - 1, by omega⟩
        have hm : m < (below.preorder.map rank).length := by
          rw [List.length_map, length_preorder]
          omega
        rw [hbelow m (by omega), rankAt, List.getD_eq_getElem?_getD, List.getElem?_eq_getElem hm, Option.getD_some,
          List.getElem_map]
        exact Nat.le_of_lt (deeper _ (List.getElem_mem _))
    refine ⟨?_, ihBelow hbelow fun node hnode => ?_, ihNext hnext fun node hnode => ?_⟩
    · rw [nearest?_eq_iff, hroot]
      exact hheads root List.mem_cons_self
    · have := deeper node (mem_preorder_of_mem_heads hnode)
      exact isNearest_last (by omega)
    · refine (hheads node (List.mem_cons_of_mem _ hnode)).extend (by omega) fun k hk hlt => ?_
      exact Nat.le_trans (beside node hnode) (hskip k hk hlt)

/-- In a layout the parent of each node is the nearest earlier one of a smaller rank. -/
theorem parented_layout (rank : α → Nat) (nodes : List α) :
    Parented (nearest? (nodes.map rank)) none 0 (layout rank nodes) := by
  refine (ranked_layout rank nodes).parented (fun k _ => ?_) fun _ _ _ hk => nomatch hk
  rw [preorder_layout, Nat.zero_add]

theorem size_layout (rank : α → Nat) (nodes : List α) : (layout rank nodes).size = nodes.length := by
  rw [← length_preorder, preorder_layout]

/-! ## Walks over the numbers -/

/-- Every number is a root or a child, and only once. -/
theorem perm_children (forest : Forest α) (first : Nat) :
    (forest.roots first ++ (forest.rows first).flatMap Prod.snd).Perm (List.range' first forest.size) := by
  induction forest generalizing first with
  | nil => exact .nil
  | cons root below next ihBelow ihNext =>
    rw [range'_size, roots, rows, List.cons_append, List.flatMap_cons, List.flatMap_append]
    refine .cons _ (.trans ?_ ((ihBelow (first + 1)).append (ihNext (first + below.size + 1))))
    -- The roots after the first one move behind what hangs below it.
    rw [← List.append_assoc, ← List.append_assoc, ← List.append_assoc]
    refine .append_right _ ?_
    rw [List.append_assoc]
    exact List.perm_append_comm

/-- `order` is what a walk from `ids` meets if it goes through the children of each node before the node
after it. -/
inductive DepthFirst (children : Nat → List Nat) : List Nat → List Nat → Prop
  | nil : DepthFirst children [] []
  | cons {id : Nat} {ids below rest : List Nat} : DepthFirst children (children id) below →
    DepthFirst children ids rest → DepthFirst children (id :: ids) (id :: (below ++ rest))

/-- The children of a node, by its number, in a table of the nodes. -/
def childrenAt (rows : List (α × List Nat)) (id : Nat) : List Nat :=
  (rows.map Prod.snd).getD id []

theorem depthFirst_of_rows (forest : Forest α) (first : Nat) {children : Nat → List Nat}
    (h : ∀ k < forest.size, children (first + k) = childrenAt (forest.rows first) k) :
    DepthFirst children (forest.roots first) (List.range' first forest.size) := by
  induction forest generalizing first with
  | nil => exact .nil
  | cons root below next ihBelow ihNext =>
    have hlength : ∀ (forest : Forest α) first, (forest.rows first).length = forest.size := fun forest first => by
      rw [← length_preorder, ← map_fst_rows, List.length_map]
    rw [range'_size, roots]
    refine .cons ?_ (ihNext _ fun k hk => ?_)
    · rw [← Nat.add_zero first, h 0 (by simp only [size]; omega)]
      refine ihBelow (first + 1) fun k hk => ?_
      rw [show first + 1 + k = first + (k + 1) by omega, h (k + 1) (by simp only [size]; omega)]
      simp [childrenAt, rows, List.getD_eq_getElem?_getD, List.getElem?_append_left, hlength, hk]
    · rw [show first + below.size + 1 + k = first + (below.size + k + 1) by omega,
        h (below.size + k + 1) (by simp only [size]; omega)]
      simp [childrenAt, rows, List.getD_eq_getElem?_getD, List.getElem?_append_right, hlength]

/-- A depth-first walk from the roots meets the nodes in the order of their numbers. -/
theorem depthFirst_roots (forest : Forest α) :
    DepthFirst (childrenAt (forest.rows 0)) (forest.roots 0) (List.range forest.size) := by
  rw [List.range_eq_range']
  exact depthFirst_of_rows forest 0 fun k _ => by rw [Nat.zero_add]

end Forest

end Scl
