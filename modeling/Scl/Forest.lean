/-!
# Forests

Ordered forests of labelled nodes, written as first child and next sibling: a forest is empty, or it is a
root with the forest below it and the forest of the roots after it. Induction on a forest then has one
case with two hypotheses, and the children of a node are themselves a forest.

`layout` makes a forest of a list by the ranks of its elements, as indentation does with lines.

Nodes are numbered from zero in preorder. `rows` lists every node with the numbers of its children, and
`roots` gives the numbers of the roots.
-/

namespace Scl

inductive Forest (α : Type) where
  | nil
  | cons (root : α) (below next : Forest α)
  deriving DecidableEq, Repr

namespace Forest

variable {α β : Type}

def isEmpty : Forest α → Bool
  | nil => true
  | cons .. => false

/-- The number of nodes. -/
def size : Forest α → Nat
  | nil => 0
  | cons _ below next => below.size + next.size + 1

/-- Every node in depth-first order. -/
def preorder : Forest α → List α
  | nil => []
  | cons root below next => root :: (below.preorder ++ next.preorder)

/-- Every node in depth-first order, with its depth, where the roots have depth `depth`. -/
def levels (depth : Nat) : Forest α → List (Nat × α)
  | nil => []
  | cons root below next => (depth, root) :: (levels (depth + 1) below ++ levels depth next)

def map (f : α → β) : Forest α → Forest β
  | nil => nil
  | cons root below next => cons (f root) (below.map f) (next.map f)

/-- The trees of one forest followed by those of another. -/
def append : Forest α → Forest α → Forest α
  | nil, other => other
  | cons root below next, other => cons root below (next.append other)

instance : Append (Forest α) := ⟨append⟩

/-- The leading trees whose roots satisfy `p`, and the other trees. -/
def span (p : α → Bool) : Forest α → Forest α × Forest α
  | nil => (nil, nil)
  | cons root below next =>
    if p root then
      let (leading, others) := next.span p
      (cons root below leading, others)
    else (nil, cons root below next)

/-- The tree at position `index`: the roots before it with the last one first, its root, and the forest
below it. -/
def tree? : Forest α → Nat → Option (List α × α × Forest α) :=
  go []
where
  go (above : List α) : Forest α → Nat → Option (List α × α × Forest α)
    | nil, _ => none
    | cons root below _, 0 => some (above, root, below)
    | cons root _ next, index + 1 => go (root :: above) next index

/-! ## Layout -/

/-- A node in front of a forest: the leading trees whose roots have a greater rank go below it. -/
def hang (rank : α → Nat) (root : α) (forest : Forest α) : Forest α :=
  let (below, next) := forest.span fun other => rank root < rank other
  cons root below next

/-- The forest of a list of nodes in which each one belongs below the nearest earlier one of a smaller
rank. It is built from the last node to the first. -/
def layout (rank : α → Nat) (nodes : List α) : Forest α :=
  nodes.foldr (hang rank) nil

/-! ## Numbers -/

/-- The numbers of the roots, when the first node has number `first`. -/
def roots (first : Nat) : Forest α → List Nat
  | nil => []
  | cons _ below next => first :: roots (first + below.size + 1) next

/-- Every node in the order of the numbers, with the numbers of its children. -/
def rows (first : Nat) : Forest α → List (α × List Nat)
  | nil => []
  | cons root below next =>
    (root, roots (first + 1) below) ::
      (rows (first + 1) below ++ rows (first + below.size + 1) next)

theorem length_preorder (forest : Forest α) : forest.preorder.length = forest.size := by
  induction forest with
  | nil => rfl
  | cons root below next ihBelow ihNext => simp [preorder, size, ihBelow, ihNext]

theorem preorder_span (p : α → Bool) (forest : Forest α) :
    (forest.span p).1.preorder ++ (forest.span p).2.preorder = forest.preorder := by
  induction forest with
  | nil => rfl
  | cons root below next _ ihNext =>
    simp only [span]
    split <;> simp [preorder, ← ihNext]

/-- Layout keeps the order of the list. -/
theorem preorder_layout (rank : α → Nat) (nodes : List α) : (layout rank nodes).preorder = nodes := by
  induction nodes with
  | nil => rfl
  | cons root rest ih =>
    show root :: (_ ++ _) = _
    rw [preorder_span]
    exact congrArg (root :: ·) ih

theorem map_fst_rows (forest : Forest α) (first : Nat) :
    (forest.rows first).map Prod.fst = forest.preorder := by
  induction forest generalizing first with
  | nil => rfl
  | cons root below next ihBelow ihNext => simp [rows, preorder, ihBelow, ihNext]

end Forest

end Scl
