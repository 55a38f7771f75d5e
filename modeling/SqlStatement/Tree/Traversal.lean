import SqlStatement.Tree

namespace SqlStatement

namespace Tree

mutual

/-- A tree and everything below it, in preorder. -/
def subtrees : Tree → List Tree
  | .leaf role index => [.leaf role index]
  | .node label span children => .node label span children :: forestSubtrees children
  termination_by structural t => t

/-- The preorders of several trees, one behind the other. -/
def forestSubtrees : List Tree → List Tree
  | [] => []
  | t :: ts => t.subtrees ++ forestSubtrees ts
  termination_by structural ts => ts

end

mutual

/-- How many trees there are in a tree, itself included. -/
def size : Tree → Nat
  | .leaf _ _ => 1
  | .node _ _ children => forestSize children + 1
  termination_by structural t => t

def forestSize : List Tree → Nat
  | [] => 0
  | t :: ts => t.size + forestSize ts
  termination_by structural ts => ts

end

theorem size_eq (t : Tree) : t.size = forestSize t.children + 1 := by
  cases t <;> simp [size, children, forestSize]

/-- Sizes of lists of trees add up. -/
theorem forestSize_append (ts us : List Tree) :
    forestSize (ts ++ us) = forestSize ts + forestSize us := by
  induction ts with
  | nil => simp [forestSize]
  | cons t ts ih => simp [forestSize, ih, Nat.add_assoc]

/-- The preorder of a tree starts with itself, and what follows are the trees below
    its children. -/
theorem subtrees_eq (t : Tree) : t.subtrees = t :: forestSubtrees t.children := by
  cases t <;> simp [subtrees, children, forestSubtrees]

/-- The preorder of two lists of trees is that of the first one and then that of the
    second one. This is what lets a stack hold what is still to visit. -/
theorem forestSubtrees_append (ts us : List Tree) :
    forestSubtrees (ts ++ us) = forestSubtrees ts ++ forestSubtrees us := by
  induction ts with
  | nil => simp [forestSubtrees]
  | cons t ts ih => simp [forestSubtrees, ih]

/-- A traversal in preorder, with the trees still to visit. -/
structure Traversal where
  stack : List Tree

namespace Traversal

/-- The next tree of a traversal; its children come next. -/
def next? (t : Traversal) : Option (Tree × Traversal) :=
  match t.stack with
  | [] => none
  | tree :: rest => some (tree, ⟨tree.children ++ rest⟩)

/-- The trees that a traversal yields. -/
def toList : Traversal → List Tree
  | ⟨[]⟩ => []
  | ⟨tree :: rest⟩ => tree :: toList ⟨tree.children ++ rest⟩
termination_by t => forestSize t.stack
decreasing_by
  simp only [forestSize_append, forestSize, size_eq tree]
  omega

/-- A traversal yields the preorder of all trees on its stack, from the innermost
    one on. -/
theorem toList_eq_forestSubtrees (t : Traversal) : t.toList = forestSubtrees t.stack := by
  fun_induction toList t with
  | case1 => simp [forestSubtrees]
  | case2 tree rest ih =>
    rw [ih, forestSubtrees_append, forestSubtrees, subtrees_eq, List.cons_append]

end Traversal

/-- A tree and everything below it, as a traversal yields it. -/
def descendants (t : Tree) : List Tree := (Traversal.mk [t]).toList

/-- The traversal with an explicit stack and the recursive preorder list the same
    trees: nothing is lost or visited twice. -/
theorem descendants_eq_subtrees (t : Tree) : t.descendants = t.subtrees := by
  rw [descendants, Traversal.toList_eq_forestSubtrees]
  simp [forestSubtrees]

mutual

/-- The nearest productions in a tree, itself included. -/
def nearestProductions : Tree → List Tree
  | .leaf _ _ => []
  | .node (.production name) span children => [.node (.production name) span children]
  | .node _ _ children => forestProductions children
  termination_by structural t => t

def forestProductions : List Tree → List Tree
  | [] => []
  | t :: ts => t.nearestProductions ++ forestProductions ts
  termination_by structural ts => ts

end

/-- The productions directly below a tree, seen through the parts between them. -/
def childProductions (t : Tree) : List Tree := forestProductions t.children

def isLeaf : Tree → Bool
  | .leaf _ _ => true
  | .node _ _ _ => false

end Tree

end SqlStatement
