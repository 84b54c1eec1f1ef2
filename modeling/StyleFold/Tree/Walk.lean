/-
  Walk — counting and listing the nodes of a tree.

  Both listings are the same, and either may be used where it is more convenient: the recursive one for
  proofs, the stack for deep trees.

  1. **Counting** — `descendants` is the number of nodes below a node, `Node.population` the number of
     nodes of a sibling list with all that they hold.  The latter is the measure by which the
     traversals and the merge passes end.
  2. **Listing by recursion** — `preorder`: the node, then the listing of each child in order.
  3. **Listing by a stack** — `walk`: take the node on top, put its children in its place, go on.
     It needs no recursion on the tree, so a deep tree costs no deep call.
-/
import StyleFold.Tree.Node

namespace StyleFold.Node

/-! ## Counting -/

mutual

/-- Number of nodes below this node. -/
def descendants : Node → Nat
  | rule .. | importStatement .. => 0
  | block _ _ _ _ children => population children

/-- Number of nodes of a sibling list and below. -/
def population : List Node → Nat
  | [] => 0
  | n :: ns => 1 + n.descendants + population ns

end

@[simp] theorem population_nil : population [] = 0 := by simp [population]

@[simp] theorem population_cons (n : Node) (ns : List Node) :
    population (n :: ns) = 1 + n.descendants + population ns := by simp [population]

@[simp] theorem population_append (as bs : List Node) :
    population (as ++ bs) = population as + population bs := by
  induction as with
  | nil => simp
  | cons a as ih => simp [ih]; omega

/-- A node's descendants are its children and all below them. -/
theorem descendants_eq_population (n : Node) : n.descendants = population n.children := by
  cases n <;> simp [descendants, children]

/-- A node that holds nodes gains the child and all below it. -/
theorem descendants_push {n : Node} (h : n.kind.isContainer = true) (child : Node) :
    (n.push child).descendants = n.descendants + (1 + child.descendants) := by
  cases n with
  | rule line origin selectors declarations => exact absurd h Bool.false_ne_true
  | importStatement line origin statement => exact absurd h Bool.false_ne_true
  | block line origin head reduced children => simp [push, descendants]

/-- The members of a list weigh no more than the list. -/
theorem descendants_lt_population {n : Node} {ns : List Node} (h : n ∈ ns) :
    n.descendants < population ns := by
  induction ns with
  | nil => cases h
  | cons a as ih =>
    rcases List.mem_cons.mp h with rfl | h
    · simp only [population_cons]; omega
    · have := ih h
      simp only [population_cons]; omega

/-! ## Listing by recursion -/

mutual

/-- The node and all below it, each before what it holds. -/
def preorder : Node → List Node
  | n@(rule ..) | n@(importStatement ..) => [n]
  | n@(block _ _ _ _ children) => n :: preorderAll children

/-- The listings of the siblings one after another. -/
def preorderAll : List Node → List Node
  | [] => []
  | n :: ns => n.preorder ++ preorderAll ns

end

/-! ## Listing by a stack -/

/-- The nodes met when the stack is worked off, its first node next. -/
def walkStack : List Node → List Node
  | [] => []
  | n :: stack => n :: walkStack (n.children ++ stack)
termination_by stack => population stack
decreasing_by simp [descendants_eq_population]

/-- The node and all below it, in the order in which a stack of pending nodes yields them. -/
def walk (n : Node) : List Node := walkStack [n]

end StyleFold.Node
