/-
  SameContent — rules with the same declarations become one rule.

  This is the second pass.  It makes one rule of several that say the same, whatever selectors they say
  it for, so it never joins declarations.

  1. **Classes** — rules are grouped by their declarations, whose order does not matter: the key is the
     declarations in descending order.
  2. **Folding** — a class becomes a rule with the selectors of all its members, sorted, and the
     declarations as the key has them.
  3. **The pass** — blocks are not grouped: each is rebuilt around the merge of its own children, and
     imports go through one by one.  Both stand before the rules until everything is sorted by
     header text, and the sort keeps that order among equal headers.
-/
import StyleFold.Merge.SameHeader

namespace StyleFold

namespace SameContent

/-! ## Classes -/

/-- Declarations in descending order. -/
def contentKey (n : Node) : List Text := (Text.sort n.declarations).reverse

/-- The classes of rules that are merged. -/
def classes (siblings : List Node) : List (Group Sibling) :=
  Group.groups (fun m : Sibling => contentKey m.1)
    ((Sibling.all siblings).filter fun m => m.1.kind == .rule)

/-! ## Folding -/

/-- The rule that a class becomes. -/
def fold (g : Group Sibling) : Node :=
  .rule g.first.1.line (Sibling.positions g)
    (Text.sort (g.members.flatMap fun m => m.1.selectors)) (contentKey g.first.1)

/-- How many selectors a class takes in from all but its first member. -/
def takenIn (g : Group Sibling) : Nat := sumOver (fun m => m.1.selectors.length) g.others

/-! ## The pass -/

/-- What becomes of a node that is no rule, `inner` being the merge of its children. -/
def keep (position : Nat) (inner : Pass) : Node → Option Node
  | .rule .. => none
  | n@(.importStatement ..) => some (n.withOrigin [position])
  | n@(.block ..) => some ((n.afterPass inner).withOrigin [position])

/-- The nodes that are no rules, in order, each with the merge of its own children. -/
def kept (siblings : List Node) (inners : List Pass) : List Node :=
  ((siblings.zip inners).zipIdx).filterMap fun p => keep p.2 p.1.2 p.1.1

/-- The outcome for a sibling list, from the merges of the children of each sibling. -/
def assemble (siblings : List Node) (inners : List Pass) : Pass :=
  let merged := classes siblings
  { children := Node.sortSiblings (kept siblings inners ++ merged.map fold)
    reduced := Group.takenAway merged
    absorbed := sumOver takenIn merged + sumOver (fun inner => inner.absorbed) inners }

mutual

/-- Merge the children of a node by content, at every depth. -/
def passBelow : Node → Pass
  | .rule .. | .importStatement .. => {}
  | .block _ _ _ _ children => assemble children (passesBelow children)

/-- The merges of the children of each sibling. -/
def passesBelow : List Node → List Pass
  | [] => []
  | n :: ns => passBelow n :: passesBelow ns

end

/-- Merge a sibling list by content, at every depth. -/
def pass (siblings : List Node) : Pass := assemble siblings (passesBelow siblings)

end SameContent

namespace Node

/-- The tree with its rules merged by content. -/
def mergeByContent (tree : Node) : Node := tree.afterPass (SameContent.pass tree.children)

/-- The tree with its rules merged by content, and the totals with what was folded in the meantime. -/
def mergeByContentWith (totals : MergeTotals) (tree : Node) : Node × MergeTotals :=
  let pass := SameContent.pass tree.children
  (tree.afterPass pass, totals.add pass)

end Node

end StyleFold
