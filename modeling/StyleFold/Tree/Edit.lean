/-
  Edit — reaching and changing single nodes of a tree.

  A *path* is a list of child positions from the root down.  `at?` follows it, `modifyAt?` changes the
  node it leads to; both answer `none` when it leads nowhere.  The setters assign one field and leave
  a node that has no such field as it is.

  Trees may be built and changed by hand, and the theorems about verification speak of such trees, too.
-/
import StyleFold.Tree.Node
import StyleFold.Text.Sorted

namespace StyleFold.Node

/-! ## Paths -/

/-- The node the path leads to. -/
def at? : List Nat → Node → Option Node
  | [], n => some n
  | i :: path, n => n.children[i]?.bind (at? path)

/-- The node with other children, all else kept. -/
def withChildren (children : List Node) : Node → Node
  | block line origin head reduced _ => block line origin head reduced children
  | n@(rule ..) | n@(importStatement ..) => n

/-- The tree with the node that the path leads to changed by `f`. -/
def modifyAt? (f : Node → Node) : List Nat → Node → Option Node
  | [], n => some (f n)
  | i :: path, n =>
    match n.children[i]? with
    | none => none
    | some child =>
      (modifyAt? f path child).map fun changed => n.withChildren (n.children.set i changed)

/-! ## Fields -/

/-- The node with another source line. -/
def withLine (line : Nat) : Node → Node
  | rule _ origin selectors declarations => rule line origin selectors declarations
  | importStatement _ origin statement => importStatement line origin statement
  | block _ origin head reduced children => block line origin head reduced children

/-- The node with another count of siblings taken away. -/
def withReduced (reduced : Nat) : Node → Node
  | block line origin head _ children => block line origin head reduced children
  | n@(rule ..) | n@(importStatement ..) => n

/-- The at-rule with another header. -/
def withHeader (header : Text) : Node → Node
  | block line origin (.atRule kind _) reduced children =>
    block line origin (.atRule kind header) reduced children
  | n@(rule ..) | n@(importStatement ..) | n@(block _ _ .sheet _ _) => n

/-- The rule with other selectors. -/
def withSelectors (selectors : List Text) : Node → Node
  | rule line origin _ declarations => rule line origin selectors declarations
  | n@(importStatement ..) | n@(block ..) => n

/-- The rule with other declarations. -/
def withDeclarations (declarations : List Text) : Node → Node
  | rule line origin selectors _ => rule line origin selectors declarations
  | n@(importStatement ..) | n@(block ..) => n

/-- The import with another statement. -/
def withStatement (statement : Text) : Node → Node
  | importStatement line origin _ => importStatement line origin statement
  | n@(rule ..) | n@(block ..) => n

/-! ## Order -/

/-- The siblings in order of their header texts; siblings of equal header keep their order. -/
def sortSiblings (siblings : List Node) : List Node := Text.sortOn headerText siblings

/-- The block with its children in order. -/
def sortChildren (n : Node) : Node := n.withChildren (sortSiblings n.children)

end StyleFold.Node
