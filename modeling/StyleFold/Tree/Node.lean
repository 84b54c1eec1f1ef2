/-
  Node — the style tree.

  A node is a rule with its selectors and declarations, an import statement, or a block that holds
  nodes: the whole sheet or an at-rule with its header.  Every node knows the source line it comes
  from (0 when unknown) and its *origin*: the positions, in the sibling list a merge pass read, of the
  nodes that were folded into it.  A block also counts the siblings that grouping took away among
  its children (`reduced`).

  1. **The type** and its fields, total on every shape: a rule or an import has no children and has
     reduced nothing.
  2. **Induction** — `Node.ind` gives the hypothesis for every child of a block.
  3. **Equality** of trees is decidable.
  4. **Building** — `push` appends a child, `rebuild` replaces what a block holds; neither does
     anything to the shapes that hold no nodes.
-/
import StyleFold.Tree.Kind

namespace StyleFold

/-! ## The type -/

/-- What opens a block: nothing for the sheet itself, the text before the brace for an at-rule. -/
inductive Head
  | sheet
  | atRule (kind : AtKind) (header : Text)
  deriving DecidableEq, Inhabited

/-- A node of the style tree. -/
inductive Node
  | rule (line : Nat) (origin : List Nat) (selectors declarations : List Text)
  | importStatement (line : Nat) (origin : List Nat) (statement : Text)
  | block (line : Nat) (origin : List Nat) (head : Head) (reduced : Nat) (children : List Node)
  deriving Inhabited

namespace Node

/-- The empty sheet. -/
def emptySheet : Node := block 0 [] .sheet 0 []

/-- The source line, counted from 1, or 0. -/
def line : Node → Nat
  | rule line .. | importStatement line .. | block line .. => line

/-- The positions of the siblings folded into this node. -/
def origin : Node → List Nat
  | rule _ origin .. | importStatement _ origin _ | block _ origin .. => origin

/-- The children of a block. -/
def children : Node → List Node
  | block _ _ _ _ children => children
  | rule .. | importStatement .. => []

/-- The number of siblings that grouping took away among the children of a block. -/
def reduced : Node → Nat
  | block _ _ _ reduced _ => reduced
  | rule .. | importStatement .. => 0

/-- The kind of the node. -/
def kind : Node → Kind
  | rule .. => .rule
  | importStatement .. => .importStatement
  | block _ _ .sheet _ _ => .root
  | block _ _ (.atRule kind _) _ _ => kind.toKind

/-- The selectors of a rule as they are written before its brace. -/
def selectorText? : Node → Option Text
  | rule _ _ selectors _ => some (Text.join ',' selectors)
  | importStatement .. | block .. => none

/-- The statement of an import. -/
def statement? : Node → Option Text
  | importStatement _ _ statement => some statement
  | rule .. | block .. => none

/-- The header of an at-rule. -/
def atHeader? : Node → Option Text
  | block _ _ (.atRule _ header) _ _ => some header
  | rule .. | importStatement .. | block _ _ .sheet _ _ => none

/-- The text by which siblings are ordered: selectors, statement or header; empty for the sheet. -/
def headerText : Node → Text
  | rule _ _ selectors _ => Text.join ',' selectors
  | importStatement _ _ statement => statement
  | block _ _ .sheet _ _ => []
  | block _ _ (.atRule _ header) _ _ => header

/-- Whether the node is an import statement. -/
def isImport : Node → Bool
  | importStatement .. => true
  | rule .. | block .. => false

/-- One line that names the node in diagnostics. -/
def summary (n : Node) : String :=
  let header := String.ofList n.headerText
  match n with
  | rule _ _ _ declarations => s!"{header} \x7b [{declarations.length} declarations inside] \x7d"
  | importStatement .. => header
  | block _ _ .sheet _ children => s!"<root> \x7b [{children.length} nodes inside] \x7d"
  | block _ _ (.atRule ..) _ children => s!"{header} \x7b [{children.length} nodes inside] \x7d"

/-- Exactly the blocks hold nodes. -/
theorem isContainer_kind_block (line : Nat) (origin : List Nat) (head : Head) (reduced : Nat)
    (children : List Node) : (block line origin head reduced children).kind.isContainer = true := by
  rcases head with _ | ⟨k, _⟩
  · rfl
  · cases k <;> rfl

theorem kind_block_ne_rule (line : Nat) (origin : List Nat) (head : Head) (reduced : Nat)
    (children : List Node) : (block line origin head reduced children).kind ≠ .rule := by
  intro h
  have := isContainer_kind_block line origin head reduced children
  rw [h] at this
  exact absurd this (by decide)

/-- Only a rule is of the kind of rules. -/
theorem exists_rule {n : Node} (h : n.kind = .rule) :
    ∃ line origin selectors declarations, n = rule line origin selectors declarations := by
  cases n with
  | rule line origin selectors declarations => exact ⟨_, _, _, _, rfl⟩
  | importStatement line origin statement => exact absurd h (by simp [kind])
  | block line origin head reduced children => exact absurd h (kind_block_ne_rule _ _ _ _ _)

theorem exists_importStatement {n : Node} (h : n.isImport = true) :
    ∃ line origin statement, n = importStatement line origin statement := by
  cases n with
  | importStatement line origin statement => exact ⟨_, _, _, rfl⟩
  | rule line origin selectors declarations => exact absurd h (by simp [isImport])
  | block line origin head reduced children => exact absurd h (by simp [isImport])

/-! ## Induction -/

/-- Induction over the tree, with the hypothesis for every child of a block. -/
theorem ind {motive : Node → Prop}
    (rule : ∀ line origin selectors declarations, motive (.rule line origin selectors declarations))
    (importStatement : ∀ line origin statement, motive (.importStatement line origin statement))
    (block : ∀ line origin head reduced children, (∀ child ∈ children, motive child) →
      motive (.block line origin head reduced children)) :
    ∀ n, motive n
  | .rule line origin selectors declarations => rule line origin selectors declarations
  | .importStatement line origin statement => importStatement line origin statement
  | .block line origin head reduced children =>
    block line origin head reduced children fun child h =>
      have : child ∈ children := h
      ind rule importStatement block child

/-! ## Equality -/

mutual

/-- Equality of two trees, field by field. -/
def decEq : (a b : Node) → Decidable (a = b)
  | rule l o s d, rule l' o' s' d' =>
    if h : l = l' ∧ o = o' ∧ s = s' ∧ d = d' then
      isTrue (by obtain ⟨rfl, rfl, rfl, rfl⟩ := h; rfl)
    else
      isFalse fun e => h (by cases e; exact ⟨rfl, rfl, rfl, rfl⟩)
  | importStatement l o s, importStatement l' o' s' =>
    if h : l = l' ∧ o = o' ∧ s = s' then
      isTrue (by obtain ⟨rfl, rfl, rfl⟩ := h; rfl)
    else
      isFalse fun e => h (by cases e; exact ⟨rfl, rfl, rfl⟩)
  | block l o h r cs, block l' o' h' r' cs' =>
    if same : l = l' ∧ o = o' ∧ h = h' ∧ r = r' then
      match decEqAll cs cs' with
      | isTrue e => isTrue (by obtain ⟨rfl, rfl, rfl, rfl⟩ := same; rw [e])
      | isFalse ne => isFalse fun e => ne (by cases e; rfl)
    else
      isFalse fun e => same (by cases e; exact ⟨rfl, rfl, rfl, rfl⟩)
  | rule .., importStatement .. => isFalse nofun
  | rule .., block .. => isFalse nofun
  | importStatement .., rule .. => isFalse nofun
  | importStatement .., block .. => isFalse nofun
  | block .., rule .. => isFalse nofun
  | block .., importStatement .. => isFalse nofun

/-- Equality of two sibling lists. -/
def decEqAll : (as bs : List Node) → Decidable (as = bs)
  | [], [] => isTrue rfl
  | [], _ :: _ => isFalse nofun
  | _ :: _, [] => isFalse nofun
  | a :: as, b :: bs =>
    match decEq a b with
    | isTrue ha =>
      match decEqAll as bs with
      | isTrue has => isTrue (by rw [ha, has])
      | isFalse ne => isFalse fun e => ne (List.cons.inj e).2
    | isFalse ne => isFalse fun e => ne (List.cons.inj e).1

end

instance : DecidableEq Node := decEq

/-! ## Building -/

/-- The node with another origin. -/
def withOrigin (origin : List Nat) : Node → Node
  | rule line _ selectors declarations => rule line origin selectors declarations
  | importStatement line _ statement => importStatement line origin statement
  | block line _ head reduced children => block line origin head reduced children

/-- The node with `child` as a further, last child; a rule or an import is left as it is. -/
def push (n child : Node) : Node :=
  match n with
  | block line origin head reduced children => block line origin head reduced (children ++ [child])
  | rule .. | importStatement .. => n

/-- A node of the same kind, line and header that holds `children`, its origin yet unknown. -/
def rebuild (reduced : Nat) (children : List Node) : Node → Node
  | block line _ head _ _ => block line [] head reduced children
  | n@(rule ..) | n@(importStatement ..) => n.withOrigin []

theorem kind_push (n child : Node) : (n.push child).kind = n.kind := by
  cases n with
  | block _ _ head _ _ => cases head <;> rfl
  | _ => rfl

@[simp] theorem kind_withOrigin (origin : List Nat) (n : Node) :
    (n.withOrigin origin).kind = n.kind := by
  cases n with
  | block _ _ head _ _ => cases head <;> rfl
  | _ => rfl

@[simp] theorem headerText_withOrigin (origin : List Nat) (n : Node) :
    (n.withOrigin origin).headerText = n.headerText := by
  cases n with
  | block _ _ head _ _ => cases head <;> rfl
  | _ => rfl

@[simp] theorem origin_withOrigin (origin : List Nat) (n : Node) :
    (n.withOrigin origin).origin = origin := by cases n <;> rfl

/-! ## Sanity checks -/

example : (rule 1 [] [".a".toList] []).push emptySheet = rule 1 [] [".a".toList] [] := by decide
example : (emptySheet.push (rule 1 [] [] [])).children = [rule 1 [] [] []] := by decide
example : emptySheet ≠ block 0 [] .sheet 1 [] := by decide

end Node

end StyleFold
