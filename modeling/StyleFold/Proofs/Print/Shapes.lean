/-
  Shapes — what a printed sheet tells of a tree, and what is read from it.

  Printing forgets lines, origins and counts, and puts imports in front.  So a printed sheet can at best
  be read back as a tree of the same shape with its imports last, for that is where a reader puts them.

  1. **Shapes** — lines, origins and counts are not printed; `Node.shape` forgets them.
  2. **Second readings** — a rule is printed with its selectors in front of the brace.  If they begin
     with the word of an at-rule, an at-rule is read there, and it is empty (`Node.reread`).
  3. **Rereadable nodes** — those that are read back as they are, each looked at alone
     (`Node.rereadable_iff`).
-/
import StyleFold.Proofs.Print.Passive
import StyleFold.Proofs.Tree.Levels

namespace StyleFold

/-- Whether the at-rule shows no mark in its header. -/
def Head.Inert : Head → Prop
  | sheet => True
  | atRule _ header => Text.Inert header

/-- Whether the word shows no mark, if it is not an import statement. -/
def Word.Inert : Word → Prop
  | selector t | declaration t => Text.Inert t
  | head h => h.Inert
  | statement _ => True

namespace Node

variable {P : Word → Prop} {line : Nat} {origin : List Nat}

/-! ## Shapes -/

mutual

/-- The node without line, origin and count, and so all below it. -/
def shape : Node → Node
  | rule _ _ selectors declarations => rule 0 [] selectors declarations
  | importStatement _ _ statement => importStatement 0 [] statement
  | block _ _ head _ children => block 0 [] head 0 (shapes children)

/-- The shapes of the siblings. -/
def shapes : List Node → List Node
  | [] => []
  | n :: ns => n.shape :: shapes ns

end

theorem shapes_eq_map : ∀ ns, shapes ns = ns.map shape
  | [] => by rw [shapes]; rfl
  | n :: ns => by rw [shapes, shapes_eq_map ns]; rfl

/-- The shape of a block has the shapes of its children. -/
theorem shape_block (line : Nat) (origin : List Nat) (head : Head) (reduced : Nat)
    (children : List Node) : (block line origin head reduced children).shape =
      block 0 [] head 0 (children.map shape) := by rw [shape, shapes_eq_map]

/-- The block with the import statements among its children behind the others. -/
def importsLast : Node → Node
  | block line origin head reduced children =>
    block line origin head reduced
      (children.filter (fun c => !c.isImport) ++ children.filter isImport)
  | n@(rule ..) | n@(importStatement ..) => n

/-- The shape has the words of the node. -/
theorem within_shape (n : Node) : n.shape.Within P ↔ n.Within P := by
  induction n using Node.ind with
  | rule line origin selectors declarations => rw [shape, within_rule_iff, within_rule_iff]
  | importStatement line origin statement =>
    rw [shape, within_importStatement_iff, within_importStatement_iff]
  | block line origin head reduced children ih =>
    rw [shape_block, within_block_iff, within_block_iff, List.forall_mem_map]
    exact and_congr_right fun _ => forall₂_congr ih

/-! ## Second readings

  This is what a reader makes of the line of a rule, by nothing but the words in front of its brace. -/

mutual

/-- The shape of what is read where the node was printed. -/
def reread : Node → Node
  | rule _ _ selectors declarations =>
    match AtKind.ofHeader? (Text.join ',' selectors) with
    | some kind => block 0 [] (.atRule kind (Text.join ',' selectors)) 0 []
    | none => rule 0 [] selectors declarations
  | importStatement _ _ statement => importStatement 0 [] statement
  | block _ _ head _ children => block 0 [] head 0 (rereads children)

/-- The shapes of what is read where the siblings were printed. -/
def rereads : List Node → List Node
  | [] => []
  | n :: ns => n.reread :: rereads ns

end

theorem rereads_eq_map : ∀ ns, rereads ns = ns.map reread
  | [] => by rw [rereads]; rfl
  | n :: ns => by rw [rereads, rereads_eq_map ns]; rfl

/-- A block is read again with its children. -/
theorem reread_block (line : Nat) (origin : List Nat) (head : Head) (reduced : Nat)
    (children : List Node) : (block line origin head reduced children).reread =
      block 0 [] head 0 (children.map reread) := by rw [reread, rereads_eq_map]

/-- A rule is read back as it is if its joined selectors open no at-rule. -/
theorem reread_rule_eq_shape_iff {selectors declarations : List Text} :
    (rule line origin selectors declarations).reread =
        (rule line origin selectors declarations).shape ↔
      AtKind.ofHeader? (Text.join ',' selectors) = none := by
  rw [reread, shape]
  cases AtKind.ofHeader? (Text.join ',' selectors) with
  | none => exact ⟨fun _ => rfl, fun _ => rfl⟩
  | some kind => exact ⟨fun h => absurd h (by simp), fun h => absurd h (by simp)⟩

/-! ## Rereadable nodes

  Whether a node is read back does not depend on where it stands. -/

/-- Whether the node itself, apart from what it holds, is read back as it is: none of its words shows
a mark, and if it is a rule, its selectors open no at-rule. -/
def Rereadable : Node → Prop
  | rule _ _ selectors declarations =>
    AtKind.ofHeader? (Text.join ',' selectors) = none ∧ (∀ s ∈ selectors, Text.Inert s) ∧
      ∀ d ∈ declarations, Text.Inert d
  | importStatement .. => True
  | block _ _ head _ _ => head.Inert

instance : (head : Head) → Decidable head.Inert
  | .sheet => inferInstanceAs (Decidable True)
  | .atRule _ header => inferInstanceAs (Decidable header.Inert)

instance : (n : Node) → Decidable n.Rereadable
  | rule _ _ selectors declarations => inferInstanceAs (Decidable
      (AtKind.ofHeader? (Text.join ',' selectors) = none ∧ (∀ s ∈ selectors, Text.Inert s) ∧
        ∀ d ∈ declarations, Text.Inert d))
  | importStatement .. => inferInstanceAs (Decidable True)
  | block _ _ head _ _ => inferInstanceAs (Decidable head.Inert)

/-- A tree of rereadable nodes is a tree whose words show no mark and that is read back in its shape. -/
theorem rereadable_iff (n : Node) :
    (∀ m ∈ n.preorder, m.Rereadable) ↔ n.Within Word.Inert ∧ n.reread = n.shape := by
  induction n using Node.ind with
  | rule line origin selectors declarations =>
    rw [preorder, List.forall_mem_singleton, within_rule_iff, reread_rule_eq_shape_iff]
    exact and_comm
  | importStatement line origin statement =>
    rw [preorder, List.forall_mem_singleton, within_importStatement_iff, reread, shape]
    exact ⟨fun _ => ⟨trivial, rfl⟩, fun _ => trivial⟩
  | block line origin head reduced children ih =>
    rw [forall_mem_preorder_block, within_block_iff, reread_block, shape_block]
    -- two blocks of one head have one shape if their children have
    have hmap : block 0 [] head 0 (children.map reread) = block 0 [] head 0 (children.map shape) ↔
        ∀ c ∈ children, c.reread = c.shape := by
      rw [← List.map_inj_left]
      exact ⟨fun h => by injection h, fun h => by rw [h]⟩
    rw [hmap]
    constructor
    · rintro ⟨hhead, h⟩
      have hboth : ∀ c ∈ children, c.Within Word.Inert ∧ c.reread = c.shape :=
        fun c hc => (ih c hc).mp (h c hc)
      exact ⟨⟨hhead, fun c hc => (hboth c hc).1⟩, fun c hc => (hboth c hc).2⟩
    · rintro ⟨⟨hhead, hwords⟩, hshape⟩
      exact ⟨hhead, fun c hc => (ih c hc).mpr ⟨hwords c hc, hshape c hc⟩⟩

end Node

end StyleFold
