/-
  Views — a tree seen with other lines and other words.

  Two texts may have trees that differ in nothing but the lines of the nodes, or the blanks in their words.
  A view says what is seen of a line, and of a header, a selector or a declaration; all else is seen as it
  is.  Trees agree in a view if they are seen as the same tree.

  Views are composed, moved and compared, so that one theorem about building trees serves for comments,
  for texts in front, for line breaks and for literals.

  1. **Views** — the view of everything, the view without lines, the view with all lines raised, and a
     view of what is seen in another.
  2. **Seeing a node** — `Node.seen`; kinds, origins and counts are always seen.
  3. **Building** — a node that was changed is seen as the changed view of the node.
-/
import StyleFold.Tree.Edit

namespace StyleFold

/-! ## Views -/

/-- What is seen of the lines and of the words of a tree. -/
structure View where
  onLine : Nat → Nat := id
  /-- Of headers, selectors and declarations; import statements are seen as they are. -/
  onText : Text → Text := id

namespace View

/-- Everything is seen as it is. -/
def plain : View := {}

/-- No line is seen. -/
def unlined : View := { onLine := fun _ => 0 }

/-- Every line is seen `k` lines further down. -/
def raised (k : Nat) : View := { onLine := (· + k) }

/-- What the second view shows of what the first one shows. -/
def andThen (w v : View) : View := ⟨v.onLine ∘ w.onLine, v.onText ∘ w.onText⟩

end View

namespace Node

variable {w v : View} {line reduced : Nat} {origin : List Nat} {head : Head}
  {selectors declarations : List Text} {children : List Node}

/-! ## Seeing a node -/

/-- The head of a block in a view. -/
def seenHead (w : View) : Head → Head
  | .sheet => .sheet
  | .atRule kind header => .atRule kind (w.onText header)

mutual

/-- The node, and all below it, in a view. -/
def seen (w : View) : Node → Node
  | rule line origin selectors declarations =>
    rule (w.onLine line) origin (selectors.map w.onText) (declarations.map w.onText)
  | importStatement line origin statement => importStatement (w.onLine line) origin statement
  | block line origin head reduced children =>
    block (w.onLine line) origin (seenHead w head) reduced (seenAll w children)

/-- The siblings in a view. -/
def seenAll (w : View) : List Node → List Node
  | [] => []
  | n :: ns => n.seen w :: seenAll w ns

end

theorem seenAll_eq_map : ∀ ns, seenAll w ns = ns.map (seen w)
  | [] => by rw [seenAll]; rfl
  | n :: ns => by rw [seenAll, seenAll_eq_map ns]; rfl

theorem seen_rule : (rule line origin selectors declarations).seen w =
    rule (w.onLine line) origin (selectors.map w.onText) (declarations.map w.onText) := by rw [seen]

theorem seen_importStatement {statement : Text} : (importStatement line origin statement).seen w =
    importStatement (w.onLine line) origin statement := by rw [seen]

theorem seen_block : (block line origin head reduced children).seen w =
    block (w.onLine line) origin (seenHead w head) reduced (children.map (seen w)) := by
  rw [seen, seenAll_eq_map]

@[simp] theorem kind_seen (w : View) (n : Node) : (n.seen w).kind = n.kind := by
  rcases n with _ | _ | ⟨_, _, _ | _, _, _⟩ <;> rw [seen] <;> rfl

/-- In the plain view a node is itself. -/
theorem seen_plain (n : Node) : n.seen .plain = n := by
  induction n using Node.ind with
  | rule line origin selectors declarations =>
    rw [seen_rule]
    exact congr (congrArg _ (List.map_id _)) (List.map_id _)
  | importStatement line origin statement => rw [seen_importStatement]; rfl
  | block line origin head reduced children ih =>
    have hchildren : children.map (seen .plain) = children :=
      (List.map_congr_left ih).trans (List.map_id _)
    rw [seen_block, hchildren]
    cases head <;> rfl

theorem map_seen_plain (ns : List Node) : ns.map (seen .plain) = ns :=
  (List.map_congr_left fun n _ => seen_plain n).trans (List.map_id _)

/-- A view of a view. -/
theorem seen_seen (w v : View) (n : Node) : (n.seen w).seen v = n.seen (w.andThen v) := by
  induction n using Node.ind with
  | rule line origin selectors declarations =>
    rw [seen_rule, seen_rule, seen_rule, List.map_map, List.map_map]
    rfl
  | importStatement line origin statement =>
    rw [seen_importStatement, seen_importStatement, seen_importStatement]
    rfl
  | block line origin head reduced children ih =>
    have hchildren : (children.map (seen w)).map (seen v) = children.map (seen (w.andThen v)) := by
      rw [List.map_map]
      exact List.map_congr_left ih
    rw [seen_block, seen_block, seen_block, hchildren]
    cases head <;> rfl

/-- Seeing twice is seeing in both views at once. -/
theorem map_seen_seen (w v : View) (ns : List Node) :
    (ns.map (seen w)).map (seen v) = ns.map (seen (w.andThen v)) := by
  rw [List.map_map]
  exact List.map_congr_left fun n _ => seen_seen w v n

/-! ## Building

  What a brace does to a tree in the making can be seen in any view. -/

/-- A child that is pushed is seen among the children. -/
theorem seen_push (n child : Node) : (n.push child).seen w = (n.seen w).push (child.seen w) := by
  cases n with
  | rule line origin selectors declarations => rw [push, seen_rule]; rfl
  | importStatement line origin statement => rw [push, seen_importStatement]; rfl
  | block line origin head reduced children =>
    rw [push, seen_block, seen_block, List.map_append]
    rfl

/-- Declarations that are put into a rule are seen in it. -/
theorem seen_withDeclarations (declarations : List Text) (n : Node) :
    (n.withDeclarations declarations).seen w =
      (n.seen w).withDeclarations (declarations.map w.onText) := by
  cases n with
  | rule line origin selectors _ => rw [withDeclarations, seen_rule, seen_rule]; rfl
  | importStatement line origin statement => rw [withDeclarations, seen_importStatement]; rfl
  | block line origin head reduced children => rw [withDeclarations, seen_block]; rfl

end Node

end StyleFold
