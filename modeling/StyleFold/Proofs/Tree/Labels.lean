/-
  Labels — source lines, origins and counts, and trees compared without them.

  Where a node comes from says nothing about the style.  `Node.relabel` drops the origins and changes
  lines and counts; two trees are equal up to some of these labels if they are equal when these labels
  are dropped.

  1. **Relabelling**, and the two ways that are used: `plain` keeps the lines, `unplaced` the counts.
  2. **What is left alone** — everything that the passes look at, lines apart.
  3. **Printing** does not look at the labels either.
-/
import StyleFold.Merge.SameContent
import StyleFold.Print.Sheet

namespace StyleFold.Node

variable {onLine onReduced : Nat → Nat}

/-! ## Relabelling -/

mutual

/-- The tree without origins, all lines and counts changed. -/
def relabel (onLine onReduced : Nat → Nat) : Node → Node
  | rule line _ selectors declarations => rule (onLine line) [] selectors declarations
  | importStatement line _ statement => importStatement (onLine line) [] statement
  | block line _ head reduced children =>
    block (onLine line) [] head (onReduced reduced) (relabelAll onLine onReduced children)

/-- The siblings without origins, all lines and counts changed. -/
def relabelAll (onLine onReduced : Nat → Nat) : List Node → List Node
  | [] => []
  | n :: ns => n.relabel onLine onReduced :: relabelAll onLine onReduced ns

end

theorem relabelAll_eq_map : ∀ ns, relabelAll onLine onReduced ns = ns.map (relabel onLine onReduced)
  | [] => by rw [relabelAll]; rfl
  | n :: ns => by rw [relabelAll, relabelAll_eq_map ns]; rfl

theorem relabel_rule (line : Nat) (origin : List Nat) (selectors declarations : List Text) :
    (rule line origin selectors declarations).relabel onLine onReduced =
      rule (onLine line) [] selectors declarations := by rw [relabel]

theorem relabel_importStatement (line : Nat) (origin : List Nat) (statement : Text) :
    (importStatement line origin statement).relabel onLine onReduced =
      importStatement (onLine line) [] statement := by rw [relabel]

theorem relabel_block (line : Nat) (origin : List Nat) (head : Head) (reduced : Nat)
    (children : List Node) : (block line origin head reduced children).relabel onLine onReduced =
      block (onLine line) [] head (onReduced reduced) (children.map (relabel onLine onReduced)) := by
  rw [relabel, relabelAll_eq_map]

/-- The tree without origins and counts. -/
def plain (n : Node) : Node := n.relabel id fun _ => 0

/-- The tree without lines and origins. -/
def unplaced (n : Node) : Node := n.relabel (fun _ => 0) id

theorem plain_block (line reduced : Nat) (origin : List Nat) (head : Head) (children : List Node) :
    (block line origin head reduced children).plain = block line [] head 0 (children.map plain) :=
  relabel_block _ _ _ _ _

theorem plain_plain (n : Node) : n.plain.plain = n.plain := by
  induction n using Node.ind with
  | rule line origin selectors declarations => rw [plain, plain, relabel_rule, relabel_rule]; rfl
  | importStatement line origin statement =>
    rw [plain, plain, relabel_importStatement, relabel_importStatement]
    rfl
  | block line origin head reduced children ih =>
    rw [plain_block, plain_block, List.map_map]
    exact congrArg (block line [] head 0) (List.map_congr_left ih)

/-! ## What is left alone

  One lemma for each function that the passes and the printer apply to a node. -/

@[simp] theorem line_relabel (n : Node) :
    (n.relabel onLine onReduced).line = onLine n.line := by cases n <;> rw [relabel] <;> rfl

@[simp] theorem kind_relabel (n : Node) : (n.relabel onLine onReduced).kind = n.kind := by
  rcases n with _ | _ | ⟨_, _, _ | _, _, _⟩ <;> rw [relabel] <;> rfl

@[simp] theorem isImport_relabel (n : Node) : (n.relabel onLine onReduced).isImport = n.isImport := by
  cases n <;> rw [relabel] <;> rfl

@[simp] theorem headerText_relabel (n : Node) :
    (n.relabel onLine onReduced).headerText = n.headerText := by
  rcases n with _ | _ | ⟨_, _, _ | _, _, _⟩ <;> rw [relabel] <;> rfl

@[simp] theorem statement?_relabel (n : Node) :
    (n.relabel onLine onReduced).statement? = n.statement? := by cases n <;> rw [relabel] <;> rfl

@[simp] theorem selectors_relabel (n : Node) :
    (n.relabel onLine onReduced).selectors = n.selectors := by cases n <;> rw [relabel] <;> rfl

@[simp] theorem declarations_relabel (n : Node) :
    (n.relabel onLine onReduced).declarations = n.declarations := by cases n <;> rw [relabel] <;> rfl

@[simp] theorem children_relabel (n : Node) :
    (n.relabel onLine onReduced).children = n.children.map (relabel onLine onReduced) := by
  cases n with
  | block line origin head reduced children => rw [relabel_block]; rfl
  | _ => rw [relabel]; rfl

@[simp] theorem valueCount_relabel (n : Node) :
    (n.relabel onLine onReduced).valueCount = n.valueCount := by
  cases n with
  | block line origin head reduced children =>
    rw [relabel_block]
    exact List.length_map _
  | _ => rw [relabel]; rfl

/-- Keys do not see labels, so relabelled siblings are grouped as before. -/
@[simp] theorem headerKey_relabel (n : Node) :
    (n.relabel onLine onReduced).headerKey = n.headerKey := by
  rcases n with _ | _ | ⟨_, _, _ | _, _, _⟩ <;> rw [relabel] <;> rfl

/-- Nor do the keys of contents. -/
@[simp] theorem contentKey_relabel (n : Node) :
    SameContent.contentKey (n.relabel onLine onReduced) = SameContent.contentKey n := by
  rw [SameContent.contentKey, SameContent.contentKey, declarations_relabel]

@[simp] theorem relabel_withOrigin (origin : List Nat) (n : Node) :
    (n.withOrigin origin).relabel onLine onReduced = n.relabel onLine onReduced := by
  cases n <;> rw [withOrigin, relabel, relabel]

theorem withOrigin_relabel (origin : List Nat) {n : Node} (h : n.isImport = true) :
    (n.relabel id onReduced).withOrigin origin = n.withOrigin origin := by
  obtain ⟨line, o, statement, rfl⟩ := exists_importStatement h
  rw [relabel]
  rfl

theorem population_map {f : Node → Node} : ∀ {ns : List Node},
    (∀ n ∈ ns, (f n).descendants = n.descendants) → population (ns.map f) = population ns
  | [], _ => rfl
  | n :: ns, h => by
    obtain ⟨hn, hns⟩ := List.forall_mem_cons.mp h
    rw [List.map_cons, population_cons, population_cons, hn, population_map hns]

/-- Relabelling keeps all nodes. -/
@[simp] theorem descendants_relabel (n : Node) :
    (n.relabel onLine onReduced).descendants = n.descendants := by
  induction n using Node.ind with
  | rule line origin selectors declarations => rw [relabel_rule, descendants, descendants]
  | importStatement line origin statement => rw [relabel_importStatement, descendants, descendants]
  | block line origin head reduced children ih =>
    rw [relabel_block, descendants, descendants, population_map ih]

theorem population_relabel (ns : List Node) :
    population (ns.map (relabel onLine onReduced)) = population ns :=
  population_map fun n _ => descendants_relabel n

/-! ## Printing -/

theorem importLines_relabel (depth : Nat) (ns : List Node) :
    importLines depth (ns.map (relabel onLine onReduced)) = importLines depth ns := by
  rw [importLines, importLines, List.filterMap_map]
  simp only [Function.comp_def, statement?_relabel]

theorem otherLines_relabel (depth : Nat) : ∀ {ns : List Node},
    (∀ n ∈ ns, (n.relabel onLine onReduced).lines depth = n.lines depth) →
      otherLines depth (ns.map (relabel onLine onReduced)) = otherLines depth ns
  | [], _ => rfl
  | n :: ns, h => by
    have ih := otherLines_relabel depth fun m hm => h m (List.mem_cons_of_mem n hm)
    have hn := h n List.mem_cons_self
    cases n with
    | rule line origin selectors declarations =>
      rw [relabel_rule] at hn
      rw [List.map_cons, relabel_rule, otherLines, otherLines, ih, hn]
      all_goals exact fun _ _ _ h => Node.noConfusion h
    | importStatement line origin statement =>
      rw [List.map_cons, relabel_importStatement, otherLines, otherLines, ih]
    | block line origin head reduced children =>
      rw [relabel_block] at hn
      rw [List.map_cons, relabel_block, otherLines, otherLines, ih, hn]
      all_goals exact fun _ _ _ h => Node.noConfusion h

/-- The lines of a node are printed without its labels. -/
theorem lines_relabel (n : Node) : ∀ depth, (n.relabel onLine onReduced).lines depth = n.lines depth := by
  induction n using Node.ind with
  | rule line origin selectors declarations => intro depth; rw [relabel, lines, lines]
  | importStatement line origin statement => intro depth; rw [relabel, lines, lines]
  | block line origin head reduced children ih =>
    intro depth
    have hothers : ∀ d, otherLines d (children.map (relabel onLine onReduced)) =
        otherLines d children := fun d => otherLines_relabel d fun c hc => ih c hc d
    rw [relabel_block]
    cases head with
    | sheet => rw [lines, lines, importLines_relabel, hothers]
    | atRule kind header => rw [lines, lines, importLines_relabel, hothers]

/-- So the print of a tree does not show them. -/
@[simp] theorem print_relabel (layout : Layout) (n : Node) :
    (n.relabel onLine onReduced).print layout = n.print layout := by
  rw [print, print, bodyLines, bodyLines, children_relabel, importLines_relabel,
    otherLines_relabel 0 fun c _ => lines_relabel c 0]

/-- Only what a node holds is printed, up to labels. -/
theorem print_eq_of_children {layout : Layout} {a b : Node}
    (h : a.children.map (relabel onLine onReduced) = b.children.map (relabel onLine onReduced)) :
    a.print layout = b.print layout := by
  have hprint : ∀ n : Node, n.print layout =
      (importLines 0 (n.children.map (relabel onLine onReduced)) ++
        otherLines 0 (n.children.map (relabel onLine onReduced))).flatMap (Line.render layout) := by
    intro n
    rw [print, bodyLines, importLines_relabel, otherLines_relabel 0 fun c _ => lines_relabel c 0]
  rw [hprint a, hprint b, h]

end StyleFold.Node
