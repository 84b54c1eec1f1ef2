/-
  SameHeader — siblings with the same header become one node.

  This is the first pass.  It makes one node of several that stand under the same header, and what they
  held is merged in turn; so blocks from different places of the source come together, with their rules.

  1. **Classes** — nodes other than imports are grouped by kind and header.  The header of a rule counts
     as its sorted selectors, so that their order does not matter.
  2. **Folding** — a class of rules becomes a rule with the selectors of the first, sorted, and the
     declarations of all in order.  A class of blocks becomes a block that holds the merge of all
     their children; a deeper origin therefore counts positions in that union.
  3. **The pass** — imports go through one by one; the result is sorted by header text.  The recursion is
     on a bound for the number of levels, so that it computes by unfolding; `pass_eq` is the equation
     without the bound.
-/
import StyleFold.Merge.Pass

namespace StyleFold

namespace Node

/-- The declarations of a rule. -/
def declarations : Node → List Text
  | rule _ _ _ declarations => declarations
  | importStatement .. | block .. => []

/-- The selectors of a rule. -/
def selectors : Node → List Text
  | rule _ _ selectors _ => selectors
  | importStatement .. | block .. => []

/-- Nodes of equal key are merged: kind and header, where a rule counts with sorted selectors. -/
def headerKey : Node → Kind × Text
  | rule _ _ selectors _ => (.rule, Text.join ',' (Text.sort selectors))
  | n@(importStatement ..) | n@(block ..) => (n.kind, n.headerText)

/-- How many values the node brings into its class. -/
def valueCount : Node → Nat
  | rule _ _ _ declarations => declarations.length
  | n@(importStatement ..) | n@(block ..) => n.children.length

end Node

namespace SameHeader

/-! ## Classes -/

/-- The classes of siblings that are merged. -/
def classes (siblings : List Node) : List (Group Sibling) :=
  Group.groups (fun m : Sibling => m.1.headerKey)
    ((Sibling.all siblings).filter fun m => !m.1.isImport)

/-- The children of all members, one member after another. -/
def union (g : Group Sibling) : List Node := g.members.flatMap fun m => m.1.children

theorem population_sublist {as bs : List Node} (h : as.Sublist bs) :
    Node.population as ≤ Node.population bs := by
  induction h with
  | slnil => exact Nat.le_refl _
  | cons a _ ih => simp only [Node.population_cons]; omega
  | cons_cons a _ ih => simp only [Node.population_cons]; omega

theorem population_flatMap_children (ms : List Sibling) :
    Node.population (ms.flatMap fun m => m.1.children) + ms.length =
      Node.population (ms.map Prod.fst) := by
  induction ms with
  | nil => simp
  | cons m ms ih =>
    simp only [List.flatMap_cons, Node.population_append, List.length_cons, List.map_cons,
      Node.population_cons, Node.descendants_eq_population]
    omega

/-- The members of a class are siblings. -/
theorem members_map_fst_sublist {siblings : List Node} {g : Group Sibling}
    (h : g ∈ classes siblings) : (g.members.map Prod.fst).Sublist siblings := by
  have hs : g.members.Sublist siblings.zipIdx :=
    (Group.members_sublist _ h).trans List.filter_sublist
  have hm := hs.map Prod.fst
  rwa [List.zipIdx_map_fst] at hm

/-- The union of a class is smaller than the sibling list, for its members are left out. -/
theorem population_union_lt {siblings : List Node} {g : Group Sibling} (h : g ∈ classes siblings) :
    Node.population (union g) < Node.population siblings := by
  have hle := population_sublist (members_map_fst_sublist h)
  have heq := population_flatMap_children g.members
  have hpos : 0 < g.members.length := by simp [Group.members]
  simp only [union]
  omega

/-! ## Folding -/

/-- The node that a class becomes, `inner` being the merge of the union of its children. -/
def fold (g : Group Sibling) (inner : Pass) : Node :=
  match g.first.1 with
  | .rule line _ selectors _ =>
    .rule line (Sibling.positions g) (Text.sort selectors)
      (g.members.flatMap fun m => m.1.declarations)
  | first@(.importStatement ..) | first@(.block ..) =>
    (first.afterPass inner).withOrigin (Sibling.positions g)

/-- How many values a class takes in from all but its first member. -/
def takenIn (g : Group Sibling) : Nat := sumOver (fun m => m.1.valueCount) g.others

/-! ## The pass -/

/-- The outcome for a sibling list, from its classes and the merges of their unions. -/
def assemble (siblings : List Node) (merged : List (Group Sibling × Pass)) : Pass where
  children := Node.sortSiblings (Sibling.imports siblings ++ merged.map fun p => fold p.1 p.2)
  reduced := Group.takenAway (merged.map Prod.fst)
  absorbed := sumOver (fun p => takenIn p.1 + p.2.absorbed) merged

/-- Merge a sibling list by header, at every depth, as far as `fuel` levels of unions reach. -/
def passWithin : Nat → List Node → Pass
  | 0, _ => {}
  | fuel + 1, siblings =>
    assemble siblings ((classes siblings).map fun g => (g, passWithin fuel (union g)))

/-- Merge a sibling list by header, at every depth.  A union is smaller than the list it comes from, so
    there are no more levels than nodes. -/
def pass (siblings : List Node) : Pass := passWithin (Node.population siblings) siblings

/-- Fuel beyond the number of nodes changes nothing. -/
theorem passWithin_eq_pass : ∀ (fuel : Nat) (siblings : List Node),
    Node.population siblings ≤ fuel → passWithin fuel siblings = pass siblings := by
  -- Any two bounds that suffice give the same pass; the induction is on one of them, with the other
  -- arbitrary.
  suffices same : ∀ (n m : Nat) (siblings : List Node), Node.population siblings ≤ n →
      Node.population siblings ≤ m → passWithin n siblings = passWithin m siblings from
    fun fuel siblings h => same fuel _ siblings h (Nat.le_refl _)
  intro n
  induction n with
  | zero =>
    intro m siblings hn _
    cases siblings with
    | nil => cases m <;> rfl
    | cons a l => rw [Node.population_cons] at hn; omega
  | succ n ih =>
    intro m siblings hn hm
    cases m with
    | zero =>
      cases siblings with
      | nil => rfl
      | cons a l => rw [Node.population_cons] at hm; omega
    | succ m =>
      rw [passWithin, passWithin]
      refine congrArg (assemble siblings) (List.map_congr_left fun g hg => ?_)
      -- Below a class there are fewer nodes than in it, so both bounds still suffice.
      have hlt := population_union_lt hg
      rw [ih m (union g) (by omega) (by omega)]

/-- The pass in one step: group the siblings, and merge the union of each class. -/
theorem pass_eq (siblings : List Node) :
    pass siblings = assemble siblings ((classes siblings).map fun g => (g, pass (union g))) := by
  cases siblings with
  | nil => rfl
  | cons a l =>
    rw [← passWithin_eq_pass (Node.population (a :: l) + 1) (a :: l) (by omega), passWithin]
    refine congrArg (assemble (a :: l)) (List.map_congr_left fun g hg => ?_)
    have hlt := population_union_lt hg
    rw [passWithin_eq_pass _ (union g) (by omega)]

end SameHeader

namespace Node

/-- The tree with its siblings merged by header. -/
def mergeByHeader (tree : Node) : Node := tree.afterPass (SameHeader.pass tree.children)

/-- The tree with its siblings merged by header, and the totals with what was folded in the meantime. -/
def mergeByHeaderWith (totals : MergeTotals) (tree : Node) : Node × MergeTotals :=
  let pass := SameHeader.pass tree.children
  (tree.afterPass pass, totals.add pass)

end Node

end StyleFold
