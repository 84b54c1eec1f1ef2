/-
  Pass — what a merge pass makes of a sibling list.

  Both merge passes read a sibling list and give a new one in which every node names, in its origin, the
  siblings it was made from.  A `Pass` holds the new siblings in order of their header texts, the
  number of siblings that grouping took away, and the number of values (declarations, children or
  selectors) that were folded into an earlier sibling, here and below.

  Positions and counts are written while grouping, where they are known.  Nothing later goes back to the
  classes: a merged tree is read by its origins.
-/
import StyleFold.Event
import StyleFold.Merge.Group
import StyleFold.Tree.Edit
import StyleFold.Tree.Walk
import StyleFold.Counter

namespace StyleFold

/-- The outcome of a merge pass on a sibling list. -/
structure Pass where
  /-- The merged siblings, in order of their header texts. -/
  children : List Node := []
  /-- How many siblings grouping took away. -/
  reduced : Nat := 0
  /-- How many values were folded into an earlier sibling, at any depth. -/
  absorbed : Nat := 0
  deriving DecidableEq, Inhabited

/-- A node with its position among its siblings. -/
abbrev Sibling := Node × Nat

namespace Sibling

/-- The siblings of a list with their positions. -/
def all (siblings : List Node) : List Sibling := siblings.zipIdx

/-- The positions of the members of a class. -/
def positions (g : Group Sibling) : List Nat := g.members.map Prod.snd

/-- The import statements, each with its own position as origin. -/
def imports (siblings : List Node) : List Node :=
  ((all siblings).filter fun m => m.1.isImport).map fun m => m.1.withOrigin [m.2]

end Sibling

/-- The counts of all elements together. -/
def sumOver {α : Type} (count : α → Nat) (l : List α) : Nat := l.foldr (fun a n => count a + n) 0

@[simp] theorem sumOver_nil {α : Type} (count : α → Nat) : sumOver count [] = 0 := rfl

@[simp] theorem sumOver_cons {α : Type} (count : α → Nat) (a : α) (l : List α) :
    sumOver count (a :: l) = count a + sumOver count l := rfl

theorem sumOver_map {α β : Type} (count : β → Nat) (f : α → β) (l : List α) :
    sumOver count (l.map f) = sumOver (fun a => count (f a)) l := by
  rw [sumOver, List.foldr_map]
  rfl

/-- How many siblings the classes take away: all but the first of each. -/
def Group.takenAway (gs : List (Group Sibling)) : Nat := sumOver (fun g => g.others.length) gs

/-- Running totals over several passes. -/
structure MergeTotals where
  /-- Values folded into an earlier sibling, in the word that counts them. -/
  folded : Counter := 0
  deriving DecidableEq, Inhabited

/-- The number of values folded into an earlier sibling. -/
def MergeTotals.merged (totals : MergeTotals) : Nat := totals.folded.toNat

/-- The totals after one more pass. -/
def MergeTotals.add (totals : MergeTotals) (pass : Pass) : MergeTotals :=
  { totals with folded := totals.folded + UInt64.ofNat pass.absorbed }

/-- A pass adds the number of values that it folded, if the new total fits into a word. -/
theorem MergeTotals.merged_add {totals : MergeTotals} {pass : Pass}
    (h : totals.merged + pass.absorbed < UInt64.size) :
    (totals.add pass).merged = totals.merged + pass.absorbed := by
  have hword : totals.folded + UInt64.ofNat pass.absorbed = Counter.sum totals.merged pass.absorbed := by
    rw [Counter.sum, merged, UInt64.ofNat_toNat]
  rw [merged, add, hword, Counter.sum_eq_ofNat, UInt64.toNat_ofNat_of_lt' h]

/-- The tree whose root holds what the pass made of its children. -/
def Node.afterPass (tree : Node) (pass : Pass) : Node := tree.rebuild pass.reduced pass.children

/-- What a pass reports that made the tree `after` of the tree `before`. -/
def Node.mergeEvent (name : String) (before after : Node) : Event :=
  let originals := before.children.length
  let merged := after.children.length
  ⟨.debug, s!"{name} merge: {originals} -> {merged} top-level nodes ({after.reduced} reduced)"⟩

end StyleFold
