/-
  Lineage — which siblings each sibling list of a merged tree was made from.

  The origin of a merged node names the siblings it was made from, and what it holds was made from all
  that these hold.  So origins lead from the root of a merged tree to each of its nodes, and on the
  way they tell the originals of every sibling list.

  This is how positions are to be read, everywhere: a position in the origin of a node belongs to the
  siblings that the sibling list of the node was made from, and these are given by the origin of the
  node around it.

  1. **Unions** — what the siblings at some positions hold.
  2. **Lineages** — at or below `post`, whose children were made from `originals`, stands `n`, whose
     children were made from `siblings` (`Lineage originals post siblings n`).
  3. **The passes** — what a node holds that a pass made is what the pass makes of the union that the
     origin of the node names; and so it is along every lineage.
-/
import Mathlib.Data.List.Basic
import StyleFold.Proofs.Merge.Tally
import StyleFold.Proofs.Merge.Verified

namespace StyleFold

/-! ## Unions

  What is gathered of the children of several siblings, in the order in which an origin names them. -/

namespace Node

/-- All that the siblings at the positions hold, one sibling after another. -/
def unionAt (siblings : List Node) (positions : List Nat) : List Node :=
  (positions.filterMap fun i => siblings[i]?).flatMap children

/-- The union of the positions of some siblings are the children of those siblings. -/
theorem unionAt_members {siblings : List Node} {ms : List Sibling}
    (h : ∀ m ∈ ms, m ∈ Sibling.all siblings) :
    unionAt siblings (ms.map Prod.snd) = ms.flatMap fun m => m.1.children := by
  have hfound : (ms.map Prod.snd).filterMap (fun i => siblings[i]?) = ms.map Prod.fst := by
    rw [List.filterMap_map, ← List.filterMap_eq_map]
    exact List.filterMap_congr fun m hm => Sibling.getElem?_of_mem_all (h m hm)
  rw [unionAt, hfound, List.flatMap_map]

/-- The union of one position are the children of the sibling there. -/
theorem unionAt_singleton {siblings : List Node} {m : Sibling} (h : m ∈ Sibling.all siblings) :
    unionAt siblings [m.2] = m.1.children := by
  rw [unionAt, List.filterMap_cons_some (Sibling.getElem?_of_mem_all h), List.filterMap_nil,
    List.flatMap_singleton]

/-! ## Lineages

  The relation that leads from the root to a node and carries its originals along. -/

/-- At or below `post`, whose children were made from `originals`, stands `n`, whose children were made
from `siblings`. -/
inductive Lineage : List Node → Node → List Node → Node → Prop
  | self (originals : List Node) (post : Node) : Lineage originals post originals post
  | child {originals siblings : List Node} {post child n : Node} (hchild : child ∈ post.children)
      (h : Lineage (unionAt originals child.origin) child siblings n) :
      Lineage originals post siblings n

/-- Whether the node holds what the pass left. -/
structure Holds (n : Node) (p : Pass) : Prop where
  children_eq : n.children = p.children
  reduced_eq : n.reduced = p.reduced

/-- If each node that a pass makes holds what the pass makes of the union named, so it is along every
lineage. -/
theorem Lineage.holds {pass : List Node → Pass} {originals siblings : List Node} {post n : Node}
    (hstep : ∀ {ns : List Node} {child : Node}, child ∈ (pass ns).children →
      child.Holds (pass (unionAt ns child.origin)))
    (h : Lineage originals post siblings n) (hpost : post.Holds (pass originals)) :
    n.Holds (pass siblings) := by
  induction h with
  | self originals post => exact hpost
  | child hchild _ ih => exact ih (hstep (hpost.children_eq ▸ hchild))

end Node

open Node

/-! ## The passes

  A pass makes every node hold the merge of its union, and the recursion of the pass makes that true
  below as well; so a statement about one pass of one list becomes one about a whole merged tree. -/

/-- Another origin does not change what a node holds. -/
theorem Node.Holds.withOrigin {n : Node} {p : Pass} {origin : List Nat} (h : n.Holds p) :
    (n.withOrigin origin).Holds p := by
  obtain ⟨hchildren, hreduced⟩ := h
  cases n with
  | rule line origin selectors declarations => exact ⟨hchildren, hreduced⟩
  | importStatement line origin statement => exact ⟨hchildren, hreduced⟩
  | block line origin head reduced children => exact ⟨hchildren, hreduced⟩

/-- A node holds the pass over its children behind it, if nothing is left of nothing. -/
theorem Node.holds_afterPass {pass : List Node → Pass}
    (hnil : (pass []).children = [] ∧ (pass []).reduced = 0) (tree : Node) :
    (tree.afterPass (pass tree.children)).Holds (pass tree.children) := by
  cases tree with
  | rule line origin selectors declarations => exact ⟨hnil.1.symm, hnil.2.symm⟩
  | importStatement line origin statement => exact ⟨hnil.1.symm, hnil.2.symm⟩
  | block line origin head reduced children => exact ⟨rfl, rfl⟩

/-- What a tree merged by header holds is the outcome of the pass. -/
theorem SameHeader.holds_afterPass (tree : Node) :
    (tree.afterPass (pass tree.children)).Holds (pass tree.children) :=
  Node.holds_afterPass ⟨rfl, rfl⟩ tree

/-- What a tree merged by content holds is the outcome of the pass. -/
theorem SameContent.holds_afterPass (tree : Node) :
    (tree.afterPass (pass tree.children)).Holds (pass tree.children) :=
  Node.holds_afterPass ⟨rfl, rfl⟩ tree

namespace SameHeader

variable {siblings : List Node} {n : Node}

/-- A node that merging by header made holds the merge of the union that its origin names. -/
theorem holds_of_mem_pass (hn : n ∈ (pass siblings).children) :
    n.Holds (pass (unionAt siblings n.origin)) := by
  rcases List.mem_append.mp ((pass_children_perm siblings).mem_iff.mp hn) with hn | hn
  · obtain ⟨m, hm, rfl⟩ := List.mem_map.mp hn
    obtain ⟨hall, himport⟩ := List.mem_filter.mp hm
    obtain ⟨line, origin, statement, he⟩ := exists_importStatement himport
    rw [origin_withOrigin, unionAt_singleton hall, he]
    exact ⟨rfl, rfl⟩
  · obtain ⟨g, hg, rfl⟩ := List.mem_map.mp hn
    have hunion : unionAt siblings (Sibling.positions g) = union g :=
      unionAt_members fun m hm => mem_all_of_mem_members hg hm
    rw [origin_fold, hunion]
    cases hfirst : g.first.1 with
    | importStatement line origin statement =>
      have := isImport_of_mem_members hg (List.mem_cons_self (a := g.first))
      rw [hfirst] at this
      exact absurd this (by simp [isImport])
    | rule line origin selectors declarations =>
      rw [fold, hfirst, union_of_rule hfirst fun m hm => Group.key_eq hg hm]
      exact ⟨rfl, rfl⟩
    | block line origin head reduced children =>
      rw [fold, hfirst]
      exact ⟨rfl, rfl⟩

end SameHeader

namespace SameContent

variable {siblings : List Node} {n : Node}

/-- A node that merging by content made holds the merge of what its one original holds. -/
theorem holds_of_mem_pass (hn : n ∈ (pass siblings).children) :
    n.Holds (pass (unionAt siblings n.origin)) := by
  rcases List.mem_append.mp ((pass_children_perm siblings).mem_iff.mp hn) with hn | hn
  · rw [filterMap_keep fun n => pass n.children] at hn
    obtain ⟨m, hm, rfl⟩ := List.mem_map.mp hn
    rw [origin_withOrigin, unionAt_singleton (List.mem_filter.mp hm).1]
    exact (holds_afterPass m.1).withOrigin
  · obtain ⟨g, hg, rfl⟩ := List.mem_map.mp hn
    have hunion : unionAt siblings (Sibling.positions g) = [] := by
      refine (unionAt_members fun m hm => mem_all_of_mem_members hg hm).trans ?_
      refine List.flatMap_eq_nil_iff.mpr fun m hm => ?_
      obtain ⟨line, origin, selectors, declarations, he⟩ := exists_rule (kind_of_mem_members hg hm)
      rw [he]
      rfl
    exact hunion ▸ ⟨rfl, rfl⟩

end SameContent

namespace Node

variable {tree n : Node} {siblings : List Node}

/-- In a tree merged by header every node holds the merge of the siblings that its lineage tells. -/
theorem Lineage.holds_mergeByHeader (h : Lineage tree.children tree.mergeByHeader siblings n) :
    n.Holds (SameHeader.pass siblings) :=
  h.holds SameHeader.holds_of_mem_pass (SameHeader.holds_afterPass tree)

/-- In a tree merged by content every node holds the merge of the siblings that its lineage tells. -/
theorem Lineage.holds_mergeByContent (h : Lineage tree.children tree.mergeByContent siblings n) :
    n.Holds (SameContent.pass siblings) :=
  h.holds SameContent.holds_of_mem_pass (SameContent.holds_afterPass tree)

end Node

end StyleFold
