/-
  Idempotent — merging by content a second time finds nothing to do.

  What the pass leaves is in an order that is not that of its groups: rules are sorted by their
  selectors and were grouped by their declarations.  So a second pass sees the same classes in another
  order, and it matters that each of them is a single rule by then.

  1. **Nothing folded** — where no two rules of a sibling list have the same declarations, at any level,
     no value is folded into an earlier sibling.
  2. **The second pass** — what merging by content leaves is arranged and distinct at all levels, so it
     stays as it is, and no node is taken away.
  3. **Trees** — a second merge changes only origins, and sets all counts to zero
     (`mergeByContent_idempotent`).
-/
import StyleFold.Proofs.Merge.Compressed

namespace StyleFold

open Node

namespace SameContent

/-! ## Nothing folded

  The values that a class takes in are those of all its members but the first. -/

/-- Rules of different declarations are classes of their own, which take nothing in. -/
theorem takenIn_of_distinct {siblings : List Node} (h : Distinct siblings) :
    ∀ g ∈ classes siblings, takenIn g = 0 := by
  intro g hg
  rw [classes, Group.groups_of_nodup (Sibling.nodup_keys (p := fun n => n.kind == .rule) h)] at hg
  obtain ⟨m, -, rfl⟩ := List.mem_map.mp hg
  rfl

/-- Where all rules have different declarations, nothing is folded into an earlier sibling. -/
theorem absorbed_of_distinct (siblings : List Node) : AtAllLevels Distinct siblings →
    (pass siblings).absorbed = 0 := by
  induction siblings using children_ind with
  | step siblings ih =>
    intro hdistinct
    obtain ⟨hhere, hbelow⟩ := atAllLevels_iff.mp hdistinct
    have hclasses : sumOver takenIn (classes siblings) = 0 := sumOver_eq_zero (takenIn_of_distinct hhere)
    have hinner : sumOver (fun inner => inner.absorbed) (passesBelow siblings) = 0 := by
      rw [passesBelow_eq, sumOver_map]
      exact sumOver_eq_zero fun n hn => ih n hn (hbelow n hn)
    show sumOver takenIn (classes siblings) + _ = 0
    omega

/-! ## The second pass

  It finds its siblings distinct and arranged, at every level, and so changes nothing but origins. -/

/-- No two rules of one content are left, at any level. -/
theorem distinct_at_all_levels (siblings : List Node) : AtAllLevels Distinct (pass siblings).children :=
  atAllLevels_pass distinct_pass siblings

/-- What the pass leaves stays as it is. -/
theorem pass_pass (siblings : List Node) :
    (pass (pass siblings).children).children.map plain = (pass siblings).children.map plain :=
  pass_of_distinct _ (distinct_at_all_levels siblings) (atAllLevels_pass arranged_pass siblings)

/-- The second pass takes no node away. -/
theorem population_pass_pass (siblings : List Node) :
    population (pass (pass siblings).children).children = population (pass siblings).children := by
  calc population (pass (pass siblings).children).children
      = population ((pass (pass siblings).children).children.map plain) := (population_relabel _).symm
    _ = population ((pass siblings).children.map plain) := by rw [pass_pass]
    _ = population (pass siblings).children := population_relabel _

/-- The second pass folds nothing into an earlier sibling. -/
theorem absorbed_pass_pass (siblings : List Node) : (pass (pass siblings).children).absorbed = 0 :=
  absorbed_of_distinct _ (distinct_at_all_levels siblings)

end SameContent

/-! ## Trees

  The same of trees, with the count that every block then has, and the totals that are handed through. -/

namespace Node

/-- A second merge by content changes no more than origins and counts. -/
theorem plain_mergeByContent_mergeByContent (tree : Node) :
    tree.mergeByContent.mergeByContent.plain = tree.mergeByContent.plain := by
  cases tree with
  | rule line origin selectors declarations => rfl
  | importStatement line origin statement => rfl
  | block line origin head reduced children =>
    have htwice := SameContent.pass_pass children
    exact (plain_block _ _ _ _ _).trans ((congrArg (block line [] head 0) htwice).trans
      (plain_block _ _ _ _ _).symm)

/-- Merging by content is idempotent: a second merge leaves the tree as it is but for origins and counts,
counts nothing at any depth, and adds nothing to the totals that it is given. -/
theorem mergeByContent_idempotent (tree : Node) (totals : MergeTotals) :
    tree.mergeByContent.mergeByContent.plain = tree.mergeByContent.plain ∧
      (∀ n ∈ tree.mergeByContent.mergeByContent.preorder, n.reduced = 0) ∧
      (tree.mergeByContent.mergeByContentWith totals).2 = totals := by
  refine ⟨plain_mergeByContent_mergeByContent tree, ?_, ?_⟩
  · apply reduced_afterPass (SameContent.sources_pass tree.mergeByContent.children)
    rw [children_mergeByContent]
    exact SameContent.population_pass_pass tree.children
  · show totals.add (SameContent.pass tree.mergeByContent.children) = totals
    rw [children_mergeByContent, MergeTotals.add, SameContent.absorbed_pass_pass tree.children]
    exact congrArg MergeTotals.mk (UInt64.add_zero totals.folded)

end Node

end StyleFold
