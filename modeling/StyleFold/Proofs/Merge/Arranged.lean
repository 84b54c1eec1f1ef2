/-
  Arranged — sibling lists that a merge pass leaves as they are.

  A pass leaves a list as it is for two reasons together: there is nothing to group, and the list is
  already in the order in which the pass puts it.  Both have to hold at every level, and both are kept
  apart here, since different facts give the one and the other.

  1. **Distinct keys** — a pass that counts nothing found no two siblings of one key, at any level.
  2. **Arranged lists** — siblings in the order in which both passes put them, with the texts of each in
     the order in which the passes write them.
  3. **Nothing to do** — an arranged list of distinct keys stays as it is, up to origins and counts.
-/
import StyleFold.Proofs.Merge.Balance
import StyleFold.Proofs.Merge.Positionless

namespace StyleFold

open Node

/-! ## Distinct keys

  The number that a pass reports is zero only if every class was a single sibling. -/

/-- Whether merging by header finds nothing to merge among the siblings. -/
def SameHeader.Distinct (siblings : List Node) : Prop :=
  ((siblings.filter fun n => !n.isImport).map headerKey).Nodup

/-- Whether merging by content finds nothing to merge among the siblings. -/
def SameContent.Distinct (siblings : List Node) : Prop :=
  ((siblings.filter fun n => n.kind == .rule).map contentKey).Nodup

/-- Different keys of nodes are different keys of siblings. -/
theorem Sibling.nodup_keys {κ : Type} {key : Node → κ} {p : Node → Bool} {siblings : List Node}
    (h : ((siblings.filter p).map key).Nodup) :
    (((Sibling.all siblings).filter fun m => p m.1).map fun m => key m.1).Nodup := by
  rw [← map_fst_filter, List.map_map] at h
  exact h

namespace SameHeader

variable {siblings : List Node}

/-- A sibling that shares its key with no other is folded alone. -/
theorem fold_mem_of_distinct (h : Distinct siblings) {n : Node} (hn : n ∈ siblings)
    (hother : n.isImport = false) : ∃ g : Group Sibling,
      g.first.1 = n ∧ union g = n.children ∧ fold g (pass (union g)) ∈ (pass siblings).children := by
  obtain ⟨position, hmem⟩ : ∃ position, (n, position) ∈ Sibling.all siblings := by
    rw [← Sibling.map_fst_all siblings] at hn
    obtain ⟨m, hm, rfl⟩ := List.mem_map.mp hn
    exact ⟨m.2, hm⟩
  have hg : (⟨(n, position), []⟩ : Group Sibling) ∈ classes siblings := by
    rw [classes, Group.groups_of_nodup (Sibling.nodup_keys (p := fun n => !n.isImport) h)]
    exact List.mem_map.mpr ⟨(n, position), List.mem_filter.mpr ⟨hmem, by simp [hother]⟩, rfl⟩
  refine ⟨⟨(n, position), []⟩, rfl, List.flatMap_singleton _ _, ?_⟩
  exact (pass_children_perm siblings).mem_iff.mpr (List.mem_append_right _ (List.mem_map_of_mem hg))

/-- A pass that counts nothing found no two siblings of one key. -/
theorem distinct_of_totalReduced (siblings : List Node) : (pass siblings).reduced = 0 →
    totalReduced (pass siblings).children = 0 → AtAllLevels Distinct siblings := by
  induction siblings using SameContent.children_ind with
  | step siblings ih =>
    intro hreduced htotal
    -- Nothing was taken away here, so the keys are distinct and every class is the node it began
    -- with.
    have hdistinct : Distinct siblings := by
      rw [pass_reduced] at hreduced
      have h := Group.nodup_of_takenAway hreduced
      rw [Distinct, ← Sibling.map_fst_filter, List.map_map]
      exact h
    refine atAllLevels_iff.mpr ⟨hdistinct, fun n hn => ?_⟩
    cases hnode : n with
    | rule line origin selectors declarations => exact atAllLevels_nil List.nodup_nil
    | importStatement line origin statement => exact atAllLevels_nil List.nodup_nil
    | block line origin head reduced children =>
      obtain ⟨g, hfirst, hunion, hmem⟩ := fold_mem_of_distinct hdistinct hn (by rw [hnode]; rfl)
      have hfold := reduced_of_totalReduced htotal _ hmem
      rw [fold, hfirst, hnode, hunion, hnode] at hfold
      have hn := ih n hn
      rw [hnode] at hn
      exact hn hfold.1 hfold.2

end SameHeader

/-! ## Arranged lists

  Both passes sort stably by header text, so the order that they sort from shows only among siblings of
  one text; what they write into rules is sorted as well. -/

/-- Whether the siblings stand as merging by content leaves them: in order of their header texts, where
among those of one text rules come last; selectors in order, declarations in descending order. -/
structure SameContent.Arranged (siblings : List Node) : Prop where
  sorted : Text.SortedBy headerText siblings
  rules_last : siblings.Pairwise fun a b =>
    a.headerText = b.headerText → (!(b.kind == .rule)) = true → (!(a.kind == .rule)) = true
  selectors : ∀ n ∈ siblings, Text.sort n.selectors = n.selectors
  declarations : ∀ n ∈ siblings, SameContent.contentKey n = n.declarations

/-- Whether the siblings stand as both passes leave them: as merging by content does, and among those of
one text import statements come first. -/
structure Arranged (siblings : List Node) : Prop extends SameContent.Arranged siblings where
  imports_first : siblings.Pairwise fun a b =>
    a.headerText = b.headerText → b.isImport = true → a.isImport = true

/-! ## Nothing to do

  Grouping leaves distinct siblings alone, and a stable sort leaves a sorted list alone. -/

namespace SameHeader

/-- Merging by header leaves an arranged list of distinct keys as it is. -/
theorem pass_of_distinct (siblings : List Node) : AtAllLevels Distinct siblings →
    AtAllLevels Arranged siblings → (pass siblings).children.map plain = siblings.map plain := by
  induction siblings using SameContent.children_ind with
  | step siblings ih =>
    intro hdistinct harranged
    obtain ⟨hnodup, hdistinct⟩ := atAllLevels_iff.mp hdistinct
    obtain ⟨horder, harranged⟩ := atAllLevels_iff.mp harranged
    -- Every class is one node, so folding it only sorts its selectors, which are sorted, and
    -- descends.
    have hfold : ∀ n ∈ siblings.filter fun n => !n.isImport,
        foldLabelled id (fun _ => 0) ⟨n, []⟩ = n.plain := by
      intro n hn
      have hmem := (List.mem_filter.mp hn).1
      cases hnode : n with
      | rule line origin selectors declarations =>
        have hselectors : Text.sort selectors = selectors := by
          have := horder.selectors n hmem
          rwa [hnode] at this
        have hall : (Group.mk (rule line origin selectors declarations) []).members.flatMap
            Node.declarations = declarations := List.flatMap_singleton _ _
        rw [plain, relabel_rule, foldLabelled, hall]
        exact congrArg (fun ss => rule line [] ss declarations) hselectors
      | importStatement line origin statement => rfl
      | block line origin head reduced children =>
        have hchildren := ih n hmem (hdistinct n hmem) (harranged n hmem)
        rw [hnode] at hchildren
        have hunion : (Group.mk (block line origin head reduced children) []).members.flatMap
            Node.children = children := List.flatMap_singleton _ _
        rw [plain, relabel_block, foldLabelled, hunion]
        exact congrArg _ hchildren
    have hclasses : (Group.groups headerKey (siblings.filter fun n => !n.isImport)).map
        (foldLabelled id fun _ => 0) = (siblings.filter fun n => !n.isImport).map plain := by
      rw [Group.groups_of_nodup hnodup, List.map_map]
      exact List.map_congr_left hfold
    -- Classes of one member come back in order, and sorting by header leaves what is sorted.
    show (pass siblings).children.map (relabel id fun _ => 0) = _
    rw [relabel_pass, hclasses]
    show Text.sortOn headerText ((siblings.filter isImport).map plain ++ _) = _
    rw [← List.map_append, ← Text.map_sortOn (f := plain) fun n => headerText_relabel n,
      Text.sortOn_parts horder.sorted horder.imports_first]

end SameHeader

namespace SameContent

/-- Merging by content leaves an arranged list of distinct keys as it is. -/
theorem pass_of_distinct (siblings : List Node) : AtAllLevels Distinct siblings →
    AtAllLevels Arranged siblings → (pass siblings).children.map plain = siblings.map plain := by
  induction siblings using children_ind with
  | step siblings ih =>
    intro hdistinct harranged
    obtain ⟨hnodup, hdistinct⟩ := atAllLevels_iff.mp hdistinct
    obtain ⟨horder, harranged⟩ := atAllLevels_iff.mp harranged
    have hkept : ∀ n ∈ siblings.filter fun n => !(n.kind == .rule),
        keepLabelled id (fun _ => 0) n = n.plain := by
      intro n hn
      have hmem := (List.mem_filter.mp hn).1
      cases hnode : n with
      | rule line origin selectors declarations => rfl
      | importStatement line origin statement => rfl
      | block line origin head reduced children =>
        have hchildren := ih n hmem (hdistinct n hmem) (harranged n hmem)
        rw [hnode] at hchildren
        rw [plain, relabel_block, keepLabelled]
        exact congrArg _ hchildren
    have hfold : ∀ n ∈ siblings.filter fun n => n.kind == .rule,
        foldLabelled id ⟨n, []⟩ = n.plain := by
      intro n hn
      obtain ⟨hmem, hrule⟩ := List.mem_filter.mp hn
      have hselectors := horder.selectors n hmem
      have hdeclarations := horder.declarations n hmem
      obtain ⟨line, origin, selectors, declarations, rfl⟩ := exists_rule (by simpa using hrule)
      have hall : (Group.mk (rule line origin selectors declarations) []).members.flatMap
          Node.selectors = selectors := List.flatMap_singleton _ _
      rw [plain, relabel_rule, foldLabelled, hall, hdeclarations]
      exact congrArg (fun ss => rule line [] ss declarations) hselectors
    have hclasses : (Group.groups contentKey (siblings.filter fun n => n.kind == .rule)).map
        (foldLabelled id) = (siblings.filter fun n => n.kind == .rule).map plain := by
      rw [Group.groups_of_nodup hnodup, List.map_map]
      exact List.map_congr_left hfold
    -- among siblings of one text the rules stand last, as they are put
    have hparts := Text.sortOn_parts horder.sorted horder.rules_last
    simp only [Bool.not_not] at hparts
    show (pass siblings).children.map (relabel id fun _ => 0) = _
    rw [relabel_pass, hclasses, List.map_congr_left hkept, ← List.map_append,
      ← Text.map_sortOn (f := plain) fun n => headerText_relabel n, hparts]

end SameContent

end StyleFold
