/-
  Partition — both passes divide the siblings that they read into classes of equal key.

  The origins of a merged tree are its only record of what was merged with what.  That they can be
  relied on, no sibling being left out or named twice and none going together with another that has a
  different key, is what the verification of a merge presupposes.

  1. **Cells** — the position of each sibling that stays alone, and the positions of each class of the
     others.  A cell is not empty and ascends, the cells together hold every position once, and two
     positions share a cell if and only if neither sibling stays alone and their keys are equal.
  2. **Divided siblings** — what the origins of a merged sibling list tell, when they are the cells of
     its originals (`Divides`).
  3. **The passes** — the origins that each pass writes are the cells under its key.
  4. **Trees** — so it is at every level of a merged tree (`merges_divide`).
-/
import StyleFold.Proofs.Merge.Compressed
import StyleFold.Proofs.Merge.Lineage

namespace StyleFold

/-! ## Cells

  The division of the positions that the keys give, before anything is made of it. -/

namespace Sibling

variable {κ : Type} [DecidableEq κ]

/-- The positions that belong together: each sibling that stays alone, and each class of the others. -/
def cells (alone : Node → Bool) (key : Node → κ) (siblings : List Node) : List (List Nat) :=
  ((all siblings).filter fun m => alone m.1).map (fun m => [m.2]) ++
    (Group.groups (fun m : Sibling => key m.1)
      ((all siblings).filter fun m => !alone m.1)).map positions

variable {alone : Node → Bool} {key : Node → κ} {siblings : List Node} {cell : List Nat}

/-- The siblings are numbered by their positions. -/
theorem map_snd_all (siblings : List Node) :
    (all siblings).map Prod.snd = List.range siblings.length := by
  rw [all, List.zipIdx_map_snd, List.range_eq_range']

/-- The positions of siblings that stand in a list in this order ascend. -/
theorem pairwise_positions {ms : List Sibling} (h : ms.Sublist (all siblings)) :
    (ms.map Prod.snd).Pairwise (· < ·) := by
  have hrange : ((all siblings).map Prod.snd).Pairwise (· < ·) := by
    rw [map_snd_all]
    exact List.pairwise_lt_range
  exact hrange.sublist (h.map Prod.snd)

/-- A class takes its members out of the siblings, in their order. -/
theorem members_sublist_all {g : Group Sibling}
    (hg : g ∈ Group.groups (fun m : Sibling => key m.1)
      ((all siblings).filter fun m => !alone m.1)) : g.members.Sublist (all siblings) :=
  (Group.members_sublist _ hg).trans List.filter_sublist

/-- No cell is empty. -/
theorem ne_nil_of_mem_cells (h : cell ∈ cells alone key siblings) : cell ≠ [] := by
  rcases List.mem_append.mp h with h | h
  · obtain ⟨m, -, rfl⟩ := List.mem_map.mp h
    exact List.cons_ne_nil _ _
  · obtain ⟨g, -, rfl⟩ := List.mem_map.mp h
    exact List.cons_ne_nil _ _

/-- The positions of a cell ascend. -/
theorem pairwise_of_mem_cells (h : cell ∈ cells alone key siblings) : cell.Pairwise (· < ·) := by
  rcases List.mem_append.mp h with h | h
  · obtain ⟨m, -, rfl⟩ := List.mem_map.mp h
    exact List.pairwise_singleton _ _
  · obtain ⟨g, hg, rfl⟩ := List.mem_map.mp h
    exact pairwise_positions (members_sublist_all hg)

/-- The cells hold every position once. -/
theorem flatten_cells_perm (alone : Node → Bool) (key : Node → κ) (siblings : List Node) :
    (cells alone key siblings).flatten.Perm (List.range siblings.length) := by
  have hsingles : (((all siblings).filter fun m => alone m.1).map fun m => [m.2]).flatten =
      ((all siblings).filter fun m => alone m.1).map Prod.snd := by
    rw [← List.flatMap_def, ← List.map_eq_flatMap]
  have hclasses : ((Group.groups (fun m : Sibling => key m.1)
        ((all siblings).filter fun m => !alone m.1)).map positions).flatten.Perm
      (((all siblings).filter fun m => !alone m.1).map Prod.snd) := by
    have hmembers := (Group.flatMap_members_perm (fun m : Sibling => key m.1)
      ((all siblings).filter fun m => !alone m.1)).map Prod.snd
    rw [List.map_flatMap] at hmembers
    exact hmembers
  have hcut := (List.filter_append_perm (fun m : Sibling => alone m.1) (all siblings)).map Prod.snd
  rw [List.map_append, map_snd_all] at hcut
  rw [cells, List.flatten_append, hsingles]
  exact (hclasses.append_left _).trans hcut

/-- Two positions share a cell if neither sibling stays alone and their keys are equal, and not otherwise. -/
theorem exists_cell_iff {i j : Nat} {a b : Node} (hij : i ≠ j) (ha : siblings[i]? = some a)
    (hb : siblings[j]? = some b) : (∃ cell ∈ cells alone key siblings, i ∈ cell ∧ j ∈ cell) ↔
      alone a = false ∧ alone b = false ∧ key a = key b := by
  have hmem : ∀ {m : Sibling} {c : Node}, m ∈ all siblings → siblings[m.2]? = some c → m.1 = c := by
    intro m c hm hc
    exact Option.some.inj ((getElem?_of_mem_all hm).symm.trans hc)
  constructor
  · rintro ⟨cell, hcell, hi, hj⟩
    -- A cell is one import or one class: the first has a single position, the second one key.
    rcases List.mem_append.mp hcell with hcell | hcell
    · obtain ⟨m, -, rfl⟩ := List.mem_map.mp hcell
      rw [List.mem_singleton] at hi hj
      exact absurd (hi.trans hj.symm) hij
    · obtain ⟨g, hg, rfl⟩ := List.mem_map.mp hcell
      obtain ⟨m, hm, rfl⟩ := List.mem_map.mp hi
      obtain ⟨m', hm', rfl⟩ := List.mem_map.mp hj
      obtain ⟨hall, halone⟩ := List.mem_filter.mp (Group.mem_of_mem_members hg hm)
      obtain ⟨hall', halone'⟩ := List.mem_filter.mp (Group.mem_of_mem_members hg hm')
      obtain rfl := hmem hall ha
      obtain rfl := hmem hall' hb
      refine ⟨by simpa using halone, by simpa using halone', ?_⟩
      exact (Group.key_eq hg hm).trans (Group.key_eq hg hm').symm
  · rintro ⟨halone, halone', hkey⟩
    have hmem_filter : ∀ {k : Nat} {c : Node}, siblings[k]? = some c → alone c = false →
        (c, k) ∈ (all siblings).filter fun m => !alone m.1 := by
      intro k c hc hlone
      exact List.mem_filter.mpr ⟨List.mem_zipIdx_iff_getElem?.mpr hc, by simp [hlone]⟩
    have hma := hmem_filter ha halone
    have hmb := hmem_filter hb halone'
    obtain ⟨g, hg, hfirst⟩ : ∃ g ∈ Group.groups (fun m : Sibling => key m.1)
        ((all siblings).filter fun m => !alone m.1), key g.first.1 = key a := Group.exists_of_mem hma
    have hmembers := Group.members_eq_filter hg
    refine ⟨positions g, List.mem_append_right _ (List.mem_map_of_mem hg), ?_, ?_⟩
    · refine List.mem_map.mpr ⟨(a, i), ?_, rfl⟩
      rw [hmembers]
      exact List.mem_filter.mpr ⟨hma, by simp [hfirst]⟩
    · refine List.mem_map.mpr ⟨(b, j), ?_, rfl⟩
      rw [hmembers]
      exact List.mem_filter.mpr ⟨hmb, by simp [hfirst, hkey]⟩

end Sibling

/-! ## Divided siblings

  The clauses of `Divides` follow from the origins being the cells, whatever nodes bear them. -/

namespace Node

/-- The children of the node divide the siblings they were made from: every sibling goes into one child,
and two go into one child if and only if they belong together. -/
structure Divides (together : Node → Node → Prop) (siblings : List Node) (n : Node) : Prop where
  /-- Every child was made from something. -/
  origin_ne_nil : ∀ child ∈ n.children, child.origin ≠ []
  /-- Origins ascend strictly. -/
  increasing : ∀ child ∈ n.children, child.origin.Pairwise (· < ·)
  /-- No position is named by two children. -/
  disjoint : n.children.Pairwise fun a b => a.origin.Disjoint b.origin
  /-- The positions named are those of the siblings. -/
  covers : ∀ i, (∃ child ∈ n.children, i ∈ child.origin) ↔ i < siblings.length
  /-- What was taken away makes up the number of the siblings. -/
  length_eq : n.children.length + n.reduced = siblings.length
  /-- An import statement was made from one sibling. -/
  origin_of_import : ∀ child ∈ n.children, child.isImport = true → ∃ i, child.origin = [i]
  /-- Two siblings went into one child if and only if they belong together. -/
  shared_iff : ∀ {i j : Nat} {a b : Node}, i ≠ j → siblings[i]? = some a → siblings[j]? = some b →
    ((∃ child ∈ n.children, i ∈ child.origin ∧ j ∈ child.origin) ↔ together a b)
  /-- Children stand in order of their header texts. -/
  sorted : Text.SortedBy headerText n.children

/-- Children whose origins are the cells of the siblings divide them. -/
theorem Divides.of_cells {κ : Type} [DecidableEq κ] {alone : Node → Bool} {key : Node → κ}
    {together : Node → Node → Prop} {siblings : List Node} {n : Node}
    (horigins : (n.children.map origin).Perm (Sibling.cells alone key siblings))
    (hlength : siblings.length = n.children.length + n.reduced)
    (himport : ∀ child ∈ n.children, child.isImport = true → ∃ i, child.origin = [i])
    (htogether : ∀ a b, alone a = false ∧ alone b = false ∧ key a = key b ↔ together a b)
    (hsorted : Text.SortedBy headerText n.children) : n.Divides together siblings := by
  have hcell : ∀ child ∈ n.children, child.origin ∈ Sibling.cells alone key siblings :=
    fun child hchild => horigins.mem_iff.mp (List.mem_map_of_mem hchild)
  -- What is said of some child's origin is said of some cell, and the origins are the cells in
  -- another order.
  have hexists : ∀ P : List Nat → Prop, (∃ child ∈ n.children, P child.origin) ↔
      ∃ cell ∈ Sibling.cells alone key siblings, P cell := by
    intro P
    simp only [← horigins.mem_iff, List.mem_map]
    grind
  have hflat := horigins.flatten.trans (Sibling.flatten_cells_perm alone key siblings)
  refine ⟨?_, ?_, ?_, ?_, hlength.symm, himport, ?_, hsorted⟩
  · intro child hchild
    exact Sibling.ne_nil_of_mem_cells (hcell child hchild)
  · intro child hchild
    exact Sibling.pairwise_of_mem_cells (hcell child hchild)
  · have hnodup := hflat.nodup_iff.mpr List.nodup_range
    exact List.pairwise_map.mp (List.nodup_flatten.mp hnodup).2
  · intro i
    rw [← List.mem_range, ← hflat.mem_iff, List.mem_flatten]
    simp only [List.mem_map]
    grind
  · intro i j a b hij ha hb
    rw [hexists fun cell => i ∈ cell ∧ j ∈ cell, Sibling.exists_cell_iff hij ha hb]
    exact htogether a b

end Node

open Node

/-! ## The passes

  Both passes write cells into origins; they differ in which siblings stay alone, and in the key. -/

namespace SameHeader

variable {siblings : List Node}

/-- Siblings that merging by header puts into one node: none is an import statement, and they have the
same kind and the same header. -/
def Together (a b : Node) : Prop :=
  a.isImport = false ∧ b.isImport = false ∧ a.headerKey = b.headerKey

/-- Merging by header writes the cells of equal header keys. -/
theorem origins_pass (siblings : List Node) : ((pass siblings).children.map origin).Perm
    (Sibling.cells isImport headerKey siblings) := by
  have horigins := (pass_children_perm siblings).map origin
  rw [List.map_append, Sibling.imports, List.map_map, List.map_map] at horigins
  have hsingles : origin ∘ (fun m : Sibling => m.1.withOrigin [m.2]) = fun m => [m.2] :=
    funext fun m => origin_withOrigin _ _
  have hclasses : (origin ∘ fun g => fold g (pass (union g))) = Sibling.positions :=
    funext fun g => origin_fold g _
  rwa [hsingles, hclasses] at horigins

/-- An import that a merge by header leaves comes from one sibling. -/
theorem origin_of_import (child : Node) (hchild : child ∈ (pass siblings).children)
    (h : child.isImport = true) : ∃ i, child.origin = [i] := by
  rcases List.mem_append.mp ((pass_children_perm siblings).mem_iff.mp hchild) with hn | hn
  · obtain ⟨m, -, rfl⟩ := List.mem_map.mp hn
    exact ⟨m.2, origin_withOrigin _ _⟩
  · obtain ⟨g, hg, rfl⟩ := List.mem_map.mp hn
    rw [isImport_fold hg] at h
    exact absurd h Bool.false_ne_true

/-- What holds the merge of siblings by header divides them. -/
theorem divides_of_holds {n : Node} (h : n.Holds (pass siblings)) : n.Divides Together siblings := by
  have hlength := (accounts_pass siblings).length_eq
  obtain ⟨hchildren, hreduced⟩ := h
  rw [← hchildren, ← hreduced] at hlength
  refine Divides.of_cells (hchildren ▸ origins_pass siblings) hlength ?_ (fun a b => Iff.rfl) ?_
  · rw [hchildren]
    exact origin_of_import
  · rw [hchildren, pass_eq]
    exact Text.sortedBy_sortOn _ _

end SameHeader

namespace SameContent

variable {siblings : List Node}

/-- Siblings that merging by content puts into one node: both are rules, and they have the same
declarations, in any order. -/
def Together (a b : Node) : Prop :=
  a.kind = .rule ∧ b.kind = .rule ∧ a.declarations.Perm b.declarations

/-- A sibling that is kept names itself as its origin. -/
theorem map_origin_kept (inner : Node → Pass) (ms : List Sibling) :
    (ms.filterMap fun m => keep m.2 (inner m.1) m.1).map origin =
      (ms.filter fun m => !(m.1.kind == .rule)).map fun m => [m.2] := by
  rw [filterMap_keep, List.map_map]
  exact List.map_congr_left fun m _ => origin_withOrigin _ _

/-- Merging by content writes the cells of equal declarations, where only rules are put together. -/
theorem origins_pass (siblings : List Node) : ((pass siblings).children.map origin).Perm
    (Sibling.cells (fun n => !(n.kind == .rule)) contentKey siblings) := by
  have horigins := (pass_children_perm siblings).map origin
  rw [List.map_append, map_origin_kept fun n => pass n.children, List.map_map] at horigins
  simp only [Sibling.cells, Bool.not_not]
  exact horigins

/-- An import that a merge by content leaves comes from one sibling. -/
theorem origin_of_import (child : Node) (hchild : child ∈ (pass siblings).children)
    (h : child.isImport = true) : ∃ i, child.origin = [i] := by
  rcases List.mem_append.mp ((pass_children_perm siblings).mem_iff.mp hchild) with hn | hn
  · have horigin := List.mem_map_of_mem (f := origin) hn
    rw [map_origin_kept fun n => pass n.children] at horigin
    obtain ⟨m, -, hm⟩ := List.mem_map.mp horigin
    exact ⟨m.2, hm.symm⟩
  · obtain ⟨g, -, rfl⟩ := List.mem_map.mp hn
    exact absurd h Bool.false_ne_true

/-- What holds the merge of siblings by content divides them. -/
theorem divides_of_holds {n : Node} (h : n.Holds (pass siblings)) : n.Divides Together siblings := by
  have hlength := (accounts_pass siblings).length_eq
  obtain ⟨hchildren, hreduced⟩ := h
  rw [← hchildren, ← hreduced] at hlength
  refine Divides.of_cells (hchildren ▸ origins_pass siblings) hlength ?_ ?_ ?_
  · rw [hchildren]
    exact origin_of_import
  · intro a b
    simp only [Together, contentKey_eq_iff, Bool.not_eq_false', beq_iff_eq]
  · rw [hchildren]
    exact Text.sortedBy_sortOn _ _

end SameContent

/-! ## Trees

  At depth the siblings that are divided are those of the union, which a lineage tells. -/

/-- At every level of a merged tree the children divide the siblings that their lineage tells, by header
after the one pass and by content after the other. -/
theorem Node.merges_divide (tree : Node) :
    (∀ siblings n, Lineage tree.children tree.mergeByHeader siblings n →
      n.Divides SameHeader.Together siblings) ∧
    ∀ siblings n, Lineage tree.children tree.mergeByContent siblings n →
      n.Divides SameContent.Together siblings := by
  constructor
  · intro siblings n h
    exact SameHeader.divides_of_holds h.holds_mergeByHeader
  · intro siblings n h
    exact SameContent.divides_of_holds h.holds_mergeByContent

/-- Two blocks of one header on both sides of an import statement. -/
def Node.scatteredBlocks : Node :=
  block 0 [] .sheet 0
    [block 1 [] (.atRule .media "@media p".toList) 0 [rule 1 [] [".a".toList] ["x:1".toList]],
      importStatement 2 [] "@import a;".toList,
      block 3 [] (.atRule .media "@media p".toList) 0
        [rule 3 [] [".b".toList] ["x:1".toList], rule 4 [] [".a".toList] ["y:2".toList]]]

/-- The one block that merging by header makes of them. -/
def Node.gatheredBlock : Node :=
  block 1 [0, 2] (.atRule .media "@media p".toList) 1
    [rule 1 [0, 2] [".a".toList] ["x:1".toList, "y:2".toList],
      rule 3 [1] [".b".toList] ["x:1".toList]]

/-- The gathered block stands at the top of the merged tree and comes from the first and the third
sibling. -/
theorem Node.lineage_gatheredBlock : Lineage scatteredBlocks.children scatteredBlocks.mergeByHeader
    (unionAt scatteredBlocks.children [0, 2]) gatheredBlock := by
  have hmem : gatheredBlock ∈ scatteredBlocks.mergeByHeader.children := by decide
  exact .child hmem (.self _ _)

/-- Both merges at depth: the gathered block divides the children of the two that it was made of, and a
media block that is kept divides its own. -/
theorem Node.merges_divide_scatteredBlocks :
    (∃ siblings, Lineage scatteredBlocks.children scatteredBlocks.mergeByHeader siblings gatheredBlock ∧
      siblings.length = 3 ∧ gatheredBlock.Divides SameHeader.Together siblings) ∧
    ∃ siblings n, Lineage scatteredBlocks.children scatteredBlocks.mergeByContent siblings n ∧
      n.kind = .media ∧ n.origin = [2] ∧ siblings.length = 2 ∧
        n.Divides SameContent.Together siblings := by
  constructor
  · have h := lineage_gatheredBlock
    exact ⟨_, h, rfl, (merges_divide scatteredBlocks).1 _ _ h⟩
  · have hmem : block 3 [2] (.atRule .media "@media p".toList) 0
        [rule 4 [1] [".a".toList] ["y:2".toList], rule 3 [0] [".b".toList] ["x:1".toList]] ∈
          scatteredBlocks.mergeByContent.children := by decide
    have h : Lineage scatteredBlocks.children scatteredBlocks.mergeByContent _ _ :=
      .child hmem (.self _ _)
    exact ⟨_, _, h, rfl, rfl, by decide, (merges_divide scatteredBlocks).2 _ _ h⟩

end StyleFold
