/-
  Compressed — what a tree is like that both passes made.

  The second pass works on what the first one left, and undoes some of it: it sorts again, and it may
  give two rules the same selectors.  What survives of the first pass, and what the second one adds, is
  collected here for all later proofs about compressed trees.

  1. **Compression** — merging by header and then by content, of siblings and of trees.
  2. **Classes** — merging by header makes a node of each class that has the key of the class.
  3. **Levels** — every sibling list of a compressed tree is a compressed sibling list, so what holds of
     these at their top holds at all levels (`atAllLevels_compress`).
  4. **Order** — compressed siblings are arranged: the second pass sorts, and keeps the order of import
     statements and blocks that the first one gave them.
  5. **Keys** — compressed rules have different declarations, and compressed blocks different headers.
-/
import StyleFold.Proofs.Merge.Arranged

namespace StyleFold

open Node

/-! ## Compression

  One definition for siblings, which the passes recurse on, and one for trees. -/

/-- The siblings merged by header and then by content. -/
def compress (siblings : List Node) : Pass := SameContent.pass (SameHeader.pass siblings).children

/-- The tree merged by header and then by content. -/
def Node.compressed (tree : Node) : Node := tree.mergeByHeader.mergeByContent

/-- A compressed block holds its children merged by header and then by content. -/
theorem Node.compressed_block (line : Nat) (origin : List Nat) (head : Head) (reduced : Nat)
    (children : List Node) : (block line origin head reduced children).compressed =
      block line [] head (compress children).reduced (compress children).children := rfl

/-- Merging by content makes a pass of the children. -/
theorem Node.children_mergeByContent (tree : Node) :
    tree.mergeByContent.children = (SameContent.pass tree.children).children := by
  cases tree with
  | rule line origin selectors declarations => rfl
  | importStatement line origin statement => rfl
  | block line origin head reduced children => rfl

variable {siblings : List Node} {n : Node}

/-! ## Classes

  The sort of a pass goes by the texts of the nodes that it makes, so these have to be known for all
  kinds. -/

namespace SameHeader

/-- Imports stay imports. -/
theorem isImport_of_mem_imports (hn : n ∈ Sibling.imports siblings) : n.isImport = true := by
  obtain ⟨m, hm, rfl⟩ := List.mem_map.mp hn
  obtain ⟨line, origin, statement, he⟩ := exists_importStatement (List.mem_filter.mp hm).2
  rw [he]
  rfl

/-- A class becomes a node of its key. -/
theorem headerKey_fold {g : Group Sibling} (h : g.first.1.isImport = false) (inner : Pass) :
    (fold g inner).headerKey = g.first.1.headerKey := by
  cases hfirst : g.first.1 with
  | importStatement line origin statement =>
    rw [hfirst] at h
    exact absurd h (by simp [isImport])
  | rule line origin selectors declarations =>
    rw [fold, hfirst]
    exact congrArg (fun ss => (Kind.rule, Text.join ',' ss)) (Text.sort_sort selectors)
  | block line origin head reduced children =>
    rw [fold, hfirst]
    exact headerKey_block _ _ _ _ _ _ _ _ _

/-- No class of siblings is folded to an import. -/
theorem isImport_fold {g : Group Sibling} (hg : g ∈ classes siblings) (inner : Pass) :
    (fold g inner).isImport = false := by
  have hfirst := isImport_of_mem_members hg List.mem_cons_self
  exact (isImport_of_headerKey (headerKey_fold hfirst inner)).trans hfirst

/-- Merging by header puts the selectors of each node in order. -/
theorem selectors_of_mem_pass {n : Node} (hn : n ∈ (pass siblings).children) :
    Text.sort n.selectors = n.selectors := by
  rcases List.mem_append.mp ((pass_children_perm siblings).mem_iff.mp hn) with hn | hn
  · obtain ⟨line, origin, statement, rfl⟩ := exists_importStatement (isImport_of_mem_imports hn)
    rfl
  · obtain ⟨g, hg, rfl⟩ := List.mem_map.mp hn
    cases hfirst : g.first.1 with
    | importStatement line origin statement => rw [fold, hfirst]; rfl
    | rule line origin selectors declarations => rw [fold, hfirst]; exact Text.sort_sort selectors
    | block line origin head reduced children => rw [fold, hfirst]; rfl

end SameHeader

/-! ## Levels

  A property that every compressed list has at its top is one of all sibling lists in a compressed tree. -/

/-- What a node that merging by header made holds was made by merging by header. -/
theorem SameHeader.children_of_mem_pass (hn : n ∈ (SameHeader.pass siblings).children) :
    n.children = [] ∨ ∃ g ∈ SameHeader.classes siblings,
      n.children = (SameHeader.pass (SameHeader.union g)).children := by
  rcases List.mem_append.mp ((pass_children_perm siblings).mem_iff.mp hn) with hn | hn
  · obtain ⟨line, origin, statement, rfl⟩ := exists_importStatement (isImport_of_mem_imports hn)
    exact .inl rfl
  · obtain ⟨g, hg, rfl⟩ := List.mem_map.mp hn
    cases hfirst : g.first.1 with
    | importStatement line origin statement => rw [fold, hfirst]; exact .inl rfl
    | rule line origin selectors declarations => rw [fold, hfirst]; exact .inl rfl
    | block line origin head reduced children => rw [fold, hfirst]; exact .inr ⟨g, hg, rfl⟩

/-- What a node that merging by content made holds was made by merging what one node held. -/
theorem SameContent.children_of_mem_pass (hn : n ∈ (SameContent.pass siblings).children) :
    n.children = [] ∨ ∃ b ∈ siblings, n.children = (SameContent.pass b.children).children := by
  rcases List.mem_append.mp ((SameContent.pass_children_perm siblings).mem_iff.mp hn) with hn | hn
  · obtain ⟨m, hm, hkeep⟩ := List.mem_filterMap.mp hn
    have hmem := Sibling.mem_of_mem_all hm
    cases hnode : m.1 with
    | rule line origin selectors declarations =>
      rw [hnode] at hkeep
      exact absurd hkeep (by simp [SameContent.keep])
    | importStatement line origin statement =>
      rw [hnode] at hkeep
      obtain rfl := Option.some.inj hkeep
      exact .inl rfl
    | block line origin head reduced children =>
      rw [hnode] at hkeep hmem
      obtain rfl := Option.some.inj hkeep
      exact .inr ⟨_, hmem, rfl⟩
  · obtain ⟨g, hg, rfl⟩ := List.mem_map.mp hn
    exact .inl rfl

/-- What a compressed sibling holds is compressed. -/
theorem children_of_mem_compress (hn : n ∈ (compress siblings).children) : n.children = [] ∨
    ∃ g ∈ SameHeader.classes siblings, n.children = (compress (SameHeader.union g)).children := by
  rcases SameContent.children_of_mem_pass hn with h | ⟨b, hb, h⟩
  · exact .inl h
  · rcases SameHeader.children_of_mem_pass hb with hb | ⟨g, hg, hb⟩
    · exact .inl (h.trans (by rw [hb]; rfl))
    · exact .inr ⟨g, hg, h.trans (by rw [hb]; rfl)⟩

/-- What holds of all compressed siblings holds of them at all levels. -/
theorem atAllLevels_compress {P : List Node → Prop} (h : ∀ ns, P (compress ns).children)
    (siblings : List Node) : AtAllLevels P (compress siblings).children := by
  induction siblings using SameHeader.union_ind with
  | step siblings ih =>
    refine atAllLevels_iff.mpr ⟨h siblings, fun n hn => ?_⟩
    rcases children_of_mem_compress hn with hnil | ⟨g, hg, hunion⟩
    · rw [hnil]
      exact atAllLevels_nil (h [])
    · rw [hunion]
      exact ih g hg

/-- What holds of all siblings merged by content holds of them at all levels. -/
theorem SameContent.atAllLevels_pass {P : List Node → Prop} (h : ∀ ns, P (pass ns).children)
    (siblings : List Node) : AtAllLevels P (pass siblings).children := by
  induction siblings using children_ind with
  | step siblings ih =>
    refine atAllLevels_iff.mpr ⟨h siblings, fun n hn => ?_⟩
    rcases children_of_mem_pass hn with hnil | ⟨b, hb, hbelow⟩
    · rw [hnil]
      exact atAllLevels_nil (h [])
    · rw [hbelow]
      exact ih b hb

/-! ## Order

  Siblings stand in the order of their texts.  Where two have the same text it shows that the first pass
  begins its list with imports, and that the second one ends it with rules. -/

namespace SameHeader

/-- Merging by header puts import statements before others of the same text. -/
theorem imports_first_pass (siblings : List Node) : (pass siblings).children.Pairwise
    fun a b => a.headerText = b.headerText → b.isImport = true → a.isImport = true := by
  rw [pass_eq, assemble, List.map_map]
  refine Text.pairwise_sortOn (Text.pairwise_of_parts (fun a ha => isImport_of_mem_imports ha) ?_)
  intro a ha
  obtain ⟨g, hg, rfl⟩ := List.mem_map.mp ha
  exact isImport_fold hg _

end SameHeader

namespace SameContent

/-- What is kept is no rule, and has the key and the text of what it was. -/
theorem keep_spec {position : Nat} {inner : Pass} {m : Node} (h : keep position inner n = some m) :
    m.kind ≠ .rule ∧ m.headerKey = n.headerKey ∧ m.headerText = n.headerText := by
  cases n with
  | rule line origin selectors declarations => exact absurd h (by simp [keep])
  | importStatement line origin statement =>
    obtain rfl := Option.some.inj h
    exact ⟨by simp [withOrigin, kind], rfl, rfl⟩
  | block line origin head reduced children =>
    obtain rfl := Option.some.inj h
    exact ⟨kind_block_ne_rule _ _ _ _ _, headerKey_block _ _ _ _ _ _ _ _ _, by cases head <;> rfl⟩

/-- No rule is kept as it is. -/
theorem kind_of_mem_kept (hn : n ∈ kept siblings (passesBelow siblings)) : n.kind ≠ .rule := by
  rw [kept_eq] at hn
  obtain ⟨m, -, hkeep⟩ := List.mem_filterMap.mp hn
  exact (keep_spec hkeep).1

/-- Merging by content puts rules behind others of the same text. -/
theorem rules_last_pass (siblings : List Node) : (pass siblings).children.Pairwise fun a b =>
    a.headerText = b.headerText → (!(b.kind == .rule)) = true → (!(a.kind == .rule)) = true := by
  rw [pass, assemble]
  refine Text.pairwise_sortOn (Text.pairwise_of_parts (p := fun n : Node => !(n.kind == .rule)) ?_ ?_)
  · exact fun a ha => by simpa using kind_of_mem_kept ha
  · intro a ha
    obtain ⟨g, -, rfl⟩ := List.mem_map.mp ha
    rfl

/-- Merging by content keeps import statements before others of the same text. -/
theorem imports_first_pass (h : siblings.Pairwise fun a b =>
      a.headerText = b.headerText → b.isImport = true → a.isImport = true) :
    (pass siblings).children.Pairwise fun a b =>
      a.headerText = b.headerText → b.isImport = true → a.isImport = true := by
  have hkept : (kept siblings (passesBelow siblings)).Pairwise fun a b =>
      a.headerText = b.headerText → b.isImport = true → a.isImport = true := by
    rw [← Sibling.map_fst_all siblings, List.pairwise_map] at h
    rw [kept_eq, List.pairwise_filterMap]
    refine h.imp fun {a b} hab a' ha b' hb htext => ?_
    obtain ⟨-, hka, hta⟩ := keep_spec ha
    obtain ⟨-, hkb, htb⟩ := keep_spec hb
    rw [isImport_of_headerKey hka, isImport_of_headerKey hkb]
    exact hab (hta ▸ htb ▸ htext)
  rw [pass, assemble]
  refine Text.pairwise_sortOn (List.pairwise_append.mpr ⟨hkept, ?_, ?_⟩)
  · refine List.pairwise_of_forall_mem_list fun a _ b hb _ hi => ?_
    obtain ⟨g, -, rfl⟩ := List.mem_map.mp hb
    exact absurd hi (by simp [fold, isImport])
  · intro a _ b hb _ hi
    obtain ⟨g, -, rfl⟩ := List.mem_map.mp hb
    exact absurd hi (by simp [fold, isImport])

/-- The key of a rule lists its declarations, in another order. -/
theorem contentKey_perm (n : Node) : (contentKey n).Perm n.declarations :=
  (List.reverse_perm _).trans (Text.sortOn_perm id n.declarations)

/-- The key tells the declarations up to their order. -/
theorem contentKey_eq_iff {a b : Node} :
    contentKey a = contentKey b ↔ a.declarations.Perm b.declarations := by
  constructor
  · intro h
    exact (contentKey_perm a).symm.trans (h ▸ contentKey_perm b)
  · intro h
    rw [contentKey, contentKey, Text.sort_eq_of_perm h]

/-- A class becomes a rule of its key. -/
theorem contentKey_fold (g : Group Sibling) : contentKey (fold g) = contentKey g.first.1 := by
  rw [contentKey, fold, declarations, Text.sort_eq_of_perm (contentKey_perm g.first.1)]
  rfl

/-- Only rules have selectors and declarations. -/
theorem nothing_of_kind (h : n.kind ≠ .rule) : n.selectors = [] ∧ n.declarations = [] := by
  cases n with
  | rule line origin selectors declarations => exact absurd rfl h
  | importStatement line origin statement => exact ⟨rfl, rfl⟩
  | block line origin head reduced children => exact ⟨rfl, rfl⟩

/-- Merging by content puts the texts of each node in order. -/
theorem texts_of_mem_pass (hn : n ∈ (pass siblings).children) :
    Text.sort n.selectors = n.selectors ∧ contentKey n = n.declarations := by
  rcases List.mem_append.mp ((pass_children_perm siblings).mem_iff.mp hn) with hn | hn
  · rw [← kept_eq] at hn
    obtain ⟨hselectors, hdeclarations⟩ := nothing_of_kind (kind_of_mem_kept hn)
    rw [contentKey, hselectors, hdeclarations]
    exact ⟨rfl, rfl⟩
  · obtain ⟨g, -, rfl⟩ := List.mem_map.mp hn
    exact ⟨Text.sort_sort _, contentKey_fold g⟩

end SameContent

/-- Merging by content arranges the siblings. -/
theorem SameContent.arranged_pass (siblings : List Node) : Arranged (pass siblings).children where
  sorted := Text.sortedBy_sortOn _ _
  rules_last := rules_last_pass _
  selectors _ hn := (texts_of_mem_pass hn).1
  declarations _ hn := (texts_of_mem_pass hn).2

/-- Compressed siblings are arranged. -/
theorem arranged_compress (siblings : List Node) : Arranged (compress siblings).children where
  toArranged := SameContent.arranged_pass _
  imports_first := SameContent.imports_first_pass (SameHeader.imports_first_pass siblings)

/-! ## Keys

  Different keys are what the first pass leaves among blocks, and the second among rules. -/

namespace SameHeader

/-- Merging by header leaves no two siblings of one key. -/
theorem distinct_pass (siblings : List Node) : Distinct (pass siblings).children := by
  have hclasses : ((Sibling.imports siblings ++ (classes siblings).map fun g =>
      fold g (pass (union g))).filter fun n => !n.isImport) =
      (classes siblings).map fun g => fold g (pass (union g)) := by
    rw [List.filter_append, List.filter_eq_nil_iff.mpr, List.nil_append, List.filter_eq_self.mpr]
    · intro n hn
      obtain ⟨g, hg, rfl⟩ := List.mem_map.mp hn
      rw [isImport_fold hg]
      rfl
    · exact fun n hn => by simp [isImport_of_mem_imports hn]
  have hperm := ((pass_children_perm siblings).filter fun n => !n.isImport).map headerKey
  rw [hclasses, List.map_map] at hperm
  refine hperm.nodup_iff.mpr ?_
  have hkeys : (classes siblings).map (headerKey ∘ fun g => fold g (pass (union g))) =
      (classes siblings).map fun g => g.first.1.headerKey :=
    List.map_congr_left fun g hg => headerKey_fold (isImport_of_mem_members hg List.mem_cons_self) _
  rw [hkeys]
  exact Group.nodup_keys (fun m : Sibling => m.1.headerKey) _

end SameHeader

namespace SameContent

/-- The rules that merging by content leaves are those of the classes. -/
theorem rules_pass_perm (siblings : List Node) :
    ((pass siblings).children.filter fun n => n.kind == .rule).Perm ((classes siblings).map fold) := by
  have hrules : ((kept siblings (passesBelow siblings) ++ (classes siblings).map fold).filter
      fun n => n.kind == .rule) = (classes siblings).map fold := by
    rw [List.filter_append, List.filter_eq_nil_iff.mpr, List.nil_append, List.filter_eq_self.mpr]
    · intro n hn
      obtain ⟨g, -, rfl⟩ := List.mem_map.mp hn
      rfl
    · exact fun n hn => by simpa using kind_of_mem_kept hn
  have hperm := (pass_children_perm siblings).filter fun n => n.kind == .rule
  rwa [← kept_eq, hrules] at hperm

/-- Merging by content leaves no two rules of equal declarations. -/
theorem distinct_pass (siblings : List Node) : Distinct (pass siblings).children := by
  have hperm := (rules_pass_perm siblings).map contentKey
  rw [List.map_map] at hperm
  refine hperm.nodup_iff.mpr ?_
  have hkeys : contentKey ∘ fold = fun g : Group Sibling => contentKey g.first.1 :=
    funext contentKey_fold
  rw [hkeys]
  exact Group.nodup_keys (fun m : Sibling => contentKey m.1) _

end SameContent

end StyleFold
