/-
  Selectors — merging by header folds rules exactly when their selectors agree.

  The key of a rule is its sorted selectors joined with commas, and joining tells the selectors only if
  each of them is one item.  The selectors of a parsed sheet are, so there the key is as good as the list.

  A comma may stand in a literal inside of a selector, so the joined text of two selectors may be that
  of one. It never is for selectors that came out of splitting a header, for these show no comma outside
  of literals.

  1. **Lineages of regular nodes** — the siblings that a lineage tells are made of the words of the
     originals.
  2. **Keys** — regular rules have one key if and only if their selectors are the same up to order.
  3. **Folded rules** — rules go into one node if and only if their selectors agree, and that node has the
     selectors of each of them (`FoldsRules`).
  4. **Parsed sheets** — so it is at every level of a parsed tree that is merged by header.
-/
import StyleFold.Proofs.Merge.Partition
import StyleFold.Proofs.Merge.Regular

namespace StyleFold

namespace Node

variable {P : Word → Prop} {n m : Node} {originals siblings : List Node}

/-! ## Lineages of regular nodes

  Merged trees are made of the words of the originals, so what was regular stays so along a lineage. -/

/-- What holds of the words of a tree holds of those of every node in it. -/
theorem Within.of_mem_preorder (h : n.Within P) : ∀ m ∈ n.preorder, m.Within P := by
  induction n using Node.ind with
  | rule line origin selectors declarations =>
    rw [preorder]
    exact List.forall_mem_singleton.mpr h
  | importStatement line origin statement =>
    rw [preorder]
    exact List.forall_mem_singleton.mpr h
  | block line origin head reduced children ih =>
    exact forall_mem_preorder_block.mpr ⟨h, fun c hc => ih c hc (h.children c hc)⟩

/-- What holds of the words of the originals holds of those of the siblings that a lineage tells. -/
theorem Lineage.within (h : Lineage originals m siblings n) (horiginals : ∀ a ∈ originals, a.Within P) :
    ∀ a ∈ siblings, a.Within P := by
  induction h with
  | self originals post => exact horiginals
  | child hchild _ ih =>
    refine ih (within_flatMap_children fun a ha => ?_)
    obtain ⟨i, -, hi⟩ := List.mem_filterMap.mp ha
    exact horiginals a (List.mem_of_getElem? hi)

/-! ## Keys

  Sorting and joining forget the order of the selectors and nothing else. -/

/-- Regular rules have one key if and only if their selectors are the same up to order. -/
theorem headerKey_eq_iff (hn : n.Within Word.Regular) (hm : m.Within Word.Regular)
    (hnrule : n.kind = .rule) (hmrule : m.kind = .rule) :
    n.headerKey.2 = m.headerKey.2 ↔ n.selectors.Perm m.selectors := by
  obtain ⟨line, origin, ss, ds, rfl⟩ := exists_rule hnrule
  obtain ⟨line', origin', ss', ds', rfl⟩ := exists_rule hmrule
  constructor
  · intro hjoin
    exact selectors_perm_of_join (within_rule_iff.mp hn).1 (within_rule_iff.mp hm).1 hjoin
  · intro hperm
    exact congrArg (Text.join ',') (Text.sort_eq_of_perm hperm)

/-! ## Folded rules

  The origins of a merged node tell which rules went into it, and the cells under the key tell which
  rules these are. -/

/-- Whether two rules among the siblings went into one child of the node exactly if their selectors are the
same up to order, and a child that rules went into is a rule with the selectors of each of them. -/
structure FoldsRules (siblings : List Node) (n : Node) : Prop where
  shared_iff : ∀ {i j : Nat} {a b : Node}, siblings[i]? = some a → siblings[j]? = some b →
    a.kind = .rule → b.kind = .rule →
      ((∃ child ∈ n.children, i ∈ child.origin ∧ j ∈ child.origin) ↔ a.selectors.Perm b.selectors)
  selectors_eq : ∀ child ∈ n.children, ∀ i ∈ child.origin, ∀ a, siblings[i]? = some a →
    a.kind = .rule → child.kind = .rule ∧ child.selectors = Text.sort a.selectors

end Node

open Node

namespace SameHeader

variable {siblings : List Node} {n child : Node} {i : Nat} {a : Node}

/-- A node that a regular rule went into is a rule with the selectors of that rule. -/
theorem selectors_of_mem_origin (hregular : ∀ n ∈ siblings, n.Within Word.Regular)
    (hchild : child ∈ (pass siblings).children) (hi : i ∈ child.origin) (ha : siblings[i]? = some a)
    (hrule : a.kind = .rule) : child.kind = .rule ∧ child.selectors = Text.sort a.selectors := by
  rcases List.mem_append.mp ((pass_children_perm siblings).mem_iff.mp hchild) with hmem | hmem
  · -- an import statement was made from an import statement
    obtain ⟨m, hm, rfl⟩ := List.mem_map.mp hmem
    obtain ⟨hall, himport⟩ := List.mem_filter.mp hm
    rw [origin_withOrigin, List.mem_singleton] at hi
    obtain rfl : m.1 = a := Option.some.inj ((Sibling.getElem?_of_mem_all hall).symm.trans (hi ▸ ha))
    rw [isImport_eq, hrule] at himport
    exact absurd himport (by decide)
  · obtain ⟨g, hg, rfl⟩ := List.mem_map.mp hmem
    rw [origin_fold] at hi
    obtain ⟨m, hm, rfl⟩ := List.mem_map.mp hi
    have hall : ∀ m ∈ g.members, m ∈ Sibling.all siblings := fun m hm => mem_all_of_mem_members hg hm
    obtain rfl : m.1 = a := Option.some.inj ((Sibling.getElem?_of_mem_all (hall m hm)).symm.trans ha)
    have hkey : m.1.headerKey = g.first.1.headerKey := Group.key_eq hg hm
    have hfirst : g.first.1.kind = .rule := by rw [← fst_headerKey, ← hkey, fst_headerKey, hrule]
    have hwithin : ∀ m ∈ g.members, m.1.Within Word.Regular := fun m hm =>
      hregular m.1 (Sibling.mem_of_mem_all (hall m hm))
    have hsort := sort_selectors_of_headerKey (hwithin g.first List.mem_cons_self) (hwithin m hm) hkey
    refine ⟨(kind_fold g _).trans hfirst, ?_⟩
    obtain ⟨line, origin, selectors, declarations, he⟩ := exists_rule hfirst
    rw [hsort, fold, he]
    rfl

/-- What holds the merge of regular siblings folds their rules. -/
theorem foldsRules_of_holds (hregular : ∀ n ∈ siblings, n.Within Word.Regular)
    (h : n.Holds (pass siblings)) : n.FoldsRules siblings := by
  have hdivides := divides_of_holds h
  constructor
  · intro i j a b ha hb harule hbrule
    -- The partition speaks of two different positions; a position shares its child with itself.
    by_cases hij : i = j
    · subst hij
      obtain rfl : a = b := Option.some.inj (ha.symm.trans hb)
      obtain ⟨child, hchild, hi⟩ := (hdivides.covers i).mpr (List.getElem?_eq_some_iff.mp ha).1
      exact ⟨fun _ => List.Perm.refl _, fun _ => ⟨child, hchild, hi, hi⟩⟩
    · have hkeys := headerKey_eq_iff (hregular a (List.mem_of_getElem? ha))
        (hregular b (List.mem_of_getElem? hb)) harule hbrule
      have hkinds : a.headerKey.1 = b.headerKey.1 := by
        rw [fst_headerKey, fst_headerKey, harule, hbrule]
      rw [hdivides.shared_iff hij ha hb, ← hkeys]
      constructor
      · rintro ⟨-, -, hkey⟩
        exact congrArg Prod.snd hkey
      · intro hkey
        exact ⟨by rw [isImport_eq, harule]; rfl, by rw [isImport_eq, hbrule]; rfl,
          Prod.ext hkinds hkey⟩
  · intro child hchild i hi a ha hrule
    exact selectors_of_mem_origin hregular (h.children_eq ▸ hchild) hi ha hrule

end SameHeader

/-! ## Parsed sheets

  The selectors of a parsed rule are items, so all of the above applies to them. -/

namespace Node

/-- In a parsed tree two rules have one key if and only if their selectors are the same up to order, and
merging by header folds the rules of every level accordingly. -/
theorem mergeByHeader_foldsRules {text : Text} {tree : Node} (h : parse text = .ok tree) :
    (∀ a ∈ tree.preorder, ∀ b ∈ tree.preorder, a.kind = .rule → b.kind = .rule →
      (a.headerKey.2 = b.headerKey.2 ↔ a.selectors.Perm b.selectors)) ∧
    ∀ siblings n, Lineage tree.children tree.mergeByHeader siblings n → n.FoldsRules siblings := by
  obtain ⟨cs, rfl, hcs⟩ := regular_of_parse h
  constructor
  · intro a ha b hb harule hbrule
    have hregular : ∀ n ∈ (block 0 [] .sheet 0 cs).preorder, n.kind = .rule → n.Within Word.Regular := by
      intro n hn hrule
      rw [preorder_eq, List.mem_cons] at hn
      rcases hn with rfl | hn
      · exact absurd hrule (kind_block_ne_rule _ _ _ _ _)
      · obtain ⟨c, hc, hn⟩ := mem_preorderAll.mp hn
        exact (hcs c hc).of_mem_preorder n hn
    exact headerKey_eq_iff (hregular a ha harule) (hregular b hb hbrule) harule hbrule
  · intro siblings n hlineage
    exact SameHeader.foldsRules_of_holds (hlineage.within hcs) hlineage.holds_mergeByHeader

/-- A block with two rules of the same selectors, and a rule of one selector with a comma in it. -/
def quotedComma : Text := "@media p\x7bb,a\x7bx:1\x7d a , b\x7by:2\x7d'a,b'\x7bz:3\x7d\x7d".toList

/-- The tree of that text. -/
def quotedCommaTree : Node :=
  block 0 [] .sheet 0
    [block 1 [] (.atRule .media "@media p".toList) 0
      [rule 1 [] ["b".toList, "a".toList] ["x:1".toList],
       rule 1 [] ["a".toList, "b".toList] ["y:2".toList],
       rule 1 [] ["'a,b'".toList] ["z:3".toList]]]

/-- Two selectors with a comma in a literal: their rules are merged as the selectors say, not as the
joined text does. -/
theorem mergeByHeader_foldsRules_quotedComma : parse quotedComma = .ok quotedCommaTree ∧
    (∀ a ∈ quotedCommaTree.preorder, ∀ b ∈ quotedCommaTree.preorder, a.kind = .rule → b.kind = .rule →
      (a.headerKey.2 = b.headerKey.2 ↔ a.selectors.Perm b.selectors)) ∧
    ∃ siblings n, Lineage quotedCommaTree.children quotedCommaTree.mergeByHeader siblings n ∧
      siblings.length = 3 ∧ n.children.map selectors = [["'a,b'".toList], ["a".toList, "b".toList]] ∧
      n.FoldsRules siblings := by
  have hparse : parse quotedComma = .ok quotedCommaTree := by decide +kernel
  obtain ⟨hkeys, hfolds⟩ := mergeByHeader_foldsRules hparse
  have hmem : block 1 [0] (.atRule .media "@media p".toList) 1
      [rule 1 [2] ["'a,b'".toList] ["z:3".toList],
       rule 1 [0, 1] ["a".toList, "b".toList] ["x:1".toList, "y:2".toList]] ∈
        quotedCommaTree.mergeByHeader.children := by decide +kernel
  have hlineage : Lineage quotedCommaTree.children quotedCommaTree.mergeByHeader _ _ :=
    .child hmem (.self _ _)
  exact ⟨hparse, hkeys, _, _, hlineage, rfl, rfl, hfolds _ _ hlineage⟩

end Node

end StyleFold
