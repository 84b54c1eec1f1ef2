/-
  Detection — what a verification that reports nothing tells, and what it cannot miss.

  1. **Correspondence** — when the original and the merged node do not mismatch.
  2. **The walk** — it reports nothing if and only if every node of the merged tree *matches* the siblings
     that its lineage tells: the numbers balance, and every origin names an original that corresponds
     (`verify_eq_nil_iff`).  The balance is one of words, so the numbers balance exactly where their sum
     fits into a word, and a count of `2 ^ 64 - 1` with two children stands for one original.
  3. **Clean verifications** — the walk looks at each origin by itself.  It does not see that an original
     goes into two nodes or into none; it sees all else that `origins_of_verify` says, from which
     each original goes into exactly one node if and only if none goes into two and as many are named as
     there are.
  4. **Corruptions** — a merged tree with one thing changed at one place (`Corruption`).  What was matched
     before the change is not matched after it, for each origin of a merged tree names something; so
     the walk reports every corruption of a merged tree (`merges_guarded`).
-/
import Mathlib.Data.List.Perm.Subperm
import StyleFold.Proofs.Merge.Partition

namespace StyleFold.Node

/-! ## Correspondence

  The test that the walk makes of one original and one merged node, in terms of what they are. -/

variable {original merged child : Node} {originals : List Node}

/-- The kinds agree, and so do the tidied statements or headers, except of rules and sheets. -/
theorem mismatch?_eq_none_iff : original.mismatch? merged = none ↔ original.kind = merged.kind ∧
    (original.kind = .rule ∨ original.kind = .root ∨
      original.headerText.tidy = merged.headerText.tidy) := by
  unfold mismatch?
  by_cases hkind : original.kind = merged.kind
  · rw [if_neg (not_not_intro hkind), and_iff_right hkind]
    rcases original with _ | ⟨line, origin, statement⟩ | ⟨line, origin, _ | ⟨kind, header⟩, reduced, children⟩
    · simp [kind]
    · show (if statement.tidy = merged.headerText.tidy then none else some _) = none ↔
        _ ∨ _ ∨ statement.tidy = merged.headerText.tidy
      simp [kind]
    · simp [kind]
    · show (if header.tidy = merged.headerText.tidy then none else some _) = none ↔
        _ ∨ _ ∨ header.tidy = merged.headerText.tidy
      cases kind <;> simp [Node.kind, AtKind.toKind]
  · rw [if_pos hkind]
    exact ⟨fun h => absurd h (Option.some_ne_none _), fun h => absurd h.1 hkind⟩

/-- Whether every position in the origin of the child is that of an original which may have become part
of it. -/
def Corresponds (originals : List Node) (child : Node) : Prop :=
  ∀ i ∈ child.origin, ∃ original, originals[i]? = some original ∧ original.mismatch? child = none

/-- What corresponds to a node that holds nothing holds nothing. -/
theorem Corresponds.unionAt_eq_nil (h : Corresponds originals child)
    (hkind : child.kind.isContainer = false) : unionAt originals child.origin = [] := by
  refine List.flatMap_eq_nil_iff.mpr fun original hmem => ?_
  obtain ⟨i, hi, hat⟩ := List.mem_filterMap.mp hmem
  obtain ⟨original', hat', hnone⟩ := h i hi
  obtain rfl : original' = original := Option.some.inj (hat'.symm.trans hat)
  have hkind' : original'.kind.isContainer = false := (mismatch?_eq_none_iff.mp hnone).1 ▸ hkind
  cases original' with
  | rule line origin selectors declarations => rfl
  | importStatement line origin statement => rfl
  | block line origin head reduced children =>
    rw [isContainer_kind_block] at hkind'
    exact absurd hkind'.symm Bool.false_ne_true

/-! ## The walk

  Every function of the walk is described by when it finds nothing, from the inside out. -/

/-- The numbers do not mismatch if the machine's sum of children and siblings taken away is the number of
originals. -/
theorem countMismatch?_eq_none_iff {count merged reduced : Nat} :
    countMismatch? count merged reduced = none ↔ UInt64.ofNat count = Counter.sum merged reduced := by
  rw [countMismatch?]
  split
  · rename_i h
    exact ⟨fun _ => h, fun _ => rfl⟩
  · rename_i h
    exact ⟨fun he => absurd he (Option.some_ne_none _), fun he => absurd he h⟩

/-- A block is reported nothing of if the numbers balance and its children are not. -/
theorem check_eq_nil_iff {anchor n : Node} : check anchor originals n = [] ↔
    UInt64.ofNat originals.length = Counter.sum n.children.length n.reduced ∧
      checkSiblings originals n.children = [] := by
  cases n with
  | rule line origin selectors declarations =>
    rw [check, children, checkSiblings, Option.toList_eq_nil_iff, Option.map_eq_none_iff,
      countMismatch?_eq_none_iff]
    exact ⟨fun h => ⟨h, rfl⟩, fun h => h.1⟩
  | importStatement line origin statement =>
    rw [check, children, checkSiblings, Option.toList_eq_nil_iff, Option.map_eq_none_iff,
      countMismatch?_eq_none_iff]
    exact ⟨fun h => ⟨h, rfl⟩, fun h => h.1⟩
  | block line origin head reduced children =>
    rw [check, Node.children, Node.reduced, ← countMismatch?_eq_none_iff]
    cases countMismatch? originals.length children.length reduced with
    | none => exact ⟨fun h => ⟨rfl, h⟩, fun h => h.2⟩
    | some mismatch =>
      constructor
      · intro h
        exact absurd h (List.cons_ne_nil _ _)
      · rintro ⟨h, -⟩
        exact absurd h (Option.some_ne_none _)

/-- A node that holds nothing is made from nothing. -/
theorem check_eq_nil_of_leaf {anchor n : Node} (h : n.kind.isContainer = false) :
    check anchor [] n = [] := by
  cases n with
  | rule line origin selectors declarations => rw [check]; rfl
  | importStatement line origin statement => rw [check]; rfl
  | block line origin head reduced children =>
    rw [isContainer_kind_block] at h
    exact absurd h.symm Bool.false_ne_true

/-- A position finds an original that stands there and does not mismatch. -/
theorem originalAt_eq_ok_iff {position : Nat} : originalAt originals child position = .ok original ↔
    originals[position]? = some original ∧ original.mismatch? child = none := by
  unfold originalAt
  cases hat : originals[position]? with
  | none => simp
  | some found =>
    cases hmismatch : found.mismatch? child with
    | some mismatch =>
      simp only [hmismatch, Option.some.injEq, reduceCtorEq, false_iff]
      rintro ⟨rfl, hnone⟩
      exact absurd (hmismatch.symm.trans hnone) (Option.some_ne_none _)
    | none =>
      simp only [hmismatch, Except.ok.injEq, Option.some.injEq]
      constructor
      · rintro rfl
        exact ⟨rfl, hmismatch⟩
      · rintro ⟨rfl, -⟩
        rfl

/-- Nothing is found wrong with an origin if and only if all that it names corresponds. -/
theorem resolve_snd_eq_nil_iff : (resolve originals child).2 = [] ↔ Corresponds originals child := by
  rw [resolve, List.filterMap_eq_nil_iff, List.forall_mem_map]
  refine forall₂_congr fun i _ => ?_
  simp only [← originalAt_eq_ok_iff]
  cases originalAt originals child i with
  | error violation => simp
  | ok original => exact ⟨fun _ => ⟨original, rfl⟩, fun _ => rfl⟩

/-- Then the originals found are those named. -/
theorem Corresponds.resolve_fst (h : Corresponds originals child) :
    (resolve originals child).1 = child.origin.filterMap fun i => originals[i]? := by
  rw [resolve, List.filterMap_map]
  refine List.filterMap_congr fun i hi => ?_
  obtain ⟨original, hat, hnone⟩ := h i hi
  rw [Function.comp_apply, originalAt_eq_ok_iff.mpr ⟨hat, hnone⟩, hat]

/-- A child is reported nothing of if its origin corresponds and nothing below it is reported; below a
node that holds nothing there is nothing to report. -/
theorem checkSiblings_eq_nil_iff : ∀ {children : List Node},
    checkSiblings originals children = [] ↔ ∀ child ∈ children, Corresponds originals child ∧
      ∀ anchor, check anchor (unionAt originals child.origin) child = []
  | [] => by
    rw [checkSiblings]
    exact ⟨fun _ child hchild => absurd hchild List.not_mem_nil, fun _ => rfl⟩
  | child :: rest => by
    have ih : checkSiblings originals rest = [] ↔ _ := checkSiblings_eq_nil_iff
    rw [checkSiblings, List.append_eq_nil_iff, ih, List.forall_mem_cons]
    refine and_congr_left fun _ => ?_
    -- Once the child corresponds, its originals' children are the union at its origin, and the
    -- check goes one level down.
    by_cases hcorresponds : Corresponds originals child
    · have hmembers : (resolve originals child).1.flatMap children =
          unionAt originals child.origin := by rw [hcorresponds.resolve_fst, unionAt]
      simp only [resolve_snd_eq_nil_iff.mpr hcorresponds, hmembers, List.isEmpty_nil, Bool.true_and,
        hcorresponds, true_and]
      cases hkind : child.kind.isContainer with
      | true =>
        rw [if_pos rfl]
        simp only [check_eq_nil_iff, forall_const]
      | false =>
        rw [if_neg Bool.false_ne_true, hcorresponds.unionAt_eq_nil hkind]
        simp only [check_eq_nil_of_leaf hkind, forall_const]
    · have hviolations : (resolve originals child).2 ≠ [] := fun h =>
        hcorresponds (resolve_snd_eq_nil_iff.mp h)
      simp [hviolations, hcorresponds]

/-! ## Matching nodes

  The walk goes down the merged tree and carries the originals along, which is what a lineage describes;
  so all that it checks may be said of lineages, and the recursion is left behind. -/

/-- Whether what a node holds can have been made from the siblings, so far as numbers and origins tell. -/
structure Matches (siblings : List Node) (n : Node) : Prop where
  length_eq : UInt64.ofNat siblings.length = Counter.sum n.children.length n.reduced
  corresponds : ∀ child ∈ n.children, Corresponds siblings child

/-- A node is reported nothing of if it matches and its children are reported nothing of. -/
theorem check_eq_nil_iff_matches {anchor n : Node} : check anchor originals n = [] ↔
    Matches originals n ∧ ∀ child ∈ n.children, ∀ anchor,
      check anchor (unionAt originals child.origin) child = [] := by
  rw [check_eq_nil_iff, checkSiblings_eq_nil_iff, forall₂_and]
  constructor
  · rintro ⟨hlength, hcorresponds, hbelow⟩
    exact ⟨⟨hlength, hcorresponds⟩, hbelow⟩
  · rintro ⟨⟨hlength, hcorresponds⟩, hbelow⟩
    exact ⟨hlength, hcorresponds, hbelow⟩

variable {siblings : List Node} {pre post n : Node}

/-- A clean walk went through every node that a lineage leads to, and found it to match. -/
theorem Lineage.matches_of_check (h : Lineage originals post siblings n) :
    (∀ anchor, check anchor originals post = []) → Matches siblings n := by
  induction h with
  | self originals post =>
    intro hcheck
    exact (check_eq_nil_iff_matches.mp (hcheck post)).1
  | @child originals siblings post child n hchild _ ih =>
    intro hcheck
    exact ih ((check_eq_nil_iff_matches.mp (hcheck post)).2 child hchild)

/-- If every node that a lineage leads to matches, the walk finds nothing. -/
theorem check_eq_nil_of_matches (post : Node) : ∀ {originals : List Node},
    (∀ siblings n, Lineage originals post siblings n → Matches siblings n) →
      ∀ anchor, check anchor originals post = [] := by
  induction post using Node.ind with
  | rule line origin selectors declarations =>
    intro originals h anchor
    exact check_eq_nil_iff_matches.mpr ⟨h _ _ (.self _ _), fun _ hchild => absurd hchild List.not_mem_nil⟩
  | importStatement line origin statement =>
    intro originals h anchor
    exact check_eq_nil_iff_matches.mpr ⟨h _ _ (.self _ _), fun _ hchild => absurd hchild List.not_mem_nil⟩
  | block line origin head reduced children ih =>
    intro originals h anchor
    refine check_eq_nil_iff_matches.mpr ⟨h _ _ (.self _ _), fun child hchild => ?_⟩
    exact ih child hchild fun siblings n hn => h siblings n (.child hchild hn)

/-- The verification reports nothing if and only if every node matches the siblings that its lineage
tells. -/
theorem verify_eq_nil_iff : pre.verify post = [] ↔
    ∀ siblings n, Lineage pre.children post siblings n → Matches siblings n := by
  constructor
  · intro h siblings n hn
    have hcheck := check_eq_nil_iff_matches.mp h
    exact hn.matches_of_check fun anchor => check_eq_nil_iff_matches.mpr hcheck
  · intro h
    exact check_eq_nil_of_matches post h pre

/-! ## Clean verifications

  Positions that are in range, each named at most once and as many as there are, are all positions. The
  walk checks the first of the three only, and a number that the origins have no part in. -/

/-- Positions that are those of a list stand for each of its elements once if and only if none is named
twice and as many are named as there are elements. -/
theorem count_eq_one_iff {positions : List Nat} {length : Nat} (h : ∀ i ∈ positions, i < length) :
    (∀ i < length, positions.count i = 1) ↔ positions.Nodup ∧ positions.length = length := by
  -- Both sides say that the positions are those of the list, in some order.
  constructor
  · intro hcount
    have hnodup : positions.Nodup := by
      apply List.nodup_iff_count_le_one.mpr
      intro i
      by_cases hi : i ∈ positions
      · exact (hcount i (h i hi)).le
      · rw [List.count_eq_zero_of_not_mem hi]
        exact Nat.zero_le 1
    have hmem : ∀ i, i ∈ positions ↔ i ∈ List.range length := by
      intro i
      rw [List.mem_range]
      exact ⟨h i, fun hi => List.count_pos_iff.mp (hcount i hi ▸ Nat.one_pos)⟩
    have hperm := (List.perm_ext_iff_of_nodup hnodup List.nodup_range).mpr hmem
    exact ⟨hnodup, hperm.length_eq.trans List.length_range⟩
  · rintro ⟨hnodup, hlength⟩ i hi
    have hsub : positions ⊆ List.range length := fun i hi => List.mem_range.mpr (h i hi)
    have hperm := (List.subperm_of_subset hnodup hsub).perm_of_length_le
      (by rw [List.length_range, hlength])
    exact List.count_eq_one_of_mem hnodup (hperm.mem_iff.mpr (List.mem_range.mpr hi))

/-- What a clean verification tells of every node of the merged tree: the numbers balance as words, and
exactly where both sides fit into one; every origin names originals of the kind and header of its
node; and each original is named exactly once if and only if none is named twice and as many are named as
there are. -/
theorem origins_of_verify (h : pre.verify post = []) (hn : Lineage pre.children post siblings n) :
    UInt64.ofNat siblings.length = Counter.sum n.children.length n.reduced ∧
      (siblings.length < UInt64.size → n.children.length + n.reduced < UInt64.size →
        siblings.length = n.children.length + n.reduced) ∧
      (∀ child ∈ n.children, ∀ i ∈ child.origin, ∃ original, siblings[i]? = some original ∧
        original.kind = child.kind ∧ (original.kind = .rule ∨ original.kind = .root ∨
          original.headerText.tidy = child.headerText.tidy)) ∧
      ((∀ i < siblings.length, (n.children.flatMap origin).count i = 1) ↔
        (n.children.flatMap origin).Nodup ∧
          (n.children.flatMap origin).length = siblings.length) := by
  obtain ⟨hlength, hcorresponds⟩ := verify_eq_nil_iff.mp h siblings n hn
  refine ⟨hlength, Counter.eq_add_of_sum hlength, ?_, ?_⟩
  · intro child hchild i hi
    obtain ⟨original, hat, hnone⟩ := hcorresponds child hchild i hi
    exact ⟨original, hat, mismatch?_eq_none_iff.mp hnone⟩
  · apply count_eq_one_iff
    intro i hi
    obtain ⟨child, hchild, hi⟩ := List.mem_flatMap.mp hi
    obtain ⟨original, hat, -⟩ := hcorresponds child hchild i hi
    exact (List.getElem?_eq_some_iff.mp hat).1

/-- The block gathered from two blocks of one header holds two rules made of three: the numbers balance
exactly, and each of the three is named once. -/
theorem origins_of_verify_scatteredBlocks :
    scatteredBlocks.verify scatteredBlocks.mergeByHeader = [] ∧
      ∃ siblings, Lineage scatteredBlocks.children scatteredBlocks.mergeByHeader siblings gatheredBlock ∧
        siblings.length = 3 ∧ siblings.length = gatheredBlock.children.length + gatheredBlock.reduced ∧
          ∀ i < siblings.length, (gatheredBlock.children.flatMap origin).count i = 1 := by
  have hverify : scatteredBlocks.verify scatteredBlocks.mergeByHeader = [] := by decide
  obtain ⟨-, hexact, -, hcount⟩ := origins_of_verify hverify lineage_gatheredBlock
  have hbalance := hexact (by decide) (by decide)
  exact ⟨hverify, _, lineage_gatheredBlock, rfl, hbalance, hcount.mpr (by decide)⟩

/-- A verification is clean although one original cannot be two rules less `2 ^ 64 - 1`: their sum wraps
around. -/
example : (block 0 [] .sheet 0 [rule 1 [] [".a".toList] ["x:1".toList]]).verify
    (block 0 [] .sheet (UInt64.size - 1)
      [rule 1 [0] [".a".toList] ["x:1".toList], rule 1 [0] [".a".toList] ["x:1".toList]]) = [] := by
  decide

/-- Two rules. -/
def twoRules : Node :=
  block 0 [] .sheet 0
    [rule 1 [] [".a".toList] ["x:1".toList], rule 1 [] [".b".toList] ["y:2".toList]]

/-- The first of them twice, and the second not at all. -/
def firstTwice : Node :=
  block 0 [] .sheet 0
    [rule 1 [0] [".a".toList] ["x:1".toList], rule 1 [0] [".a".toList] ["x:1".toList]]

/-- An original that goes into two nodes, and one that goes into none, are not reported. -/
theorem verify_firstTwice : twoRules.verify firstTwice = [] ∧
    ¬ ∀ siblings n, Lineage twoRules.children firstTwice siblings n →
      ∀ i < siblings.length, (n.children.flatMap origin).count i = 1 := by
  constructor
  · decide
  · intro h
    exact absurd (h _ _ (.self _ _) 1 (by decide)) (by decide)

/-! ## Corruptions

  One edit changes one thing at one node, and nothing at the nodes above it but what they hold.  So the
  lineage that led to the place of the edit leads there afterwards, too, and the node that matched its
  originals before does so no more. -/

/-- What becomes of a node among others, which were made from `originals`, when exactly one thing about it
is made wrong. -/
inductive Altered (originals : List Node) : Node → Node → Prop
  /-- The header of an at-rule. -/
  | header {n : Node} {header header' : Text} (h : n.atHeader? = some header)
      (hne : header'.tidy ≠ header.tidy) : Altered originals n (n.withHeader header')
  /-- The statement of an import. -/
  | statement {n : Node} {statement statement' : Text} (h : n.statement? = some statement)
      (hne : statement'.tidy ≠ statement.tidy) : Altered originals n (n.withStatement statement')
  /-- The node itself: another stands in its place, of another kind. -/
  | kind {n n' : Node} (hkind : n'.kind ≠ n.kind) (horigin : n'.origin = n.origin) :
      Altered originals n n'
  /-- The origin: it names a further position, and there is no such original. -/
  | origin {n : Node} {before after : List Nat} {i : Nat} (h : n.origin = before ++ after)
      (hi : originals.length ≤ i) : Altered originals n (n.withOrigin (before ++ i :: after))

/-- What becomes of a node, whose children were made from `originals`, when exactly one thing is changed
among its children or below. -/
inductive Corruption : List Node → Node → Node → Prop
  /-- The count of a block is another, of those that a word holds. -/
  | reduced {originals : List Node} {n : Node} {count : Counter} (hblock : n.kind.isContainer = true)
      (hne : count ≠ UInt64.ofNat n.reduced) : Corruption originals n (n.withReduced count.toNat)
  /-- A child of a block is missing. -/
  | removed {originals before after : List Node} {n child : Node}
      (h : n.children = before ++ child :: after) :
      Corruption originals n (n.withChildren (before ++ after))
  /-- A block has a child more, be it a copy of another. -/
  | inserted {originals before after : List Node} {n child : Node}
      (hblock : n.kind.isContainer = true) (h : n.children = before ++ after) :
      Corruption originals n (n.withChildren (before ++ child :: after))
  /-- A child is altered. -/
  | altered {originals before after : List Node} {n child child' : Node}
      (h : n.children = before ++ child :: after) (halter : Altered originals child child') :
      Corruption originals n (n.withChildren (before ++ child' :: after))
  /-- Something is changed among the children of a child or below. -/
  | deeper {originals before after : List Node} {n child child' : Node}
      (h : n.children = before ++ child :: after)
      (hbelow : Corruption (unionAt originals child.origin) child child') :
      Corruption originals n (n.withChildren (before ++ child' :: after))

theorem reduced_withChildren (children : List Node) (n : Node) :
    (n.withChildren children).reduced = n.reduced := by cases n <;> rfl

theorem origin_withChildren (children : List Node) (n : Node) :
    (n.withChildren children).origin = n.origin := by cases n <;> rfl

theorem children_withChildren {children : List Node} {n : Node} (h : n.kind.isContainer = true) :
    (n.withChildren children).children = children := by
  obtain ⟨line, origin, head, reduced, children', rfl⟩ := isContainer_kind_iff.mp h
  rfl

/-- What has a child is a block. -/
theorem isContainer_of_children {before after : List Node} (h : n.children = before ++ child :: after) :
    n.kind.isContainer = true := by
  cases n with
  | rule line origin selectors declarations => exact absurd h (by simp [children])
  | importStatement line origin statement => exact absurd h (by simp [children])
  | block line origin head reduced children => exact isContainer_kind_block _ _ _ _ _

theorem mem_of_children {before after : List Node} (h : n.children = before ++ child :: after) :
    child ∈ n.children := h ▸ List.mem_append_right before List.mem_cons_self

theorem mem_withChildren {before after : List Node} (h : n.kind.isContainer = true) :
    child ∈ (n.withChildren (before ++ child :: after)).children :=
  mem_of_children (children_withChildren h)

/-- With one count a block matches for one number of children only, in a word. -/
theorem Matches.length_withChildren {children : List Node} (h : Matches siblings n)
    (hblock : n.kind.isContainer = true) (h' : Matches siblings (n.withChildren children)) :
    UInt64.ofNat children.length = UInt64.ofNat n.children.length := by
  have hlength' := h'.length_eq
  rw [children_withChildren hblock, reduced_withChildren, h.length_eq] at hlength'
  exact ((UInt64.add_left_inj _).mp hlength').symm

/-- A list and the one with a child more differ in length, in a word too. -/
theorem length_ofNat_ne (before after : List Node) (child : Node) :
    UInt64.ofNat (before ++ child :: after).length ≠ UInt64.ofNat (before ++ after).length := by
  rw [List.length_append, List.length_append, List.length_cons, ← Nat.add_assoc]
  exact Counter.ofNat_succ_ne _

/-- A corruption below a node does not touch its own origin. -/
theorem Corruption.origin_eq {n' : Node} (h : Corruption originals n n') : n'.origin = n.origin := by
  cases h with
  | reduced => cases n <;> rfl
  | removed => exact origin_withChildren _ n
  | inserted => exact origin_withChildren _ n
  | altered => exact origin_withChildren _ n
  | deeper => exact origin_withChildren _ n

/-- A header does not correspond to two different ones. -/
theorem not_corresponds_of_headerText {child' : Node} (h : Corresponds originals child)
    (hne : child.origin ≠ []) (horigin : child'.origin = child.origin) (hrule : child.kind ≠ .rule)
    (hroot : child.kind ≠ .root) (htidy : child'.headerText.tidy ≠ child.headerText.tidy) :
    ¬ Corresponds originals child' := by
  intro h'
  obtain ⟨i, hi⟩ := List.exists_mem_of_ne_nil _ hne
  obtain ⟨original, hat, hnone⟩ := h i hi
  obtain ⟨original', hat', hnone'⟩ := h' i (horigin ▸ hi)
  obtain rfl : original' = original := Option.some.inj (hat'.symm.trans hat)
  obtain ⟨hkind, hheader⟩ := mismatch?_eq_none_iff.mp hnone
  obtain ⟨-, hheader'⟩ := mismatch?_eq_none_iff.mp hnone'
  have heq := (hheader.resolve_left (hkind ▸ hrule)).resolve_left (hkind ▸ hroot)
  have heq' := (hheader'.resolve_left (hkind ▸ hrule)).resolve_left (hkind ▸ hroot)
  exact htidy (heq'.symm.trans heq)

/-- A node that corresponds does so no more when it is altered, if its origin names anything. -/
theorem Altered.not_corresponds {child' : Node} (halter : Altered originals child child')
    (h : Corresponds originals child) (hne : child.origin ≠ []) : ¬ Corresponds originals child' := by
  cases halter with
  | @header header header' hheader htidy =>
    rcases child with _ | _ | ⟨line, origin, _ | ⟨kind, text⟩, reduced, children⟩
    · exact nomatch hheader
    · exact nomatch hheader
    · exact nomatch hheader
    · obtain rfl : text = header := Option.some.inj hheader
      refine not_corresponds_of_headerText h hne rfl ?_ ?_ htidy
      · exact kind_block_ne_rule _ _ _ _ _
      · cases kind <;> exact Kind.noConfusion
  | @statement statement statement' hstatement htidy =>
    cases child with
    | rule => exact nomatch hstatement
    | block => exact nomatch hstatement
    | importStatement line origin text =>
      obtain rfl : text = statement := Option.some.inj hstatement
      exact not_corresponds_of_headerText h hne rfl Kind.noConfusion Kind.noConfusion htidy
  | kind hkind horigin =>
    intro h'
    obtain ⟨i, hi⟩ := List.exists_mem_of_ne_nil _ hne
    obtain ⟨original, hat, hnone⟩ := h i hi
    obtain ⟨original', hat', hnone'⟩ := h' i (horigin ▸ hi)
    obtain rfl : original' = original := Option.some.inj (hat'.symm.trans hat)
    exact hkind ((mismatch?_eq_none_iff.mp hnone').1.symm.trans (mismatch?_eq_none_iff.mp hnone).1)
  | @origin before after i horigin hi =>
    intro h'
    rw [Corresponds, origin_withOrigin] at h'
    obtain ⟨original, hat, -⟩ := h' i (List.mem_append_right _ List.mem_cons_self)
    have hlt := (List.getElem?_eq_some_iff.mp hat).1
    omega

/-- If every node matches and all origins name something, some node does not match after a corruption. -/
theorem Corruption.exists_not_matches {n' : Node} (h : Corruption originals n n') :
    (∀ siblings m, Lineage originals n siblings m →
      Matches siblings m ∧ ∀ child ∈ m.children, child.origin ≠ []) →
    ∃ siblings m, Lineage originals n' siblings m ∧ ¬ Matches siblings m := by
  -- origins above the change are kept, so the same lineage leads to it
  induction h with
  | @reduced originals n count hblock hne =>
    intro hn
    refine ⟨_, _, .self _ _, fun hmatch => ?_⟩
    have hlength := (hn _ _ (.self _ _)).1.length_eq
    have hlength' := hmatch.length_eq
    obtain ⟨line, origin, head, reduced, children, rfl⟩ := isContainer_kind_iff.mp hblock
    -- the same children leave the same room for the count
    have hcount : UInt64.ofNat reduced = UInt64.ofNat count.toNat :=
      (UInt64.add_right_inj _).mp (hlength.symm.trans hlength')
    exact hne (UInt64.ofNat_toNat.symm.trans hcount.symm)
  | @removed originals before after n child hchildren =>
    intro hn
    refine ⟨_, _, .self _ _, fun hmatch => ?_⟩
    have hlength := (hn _ _ (.self _ _)).1.length_withChildren (isContainer_of_children hchildren) hmatch
    rw [hchildren] at hlength
    exact length_ofNat_ne before after child hlength.symm
  | @inserted originals before after n child hblock hchildren =>
    intro hn
    refine ⟨_, _, .self _ _, fun hmatch => ?_⟩
    have hlength := (hn _ _ (.self _ _)).1.length_withChildren hblock hmatch
    rw [hchildren] at hlength
    exact length_ofNat_ne before after child hlength
  | @altered originals before after n child child' hchildren halter =>
    intro hn
    refine ⟨_, _, .self _ _, fun hmatch => ?_⟩
    obtain ⟨⟨-, hcorresponds⟩, horigins⟩ := hn _ _ (.self _ _)
    have hmem := mem_of_children hchildren
    apply halter.not_corresponds (hcorresponds child hmem) (horigins child hmem)
    exact hmatch.corresponds child' (mem_withChildren (isContainer_of_children hchildren))
  | @deeper originals before after n child child' hchildren hbelow ih =>
    intro hn
    obtain ⟨siblings, m, hm, hnot⟩ := ih fun siblings m hm =>
      hn siblings m (.child (mem_of_children hchildren) hm)
    rw [← hbelow.origin_eq] at hm
    exact ⟨siblings, m, .child (mem_withChildren (isContainer_of_children hchildren)) hm, hnot⟩

/-- A corrupted tree is reported, if the tree was not and all its origins name something. -/
theorem verify_ne_nil_of_corruption {post' : Node} (hclean : pre.verify post = [])
    (horigins : ∀ siblings n, Lineage pre.children post siblings n →
      ∀ child ∈ n.children, child.origin ≠ [])
    (h : Corruption pre.children post post') : pre.verify post' ≠ [] := by
  intro hnone
  obtain ⟨siblings, m, hm, hnot⟩ := h.exists_not_matches fun siblings n hn =>
    ⟨verify_eq_nil_iff.mp hclean siblings n hn, horigins siblings n hn⟩
  exact hnot (verify_eq_nil_iff.mp hnone siblings m hm)

/-- Every corruption of a merged tree is reported, at any depth. -/
theorem merges_guarded (tree corrupted : Node) :
    (Corruption tree.children tree.mergeByHeader corrupted → tree.verify corrupted ≠ []) ∧
      (Corruption tree.children tree.mergeByContent corrupted → tree.verify corrupted ≠ []) := by
  constructor
  · intro h
    apply verify_ne_nil_of_corruption tree.verify_mergeByHeader _ h
    intro siblings n hn
    exact (SameHeader.divides_of_holds hn.holds_mergeByHeader).origin_ne_nil
  · intro h
    apply verify_ne_nil_of_corruption tree.verify_mergeByContent _ h
    intro siblings n hn
    exact (SameContent.divides_of_holds hn.holds_mergeByContent).origin_ne_nil

/-- Two corruptions of one merged tree: a rule in the block that was gathered names a fourth original, and
there are three; and the count of the sheet is the largest that there is, with which any sum wraps around. -/
theorem merges_guarded_scatteredBlocks :
    (∃ corrupted, Corruption scatteredBlocks.children scatteredBlocks.mergeByHeader corrupted ∧
      scatteredBlocks.verify corrupted ≠ []) ∧
    scatteredBlocks.verify (scatteredBlocks.mergeByHeader.withReduced (UInt64.size - 1)) ≠ [] := by
  have hrule : Altered (unionAt scatteredBlocks.children [0, 2])
      (rule 3 [1] [".b".toList] ["x:1".toList]) (rule 3 [1, 3] [".b".toList] ["x:1".toList]) :=
    @Altered.origin _ (rule 3 [1] [".b".toList] ["x:1".toList]) [1] [] 3 rfl (by decide)
  have hblock : gatheredBlock.children = [rule 1 [0, 2] [".a".toList] ["x:1".toList, "y:2".toList]] ++
      rule 3 [1] [".b".toList] ["x:1".toList] :: [] := rfl
  have hroot : scatteredBlocks.mergeByHeader.children =
      [importStatement 2 [1] "@import a;".toList] ++ gatheredBlock :: [] := by decide
  have h : Corruption scatteredBlocks.children scatteredBlocks.mergeByHeader _ :=
    .deeper hroot (.altered hblock hrule)
  have hcount : Corruption scatteredBlocks.children scatteredBlocks.mergeByHeader
      (scatteredBlocks.mergeByHeader.withReduced (UInt64.ofNat (UInt64.size - 1)).toNat) :=
    .reduced rfl (by decide)
  exact ⟨⟨_, h, (merges_guarded _ _).1 h⟩, (merges_guarded _ _).1 hcount⟩

end StyleFold.Node
