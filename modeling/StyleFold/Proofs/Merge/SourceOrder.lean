/-
  SourceOrder — the compressed sheet does not depend on the order of the source.

  Both passes sort what they make, so the order of the source should not matter.  Stable sorts keep it
  for siblings of one text, though, and then it has to be shown that these are the same sibling, or that
  no text stands for two.

  1. **Classes** — alike siblings have classes of the same keys, and a class of the one list makes the
     same digest as the class of its key in the other.
  2. **Ties** — the siblings that merging by header makes are sorted by their texts.  Among rules, and among
     the others, a text tells its sibling, so their order is told, too.
  3. **All levels** — so alike siblings are compressed alike (`compress_of_alike`), and reordered trees
     are (`Node.compressed_of_reordered`).
-/
import StyleFold.Proofs.Merge.Digests
import StyleFold.Proofs.Merge.Regular
import StyleFold.Proofs.Tree.Alike

namespace StyleFold

open Node

/-! ## Classes

  Alike siblings have the same keys equally often, and the members of a key are alike in turn. -/

namespace SameHeader

variable {siblings siblings' : List Node} {g g' : Group Node}

/-- What merging by content sees of the node that a class of nodes becomes. -/
def digestOfClass (g : Group Node) : Node := SameContent.digest (foldLabelled id (fun _ => 0) g)

/-- Of an import the digest keeps the statement. -/
theorem map_digest_imports : ∀ siblings : List Node,
    (siblings.filter isImport).map SameContent.digest =
      (siblings.filterMap statement?).map (importStatement 0 [])
  | [] => rfl
  | n :: ns => by
    have ih := map_digest_imports ns
    cases n with
    | rule line origin selectors declarations => exact ih
    | importStatement line origin statement =>
      rw [List.filter_cons_of_pos rfl, List.map_cons, ih]
      rfl
    | block line origin head reduced children => exact ih

/-- What merging by content sees of the siblings that merging by header makes. -/
theorem digests_perm (siblings : List Node) :
    ((pass siblings).children.map SameContent.digest).Perm
      ((siblings.filterMap statement?).map (importStatement 0 []) ++
        (nodeClasses siblings).map digestOfClass) := by
  have hplain : (pass siblings).children.map SameContent.digest =
      ((pass siblings).children.map plain).map SameContent.digest := by
    rw [List.map_map]
    exact List.map_congr_left fun n _ => (SameContent.digest_plain n).symm
  have hplain' : ((siblings.filter isImport).map plain).map SameContent.digest =
      (siblings.filter isImport).map SameContent.digest := by
    rw [List.map_map]
    exact List.map_congr_left fun n _ => SameContent.digest_plain n
  rw [hplain, map_plain_pass]
  refine ((Text.sortOn_perm headerText _).map SameContent.digest).trans ?_
  rw [List.map_append, hplain', map_digest_imports, List.map_map]
  exact .refl _

/-- A class of nodes has all siblings of its key. -/
theorem members_eq_under (hg : g ∈ nodeClasses siblings) :
    g.members = under g.first.headerKey siblings := by
  have hfirst := (List.mem_filter.mp (Group.first_mem hg)).2
  rw [Group.members_eq_filter hg, under, List.filter_filter]
  refine List.filter_congr fun n _ => ?_
  by_cases hn : n.headerKey = g.first.headerKey
  · rw [isImport_of_headerKey hn, hfirst, Bool.and_true]
  · simp [hn]

/-- Alike siblings have classes of the same keys. -/
theorem exists_class_of_alike (h : Alike siblings siblings')
    (hg : g ∈ nodeClasses siblings) :
    ∃ g' ∈ nodeClasses siblings',
      g'.first.headerKey = g.first.headerKey := by
  obtain ⟨hmem, himport⟩ := List.mem_filter.mp (Group.first_mem hg)
  obtain ⟨n, hn, hkey⟩ := List.mem_map.mp (h.headerKeys_perm.mem_iff.mp (List.mem_map_of_mem hmem))
  have hn' : n ∈ siblings'.filter fun n => !n.isImport :=
    List.mem_filter.mpr ⟨hn, by rw [isImport_of_headerKey hkey]; exact himport⟩
  obtain ⟨g', hg', hkey'⟩ : ∃ g' ∈ nodeClasses siblings',
      g'.first.headerKey = n.headerKey := Group.exists_of_mem hn'
  exact ⟨g', hg', hkey'.trans hkey⟩

/-- Rules of one key make the same digest of any of them, with all their declarations. -/
theorem digestOfClass_rule {line : Nat} {origin : List Nat} {selectors declarations : List Text}
    (hfirst : g.first = rule line origin selectors declarations) : digestOfClass g =
      rule 0 [] (Text.sort selectors) (Text.sort (g.members.flatMap Node.declarations)).reverse := by
  rw [digestOfClass, foldLabelled, hfirst]
  rfl

/-- The digest of a class of blocks holds the compression of all their children. -/
theorem digestOfClass_block {line reduced : Nat} {origin : List Nat} {head : Head}
    {children : List Node} (hfirst : g.first = block line origin head reduced children) :
    digestOfClass g = block 0 [] head (compress (g.members.flatMap Node.children)).unplaced.2
      (compress (g.members.flatMap Node.children)).unplaced.1 := by
  rw [digestOfClass, foldLabelled, hfirst]
  show SameContent.keepLabelled (fun _ => 0) id (block line [] head 0
    ((pass (g.members.flatMap Node.children)).children.map (relabel id fun _ => 0))) = _
  rw [SameContent.keepLabelled, SameContent.pass_relabel]
  rfl

/-- Classes of one key in alike siblings make the same digest, if what they hold is compressed alike. -/
theorem digestOfClass_eq (h : Alike siblings siblings')
    (hregular : ∀ n ∈ siblings, n.Within Word.Regular)
    (hg : g ∈ nodeClasses siblings)
    (hg' : g' ∈ nodeClasses siblings')
    (hkey : g'.first.headerKey = g.first.headerKey)
    (hinner : ∀ inner, Alike (g.members.flatMap children) inner →
      (compress (g.members.flatMap children)).unplaced = (compress inner).unplaced) :
    digestOfClass g' = digestOfClass g := by
  -- The class of a key is everything under that key, on both sides, and these are alike.
  have hmembers : Alike g.members g'.members := by
    rw [members_eq_under hg, members_eq_under hg', hkey]
    exact h.under_alike _
  cases hfirst : g.first with
  | rule line origin selectors ds =>
    -- Equal keys are equal joined texts, and for regular selectors equal sorted lists.
    obtain ⟨line', origin', selectors', ds', hfirst', -⟩ := rule_of_headerKey (hfirst ▸ hkey)
    have hselectors : Text.sort selectors' = Text.sort selectors := by
      have hfirst_regular := hregular _ (List.mem_filter.mp (Group.first_mem hg)).1
      have hfirst_regular' := h.within hregular _ (List.mem_filter.mp (Group.first_mem hg')).1
      have hsort := sort_selectors_of_headerKey hfirst_regular hfirst_regular' hkey
      rwa [hfirst, hfirst'] at hsort
    rw [digestOfClass_rule hfirst, digestOfClass_rule hfirst', hselectors,
      Text.sort_eq_of_perm hmembers.flatMap_declarations]
  | importStatement line origin statement =>
    have := (List.mem_filter.mp (Group.first_mem hg)).2
    rw [hfirst] at this
    exact absurd this (by simp [isImport])
  | block line origin head reduced children =>
    obtain ⟨line', origin', reduced', children', hfirst'⟩ := block_of_headerKey (hfirst ▸ hkey)
    rw [digestOfClass_block hfirst, digestOfClass_block hfirst', hinner _ hmembers.flatMap_children]

/-- Alike siblings are merged by header into siblings of the same digests. -/
theorem digests_perm_of_alike (h : Alike siblings siblings')
    (hregular : ∀ n ∈ siblings, n.Within Word.Regular)
    (hinner : ∀ g ∈ nodeClasses siblings, ∀ inner, Alike (g.members.flatMap children) inner →
      (compress (g.members.flatMap children)).unplaced = (compress inner).unplaced) :
    ((pass siblings).children.map SameContent.digest).Perm
      ((pass siblings').children.map SameContent.digest) := by
  refine (digests_perm siblings).trans (.trans ?_ (digests_perm siblings').symm)
  refine (h.statements_perm.map _).append (Group.map_groups_perm ?_ ?_)
  · intro g hg
    obtain ⟨g', hg', hkey⟩ := exists_class_of_alike h hg
    exact ⟨g', hg', hkey, digestOfClass_eq h hregular hg hg' hkey (hinner g hg)⟩
  · intro g' hg'
    obtain ⟨g, hg, hkey⟩ := exists_class_of_alike h.symm hg'
    exact ⟨g, hg, hkey, (digestOfClass_eq h hregular hg hg' hkey.symm (hinner g hg)).symm⟩

/-! ## Ties

  What merging by header leaves has different keys, and for regular nodes a text tells its key. -/

/-- Among the rules that merging by header makes, and among the other nodes, the header text tells the
digest. -/
theorem digest_of_headerText (hregular : ∀ n ∈ siblings, n.Within Word.Regular) {n m : Node}
    (hn : n ∈ (pass siblings).children) (hm : m ∈ (pass siblings).children)
    (hrule : n.kind = .rule ↔ m.kind = .rule) (h : n.headerText = m.headerText) :
    SameContent.digest n = SameContent.digest m := by
  have hwithin := within_pass (fun n hn => (hregular n hn).selective) hregular
  have hkey := headerKey_of_headerText (hwithin n hn) (hwithin m hm) (selectors_of_mem_pass hn)
    (selectors_of_mem_pass hm) hrule h
  -- Imports of one text are equal; other nodes of one key are one node, for the keys are distinct.
  cases hi : n.isImport with
  | true =>
    obtain ⟨line, origin, statement, rfl⟩ := exists_importStatement hi
    obtain ⟨line', origin', statement', rfl⟩ :=
      exists_importStatement ((isImport_of_headerKey hkey).symm.trans hi)
    obtain rfl : statement = statement' := h
    rfl
  | false =>
    have hi' : m.isImport = false := isImport_of_headerKey hkey ▸ hi
    rw [List.inj_on_of_nodup_map (distinct_pass siblings) (List.mem_filter.mpr ⟨hn, by simp [hi]⟩)
      (List.mem_filter.mpr ⟨hm, by simp [hi']⟩) hkey]

/-- The digests of the rules, and those of the other nodes, are told by the digests in any order. -/
theorem filter_digests_eq (hregular : ∀ n ∈ siblings, n.Within Word.Regular)
    (hperm : ((pass siblings).children.map SameContent.digest).Perm
      ((pass siblings').children.map SameContent.digest)) {p : Kind → Bool}
    (hp : ∀ k k', p k = true → p k' = true → (k = .rule ↔ k' = .rule)) :
    ((pass siblings).children.map SameContent.digest).filter (fun n => p n.kind) =
      ((pass siblings').children.map SameContent.digest).filter fun n => p n.kind := by
  -- Two sorted lists of the same nodes differ at most where headers are equal, and there the
  -- digests are equal as well.
  have hsorted : ∀ siblings : List Node, Text.SortedBy headerText
      (((pass siblings).children.map SameContent.digest).filter fun n => p n.kind) := by
    intro siblings
    refine List.Pairwise.filter _ (List.pairwise_map.mpr ?_)
    simp only [SameContent.headerText_digest]
    rw [pass_eq]
    exact Text.sortedBy_sortOn headerText _
  refine Text.eq_of_sortedBy (hsorted siblings) (hsorted siblings')
    (Text.filter_eq_of_perm (hperm.filter _) fun a ha b hb htext => ?_)
  obtain ⟨ha, hpa⟩ := List.mem_filter.mp ha
  obtain ⟨hb, hpb⟩ := List.mem_filter.mp hb
  obtain ⟨n, hn, rfl⟩ := List.mem_map.mp ha
  obtain ⟨m, hm, rfl⟩ := List.mem_map.mp hb
  rw [SameContent.kind_digest] at hpa hpb
  rw [SameContent.headerText_digest, SameContent.headerText_digest] at htext
  exact digest_of_headerText hregular hn hm (hp _ _ hpa hpb) htext

end SameHeader

/-! ## All levels

  By induction over unions: a class of the one list makes the same node as its counterpart in the other,
  up to lines and origins. -/

/-- Alike siblings are compressed alike. -/
theorem compress_of_alike (siblings : List Node) : (∀ n ∈ siblings, n.Within Word.Regular) →
    ∀ siblings', Alike siblings siblings' →
      (compress siblings).unplaced = (compress siblings').unplaced := by
  induction siblings using SameHeader.nodeClasses_ind with
  | step siblings ih =>
    intro hregular siblings' h
    have hperm := SameHeader.digests_perm_of_alike h hregular fun g hg =>
      ih g hg (Node.within_flatMap_children fun n hn =>
        hregular n (List.mem_filter.mp (Group.mem_of_mem_members hg hn)).1)
    -- rules stand behind other nodes of the same text, so each of the two kinds is told by the texts
    refine SameContent.pass_of_digests ?_ ?_
    · exact SameHeader.filter_digests_eq (p := fun k => k == .rule) hregular hperm (by simp)
    · exact SameHeader.filter_digests_eq (p := fun k => !(k == .rule)) hregular hperm (by simp_all)

/-- Alike blocks are compressed alike. -/
theorem Node.unplaced_compressed {a b : Node} (h : Alike [a] [b]) {line reduced : Nat}
    {origin : List Nat} {head : Head} {children : List Node}
    (ha : a = block line origin head reduced children)
    (hregular : ∀ n ∈ children, n.Within Word.Regular) :
    b.compressed.unplaced = a.compressed.unplaced := by
  subst ha
  have hkey : b.headerKey = (block line origin head reduced children).headerKey :=
    (List.singleton_perm_singleton.mp h.headerKeys_perm).symm
  obtain ⟨line', origin', reduced', children', rfl⟩ := block_of_headerKey hkey
  have hchildren := h.flatMap_children
  rw [List.flatMap_singleton, List.flatMap_singleton] at hchildren
  have hsame := compress_of_alike children hregular children' hchildren
  rw [compressed_block, compressed_block, unplaced, relabel_block, unplaced, relabel_block]
  exact congrArg (fun p => block 0 [] head p.2 p.1) hsame.symm

/-- However the children of the blocks of a parsed tree are ordered, its compression is the same but for
source lines and origins, and prints the same in every layout. -/
theorem Node.compressed_of_reordered {text : Text} {tree tree' : Node} (h : parse text = .ok tree)
    (hreordered : tree.Reordered tree') : tree'.compressed.unplaced = tree.compressed.unplaced ∧
      ∀ layout, tree'.compressed.print layout = tree.compressed.print layout := by
  obtain ⟨cs, htree, hregular⟩ := regular_of_parse h
  have hsame := unplaced_compressed hreordered.alike htree hregular
  refine ⟨hsame, fun layout => ?_⟩
  calc tree'.compressed.print layout
      = tree'.compressed.unplaced.print layout := (print_relabel layout _).symm
    _ = tree.compressed.unplaced.print layout := by rw [hsame]
    _ = tree.compressed.print layout := print_relabel layout _

/-- Two media blocks of one header and a rule, each on a line. -/
def mediaBlocks : Text :=
  "@media p\x7b.b\x7by:2\x7d.a,.b\x7bx:1\x7d\x7d\n@media p\x7b.b,.a\x7by:2\x7d\x7d\n.c\x7bz:3\x7d".toList

/-- A media block of `mediaBlocks`. -/
def mediaBlock (line : Nat) (rules : List Node) : Node :=
  .block line [] (.atRule .media "@media p".toList) 0 rules

/-- Two orders of nested blocks: not the same tree, but one tree after compression, and one text in every
layout. -/
theorem Node.compressed_of_reordered_mediaBlocks : ∃ tree tree' : Node,
    parse mediaBlocks = .ok tree ∧ tree.Reordered tree' ∧ tree'.children ≠ tree.children ∧
      tree'.compressed.unplaced = tree.compressed.unplaced ∧
      ∀ layout, tree'.compressed.print layout = tree.compressed.print layout := by
  let b : Node := .rule 1 [] [".b".toList] ["y:2".toList]
  let ab : Node := .rule 1 [] [".a".toList, ".b".toList] ["x:1".toList]
  let second : Node := mediaBlock 2 [.rule 2 [] [".b".toList, ".a".toList] ["y:2".toList]]
  let c : Node := .rule 3 [] [".c".toList] ["z:3".toList]
  have hparse : parse mediaBlocks = .ok (.block 0 [] .sheet 0 [mediaBlock 1 [b, ab], second, c]) := by
    decide +kernel
  -- first the rules in the first block, then the blocks and the rule behind them
  have hreordered : Reordered (.block 0 [] .sheet 0 [mediaBlock 1 [b, ab], second, c])
      (.block 0 [] .sheet 0 [c, second, mediaBlock 1 [ab, b]]) :=
    .trans (@Reordered.inside 0 0 [] .sheet [] [second, c] _ _ (.permute (.swap ab b [])))
      (.permute (List.reverse_perm [c, second, mediaBlock 1 [ab, b]]))
  obtain ⟨hsame, hprint⟩ := compressed_of_reordered hparse hreordered
  exact ⟨_, _, hparse, hreordered, by decide +kernel, hsame, hprint⟩

end StyleFold
