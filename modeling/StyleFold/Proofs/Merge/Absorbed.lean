/-
  Absorbed — the totals of a merge read off the merged tree.

  A pass counts while it groups: each class takes in the values of all its members but the first.  The
  merged tree tells the same number, for the origin of a node names its members, the first in front, in
  the sibling list that the node was made from.

  Two things stand between the count and the tree.  A class is counted before its union is merged, and
  the outcome is sorted afterwards, so the sums on both sides run over different lists; and a node at
  depth is made from a union, so the positions in its origin are not those of a sibling list that the
  original tree has.  The lemmas about `laterValuesOf` deal with the first by permutations, and `traces`
  carries the union along.

  1. **Traces** — the nodes of a merged tree, each with the siblings it was made from.
  2. **Later values** — the values of the originals that joined a node, and their sum over traces.
  3. **The passes** — what a pass counts is that sum, at every depth (`absorbed_eq_laterValues`).
  4. **Trees** — counts and totals of both passes (`merges_balanced`).  The total is a word, to which the
     sum is added as the machine adds: for every total to begin with, and exactly where it fits.
-/
import StyleFold.Proofs.Merge.Balance
import StyleFold.Proofs.Merge.Lineage

namespace StyleFold

/-! ## Traces

  A trace pairs a node with the siblings that the positions in its origin belong to: those of the
  original tree at the top, and the union that the origin of the node around it names further down. -/

namespace Node

mutual

/-- The node and all below it, each with the siblings it was made from; the node itself was made from
`originals`. -/
def traced (originals : List Node) : Node → List (List Node × Node)
  | n@(rule ..) | n@(importStatement ..) => [(originals, n)]
  | n@(block _ origin _ _ children) =>
    (originals, n) :: tracedAll (unionAt originals origin) children

/-- The siblings and all below them, each with the siblings it was made from. -/
def tracedAll (originals : List Node) : List Node → List (List Node × Node)
  | [] => []
  | n :: ns => n.traced originals ++ tracedAll originals ns

end

/-- The nodes of a tree that a pass made of `tree`, each with the siblings it was made from.  The root was
made from none. -/
def traces (tree merged : Node) : List (List Node × Node) :=
  ([], merged) :: tracedAll tree.children merged.children

/-- What a node traces: itself, and its children with the union that its origin tells. -/
theorem traced_eq (originals : List Node) (n : Node) :
    n.traced originals = (originals, n) :: tracedAll (unionAt originals n.origin) n.children := by
  cases n with
  | rule line origin selectors declarations => rw [traced, children, tracedAll]
  | importStatement line origin statement => rw [traced, children, tracedAll]
  | block line origin head reduced children => rw [traced]; rfl

/-- Siblings are traced one after another. -/
theorem tracedAll_eq_flatMap (originals : List Node) : ∀ ns : List Node,
    tracedAll originals ns = ns.flatMap (traced originals)
  | [] => by rw [tracedAll]; rfl
  | n :: ns => by rw [tracedAll, tracedAll_eq_flatMap originals ns]; rfl

/-- Tracing lists the nodes that a walk lists, whatever they were made from. -/
theorem map_snd_traced (n : Node) : ∀ originals, (n.traced originals).map Prod.snd = n.preorder := by
  induction n using Node.ind with
  | rule line origin selectors declarations => intro originals; rw [traced, preorder]; rfl
  | importStatement line origin statement => intro originals; rw [traced, preorder]; rfl
  | block line origin head reduced children ih =>
    intro originals
    rw [traced, preorder, List.map_cons, tracedAll_eq_flatMap, preorderAll_eq_flatMap,
      List.map_flatMap]
    exact congrArg (_ :: ·) (List.flatMap_congr fun c hc => ih c hc _)

/-- Every node of the merged tree is traced, once. -/
theorem map_snd_traces (tree merged : Node) : (traces tree merged).map Prod.snd = merged.preorder := by
  rw [traces, List.map_cons, tracedAll_eq_flatMap, List.map_flatMap, preorder_eq,
    preorderAll_eq_flatMap]
  exact congrArg (_ :: ·) (List.flatMap_congr fun c _ => map_snd_traced c _)

/-! ## Later values

  The first position of an origin is where the node already stood; the values of the others joined it.
  For a node that was made from one sibling there are none. -/

/-- The values that a merge by header counts: the declarations of a rule, the children of what is none. -/
theorem valueCount_eq (n : Node) : n.valueCount =
    if n.kind = .rule then n.declarations.length else n.children.length := by
  cases n with
  | rule line origin selectors declarations => rfl
  | importStatement line origin statement => rfl
  | block line origin head reduced children =>
    rw [if_neg (kind_block_ne_rule line origin head reduced children)]
    rfl

/-- The number of values of the originals that are not the first of the node. -/
def laterValues (value : Node → Nat) (trace : List Node × Node) : Nat :=
  sumOver (fun i => trace.1[i]?.elim 0 value) trace.2.origin.tail

/-- The later values of the siblings and of all below them. -/
def laterValuesOf (value : Node → Nat) (originals ns : List Node) : Nat :=
  sumOver (laterValues value) (tracedAll originals ns)

variable {value : Node → Nat} {originals : List Node}

@[simp] theorem laterValuesOf_nil : laterValuesOf value originals [] = 0 := by
  rw [laterValuesOf, tracedAll, sumOver_nil]

/-- The later values of siblings, each with what it holds: below a node, positions are those of its
union. -/
theorem laterValuesOf_eq_sumOver (value : Node → Nat) (originals : List Node) : ∀ ns : List Node,
    laterValuesOf value originals ns = sumOver (fun n => laterValues value (originals, n) +
      laterValuesOf value (unionAt originals n.origin) n.children) ns
  | [] => laterValuesOf_nil
  | n :: ns => by
    have ih := laterValuesOf_eq_sumOver value originals ns
    rw [laterValuesOf] at ih
    rw [laterValuesOf, tracedAll, traced_eq, List.cons_append, sumOver_cons, sumOver_append, ih,
      sumOver_cons, Nat.add_assoc]
    rfl

/-- Later values do not depend on the order of the siblings that are left. -/
theorem laterValuesOf_perm {as bs : List Node} (h : as.Perm bs) :
    laterValuesOf value originals as = laterValuesOf value originals bs := by
  rw [laterValuesOf_eq_sumOver, sumOver_perm h, ← laterValuesOf_eq_sumOver]

/-- Later values are counted sibling by sibling. -/
theorem laterValuesOf_append (as bs : List Node) : laterValuesOf value originals (as ++ bs) =
    laterValuesOf value originals as + laterValuesOf value originals bs := by
  rw [laterValuesOf_eq_sumOver, sumOver_append, ← laterValuesOf_eq_sumOver, ← laterValuesOf_eq_sumOver]

/-- A node that was made from one sibling has no later values. -/
theorem laterValues_of_single {n : Node} {i : Nat} (h : n.origin = [i]) :
    laterValues value (originals, n) = 0 := by
  rw [laterValues, h]
  rfl

/-- The later values of what a class of siblings becomes are those of its members but the first. -/
theorem laterValues_of_class {n : Node} {g : Group Sibling} (h : n.origin = Sibling.positions g)
    (hg : ∀ m ∈ g.members, m ∈ Sibling.all originals) :
    laterValues value (originals, n) = sumOver (fun m => value m.1) g.others := by
  have htail : (Sibling.positions g).tail = g.others.map Prod.snd := rfl
  rw [laterValues, h, htail, sumOver_map]
  refine sumOver_congr fun m hm => ?_
  rw [Sibling.getElem?_of_mem_all (hg m (List.mem_cons_of_mem _ hm))]
  rfl

end Node

open Node

variable {siblings : List Node} {g : Group Sibling}

/-! ## The passes

  One induction for each pass, along the recursion of the pass itself.  What is folded to one node
  counts in the class, and what was folded below it counts in the merge of its union. -/

namespace SameHeader

/-- A merge by header folds what its classes take in, and what the merges of their unions fold. -/
theorem pass_absorbed (siblings : List Node) : (pass siblings).absorbed =
    sumOver (fun g => takenIn g + (pass (union g)).absorbed) (classes siblings) := by
  rw [pass_eq, assemble, sumOver_map]

/-- Imports stay alone, so nothing joined them. -/
theorem laterValuesOf_imports (siblings : List Node) :
    laterValuesOf valueCount siblings (Sibling.imports siblings) = 0 := by
  rw [laterValuesOf_eq_sumOver]
  refine sumOver_eq_zero fun n hn => ?_
  obtain ⟨m, hm, rfl⟩ := List.mem_map.mp hn
  obtain ⟨line, origin, statement, he⟩ := exists_importStatement (List.mem_filter.mp hm).2
  rw [laterValues_of_single (origin_withOrigin _ _), Nat.zero_add, he]
  exact laterValuesOf_nil

/-- What a pass counts are the later values of what it leaves. -/
theorem absorbed_eq_laterValues (siblings : List Node) :
    (pass siblings).absorbed = laterValuesOf valueCount siblings (pass siblings).children := by
  induction siblings using union_ind with
  | step siblings ih =>
    have hclasses : laterValuesOf valueCount siblings
        ((classes siblings).map fun g => fold g (pass (union g))) =
          sumOver (fun g => takenIn g + (pass (union g)).absorbed) (classes siblings) := by
      rw [laterValuesOf_eq_sumOver, sumOver_map]
      refine sumOver_congr fun g hg => ?_
      have hall : ∀ m ∈ g.members, m ∈ Sibling.all siblings := fun m hm => mem_all_of_mem_members hg hm
      have hmem : fold g (pass (union g)) ∈ (pass siblings).children :=
        (pass_children_perm siblings).mem_iff.mpr
          (List.mem_append_right _ (List.mem_map_of_mem (f := fun g => fold g (pass (union g))) hg))
      have horigin := origin_fold g (pass (union g))
      have hunion : unionAt siblings (fold g (pass (union g))).origin = union g := by
        rw [horigin]
        exact unionAt_members hall
      -- the node holds the merge of its union, whose later values are what the union absorbed
      rw [laterValues_of_class horigin hall, hunion, (holds_of_mem_pass hmem).children_eq, hunion,
        ← ih g hg]
      rfl
    rw [laterValuesOf_perm (pass_children_perm siblings), laterValuesOf_append, laterValuesOf_imports,
      hclasses, pass_absorbed, Nat.zero_add]

end SameHeader

namespace SameContent

/-- A merge by content folds what its classes take in, and what the merges below the siblings fold. -/
theorem pass_absorbed (siblings : List Node) : (pass siblings).absorbed =
    sumOver takenIn (classes siblings) + sumOver (fun n => (pass n.children).absorbed) siblings := by
  rw [pass, assemble, passesBelow_eq, sumOver_map]

/-- Below the siblings that are no rules stands what was folded at a greater depth. -/
theorem laterValuesOf_kept {siblings : List Node} {ms : List Sibling}
    (hms : ∀ m ∈ ms, m ∈ Sibling.all siblings)
    (h : ∀ m ∈ ms, (pass m.1.children).absorbed =
      laterValuesOf (fun n => n.selectors.length) m.1.children (pass m.1.children).children) :
    laterValuesOf (fun n => n.selectors.length) siblings
        (ms.filterMap fun m => keep m.2 (pass m.1.children) m.1) =
      sumOver (fun n => (pass n.children).absorbed) (ms.map Prod.fst) := by
  -- Member by member: a rule is dropped and has nothing under it, any other node is kept with the
  -- children its own pass made.
  induction ms with
  | nil => exact laterValuesOf_nil
  | cons m ms ih =>
    have ih := ih (fun m hm => hms m (List.mem_cons_of_mem _ hm))
      fun m hm => h m (List.mem_cons_of_mem _ hm)
    have hm := h m List.mem_cons_self
    by_cases hrule : m.1.kind = .rule
    · have hnone : keep m.2 (pass m.1.children) m.1 = none := by rw [keep_eq, if_pos hrule]
      obtain ⟨line, origin, selectors, declarations, he⟩ := exists_rule hrule
      rw [List.filterMap_cons_none (f := fun m : Sibling => keep m.2 (pass m.1.children) m.1) hnone, ih,
        List.map_cons, sumOver_cons, he]
      exact (Nat.zero_add _).symm
    · have hsome : keep m.2 (pass m.1.children) m.1 =
          some ((m.1.afterPass (pass m.1.children)).withOrigin [m.2]) := by rw [keep_eq, if_neg hrule]
      have hholds : ((m.1.afterPass (pass m.1.children)).withOrigin [m.2]).Holds (pass m.1.children) :=
        (holds_afterPass m.1).withOrigin
      rw [List.filterMap_cons_some (f := fun m : Sibling => keep m.2 (pass m.1.children) m.1) hsome,
        ← List.singleton_append, laterValuesOf_append, ih, List.map_cons, sumOver_cons,
        laterValuesOf_eq_sumOver, sumOver_cons, sumOver_nil,
        laterValues_of_single (origin_withOrigin _ _), origin_withOrigin,
        unionAt_singleton (hms m List.mem_cons_self), hholds.children_eq, ← hm]
      omega

/-- A class of rules holds nothing, so all that it adds is what it took in. -/
theorem laterValuesOf_rules (siblings : List Node) :
    laterValuesOf (fun n => n.selectors.length) siblings ((classes siblings).map fold) =
      sumOver takenIn (classes siblings) := by
  rw [laterValuesOf_eq_sumOver, sumOver_map]
  refine sumOver_congr fun g hg => ?_
  rw [laterValues_of_class rfl fun m hm => mem_all_of_mem_members hg hm]
  exact congrArg (_ + ·) laterValuesOf_nil

/-- What a pass counts are the later values of what it leaves. -/
theorem absorbed_eq_laterValues (siblings : List Node) : (pass siblings).absorbed =
    laterValuesOf (fun n => n.selectors.length) siblings (pass siblings).children := by
  induction siblings using children_ind with
  | step siblings ih =>
    have hall : ∀ m ∈ Sibling.all siblings, m ∈ Sibling.all siblings := fun _ hm => hm
    have hkept := laterValuesOf_kept hall fun m hm => ih m.1 (Sibling.mem_of_mem_all hm)
    rw [laterValuesOf_perm (pass_children_perm siblings), laterValuesOf_append, hkept,
      laterValuesOf_rules, Sibling.map_fst_all, pass_absorbed, Nat.add_comm]

end SameContent

/-! ## Trees

  The root was made from nothing and adds nothing, so that the total of a tree is the sum over its
  children and below. -/

namespace Node

/-- Whether a merge of the tree that goes on with some totals keeps the books: nodes and counts of the
merged tree make up the nodes of the tree, the merged tree is the same for all totals, and added to them is
the number of later values of all its nodes, each of which is traced once.  The total is a word and so
is the sum; where it fits, no carry is lost. -/
structure Balanced (merge : MergeTotals → Node → Node × MergeTotals) (value : Node → Nat) (tree : Node) :
    Prop where
  descendants_eq : ∀ totals, tree.descendants =
    (merge totals tree).1.descendants + sumOver reduced (merge totals tree).1.preorder
  tree_eq : ∀ totals totals', (merge totals tree).1 = (merge totals' tree).1
  traced_eq : ∀ totals, (traces tree (merge totals tree).1).map Prod.snd = (merge totals tree).1.preorder
  folded_eq : ∀ totals, (merge totals tree).2.folded =
    totals.folded + UInt64.ofNat (sumOver (laterValues value) (traces tree (merge totals tree).1))
  merged_eq : ∀ totals,
    totals.merged + sumOver (laterValues value) (traces tree (merge totals tree).1) < UInt64.size →
      (merge totals tree).2.merged =
        totals.merged + sumOver (laterValues value) (traces tree (merge totals tree).1)

/-- A merge keeps the books if its pass accounts for the nodes and the values of the children. -/
theorem Balanced.of_pass {merge : MergeTotals → Node → Node × MergeTotals} {value : Node → Nat}
    {tree : Node} {p : Pass} (hmerge : ∀ totals, merge totals tree = (tree.afterPass p, totals.add p))
    (hholds : (tree.afterPass p).Holds p)
    (hsources : sources p.children + p.reduced = population tree.children)
    (habsorbed : p.absorbed = laterValuesOf value tree.children p.children) :
    Balanced merge value tree := by
  obtain ⟨hchildren, hreduced⟩ := hholds
  have horigin : (tree.afterPass p).origin = [] := by cases tree <;> rfl
  -- the root was made from nothing, so all that is traced with values are the children and below
  have hsum : ∀ totals, sumOver (laterValues value) (traces tree (merge totals tree).1) = p.absorbed := by
    intro totals
    have hroot : laterValues value ([], tree.afterPass p) = 0 := by
      rw [laterValues, horigin]
      rfl
    rw [hmerge, traces, sumOver_cons, hroot, Nat.zero_add, hchildren, ← laterValuesOf, ← habsorbed]
  constructor
  · intro totals
    rw [hmerge, descendants_eq_population, descendants_eq_population, preorder_eq, sumOver_cons, hchildren,
      hreduced, ← hsources, sources, totalReduced]
    omega
  · intro totals totals'
    rw [hmerge, hmerge]
  · intro totals
    exact map_snd_traces tree (merge totals tree).1
  · intro totals
    rw [hsum, hmerge]
    rfl
  · intro totals hfits
    rw [hsum] at hfits ⊢
    rw [hmerge]
    exact MergeTotals.merged_add hfits

/-- Both merges keep the books on every tree: by header with the declarations of rules and the children of
blocks as their values, by content with the selectors of rules. -/
theorem merges_balanced (tree : Node) :
    Balanced mergeByHeaderWith
      (fun n => if n.kind = .rule then n.declarations.length else n.children.length) tree ∧
    Balanced mergeByContentWith (fun n => n.selectors.length) tree := by
  constructor
  · rw [← funext valueCount_eq]
    exact Balanced.of_pass (fun _ => rfl) (SameHeader.holds_afterPass tree)
      (SameHeader.sources_pass tree.children) (SameHeader.absorbed_eq_laterValues tree.children)
  · exact Balanced.of_pass (fun _ => rfl) (SameContent.holds_afterPass tree)
      (SameContent.sources_pass tree.children) (SameContent.absorbed_eq_laterValues tree.children)

/-- Two blocks of one header, of which the second holds two rules, one of a selector that the first block
has as well. -/
def unitedBlocks : Node :=
  block 0 [] .sheet 0
    [block 1 [] (.atRule .media "@media x".toList) 0 [rule 1 [] [".a".toList] ["c:1".toList]],
     block 2 [] (.atRule .media "@media x".toList) 0
      [rule 2 [] [".a".toList] ["d:2".toList], rule 2 [] [".b".toList] ["e:3".toList]]]

/-- Two rules joined the first block, and one declaration the first of its rules. -/
example : (traces unitedBlocks unitedBlocks.mergeByHeader).map (laterValues valueCount) = [0, 2, 1, 0] := by
  decide +kernel

/-- The three of them make 2 of the largest total. -/
example : (mergeByHeaderWith ⟨.ofNat (UInt64.size - 1)⟩ unitedBlocks).2.merged = 2 := by decide +kernel

end Node

end StyleFold
