/-
  Balance — what the counts of a merged tree tell.

  Every block counts the siblings that grouping took away among its children.  So the nodes of a merged
  tree and its counts add up to the nodes that were merged.

  The counts are written while grouping, one for each block, and the nodes are counted on the finished
  tree. A node that was folded away took its children with it, and these are counted again below the
  node that it was folded into: in the sum over all levels nothing is lost and nothing counted twice.

  1. **Sums** over sibling lists.
  2. **Sources** — nodes and counts together, as a sum over siblings.
  3. **The balance** of both passes (`SameHeader.sources_pass`, `SameContent.sources_pass`), and that a
     pass counts nothing if it takes no node away (`Node.reduced_afterPass`).
-/
import StyleFold.Proofs.Merge.Classes
import StyleFold.Proofs.Merge.Tally
import StyleFold.Proofs.Tree.Levels

namespace StyleFold

/-! ## Sums

  What a sum over a list is that was put together, permuted or relabelled. -/

section

variable {α : Type} {count : α → Nat}

theorem sumOver_append (count : α → Nat) (as bs : List α) :
    sumOver count (as ++ bs) = sumOver count as + sumOver count bs := by
  induction as with
  | nil => simp
  | cons a as ih => rw [List.cons_append, sumOver_cons, sumOver_cons, ih, Nat.add_assoc]

theorem sumOver_perm {as bs : List α} (h : as.Perm bs) : sumOver count as = sumOver count bs := by
  induction h with
  | nil => rfl
  | cons a _ ih => rw [sumOver_cons, sumOver_cons, ih]
  | swap a b _ => simp only [sumOver_cons]; omega
  | trans _ _ ih ih' => exact ih.trans ih'

theorem sumOver_congr {count' : α → Nat} : ∀ {l : List α}, (∀ a ∈ l, count a = count' a) →
    sumOver count l = sumOver count' l
  | [], _ => rfl
  | a :: l, h => by
    have ih := sumOver_congr fun b hb => h b (List.mem_cons_of_mem a hb)
    rw [sumOver_cons, sumOver_cons, h a List.mem_cons_self, ih]

theorem sumOver_eq_zero : ∀ {l : List α}, (∀ a ∈ l, count a = 0) → sumOver count l = 0
  | [], _ => rfl
  | a :: l, h => by
    have ih := sumOver_eq_zero fun b hb => h b (List.mem_cons_of_mem a hb)
    rw [sumOver_cons, h a List.mem_cons_self, ih]

/-- Where the sum is zero, nothing counts. -/
theorem eq_zero_of_sumOver : ∀ {l : List α}, sumOver count l = 0 → ∀ a ∈ l, count a = 0
  | [], _ => fun a ha => absurd ha List.not_mem_nil
  | a :: l, h => by
    rw [sumOver_cons] at h
    exact List.forall_mem_cons.mpr ⟨by omega, eq_zero_of_sumOver (by omega)⟩

end

namespace Node

/-- The nodes of siblings: each with all below it. -/
theorem population_eq_sumOver : ∀ ns : List Node,
    population ns = sumOver (fun n => 1 + n.descendants) ns
  | [] => by rw [population_nil, sumOver_nil]
  | n :: ns => by rw [population_cons, population_eq_sumOver ns, sumOver_cons]

/-- The order of siblings does not matter to the number of their nodes. -/
theorem population_perm {as bs : List Node} (h : as.Perm bs) : population as = population bs := by
  rw [population_eq_sumOver, population_eq_sumOver, sumOver_perm h]

/-! ## Sources

  A node stands for itself and for those that its block took away, at every depth. -/

/-- All counts of the siblings and below, together. -/
def totalReduced (siblings : List Node) : Nat := sumOver reduced (preorderAll siblings)

/-- How many nodes the siblings and all below were made of, so far as the counts tell. -/
def sources (siblings : List Node) : Nat := population siblings + totalReduced siblings

@[simp] theorem totalReduced_nil : totalReduced [] = 0 := rfl

/-- The counts of a node, of what it holds and of the siblings behind it. -/
@[simp] theorem totalReduced_cons (n : Node) (ns : List Node) :
    totalReduced (n :: ns) = n.reduced + totalReduced n.children + totalReduced ns := by
  rw [totalReduced, preorderAll, sumOver_append, preorder_eq, sumOver_cons]
  rfl

/-- If all counts together are zero, each of them is, at every depth. -/
theorem reduced_of_totalReduced {siblings : List Node} (h : totalReduced siblings = 0) :
    ∀ n ∈ siblings, n.reduced = 0 ∧ totalReduced n.children = 0 := by
  induction siblings with
  | nil => exact fun n hn => absurd hn List.not_mem_nil
  | cons a as ih =>
    rw [totalReduced_cons] at h
    exact List.forall_mem_cons.mpr ⟨by omega, ih (by omega)⟩

@[simp] theorem sources_nil : sources [] = 0 := rfl

/-- A node stands for itself, for those that were taken away among its children, and for what it holds. -/
@[simp] theorem sources_cons (n : Node) (ns : List Node) :
    sources (n :: ns) = 1 + n.reduced + sources n.children + sources ns := by
  simp only [sources, population_cons, totalReduced_cons, descendants_eq_population]
  omega

theorem sources_eq_sumOver : ∀ ns : List Node,
    sources ns = sumOver (fun n => 1 + n.reduced + sources n.children) ns
  | [] => rfl
  | n :: ns => by rw [sources_cons, sources_eq_sumOver ns, sumOver_cons]

theorem sources_append (as bs : List Node) : sources (as ++ bs) = sources as + sources bs := by
  rw [sources_eq_sumOver, sumOver_append, ← sources_eq_sumOver, ← sources_eq_sumOver]

theorem sources_perm {as bs : List Node} (h : as.Perm bs) : sources as = sources bs := by
  rw [sources_eq_sumOver, sumOver_perm h, ← sources_eq_sumOver]

end Node

open Node

/-! ## The balance

  By induction along each pass: the nodes of a class are its first member, the others that were taken
  away, and the union that is merged in turn. -/

variable {siblings : List Node} {g : Group Sibling}

namespace SameHeader

/-- Imports come from themselves only. -/
theorem sources_imports {ms : List Sibling} (h : ∀ m ∈ ms, m.1.isImport = true) :
    sources (ms.map fun m => m.1.withOrigin [m.2]) = population (ms.map Prod.fst) := by
  rw [sources_eq_sumOver, population_eq_sumOver, sumOver_map, sumOver_map _ Prod.fst]
  refine sumOver_congr fun m hm => ?_
  obtain ⟨line, origin, statement, he⟩ := exists_importStatement (h m hm)
  rw [he]
  rfl

/-- The node of a class stands for itself and for all that its members hold. -/
theorem sources_fold (hg : g ∈ classes siblings)
    (ih : sources (pass (union g)).children + (pass (union g)).reduced = population (union g)) :
    sources [fold g (pass (union g))] = 1 + population (union g) := by
  cases hfirst : g.first.1 with
  | importStatement line origin statement =>
    have := isImport_of_mem_members hg (List.mem_cons_self (a := g.first))
    rw [hfirst] at this
    exact absurd this (by simp [isImport])
  | rule line origin selectors declarations =>
    rw [fold, hfirst, union_of_rule hfirst fun m hm => Group.key_eq hg hm]
    rfl
  | block line origin head reduced children =>
    rw [fold, hfirst, sources_cons]
    simp only [afterPass, rebuild, withOrigin, Node.reduced, Node.children, sources_nil]
    omega

/-- If every class makes up for its first member and its union, the classes make up for all their
members. -/
theorem sources_classes : ∀ {gs : List (Group Sibling)},
    (∀ g ∈ gs, sources [fold g (pass (union g))] = 1 + population (union g)) →
      sources (gs.map fun g => fold g (pass (union g))) + Group.takenAway gs =
        population ((gs.flatMap Group.members).map Prod.fst)
  | [], _ => rfl
  | g :: gs, h => by
    have ih := sources_classes fun g' hg' => h g' (List.mem_cons_of_mem g hg')
    have hg := h g List.mem_cons_self
    -- A class has as many nodes below it as its members have; of the members themselves one is
    -- left.
    have hunion : population (union g) + g.members.length = population (g.members.map Prod.fst) :=
      population_flatMap_children g.members
    rw [Group.takenAway] at ih
    rw [sources_cons, sources_nil] at hg
    rw [List.map_cons, List.flatMap_cons, List.map_append, population_append, sources_cons,
      Group.takenAway, sumOver_cons]
    have hlength : g.members.length = g.others.length + 1 := rfl
    omega

/-- Merging by header: the nodes and counts of the result are the nodes of the siblings. -/
theorem sources_pass (siblings : List Node) :
    sources (pass siblings).children + (pass siblings).reduced = population siblings := by
  induction siblings using union_ind with
  | step siblings ih =>
    have himports : sources (Sibling.imports siblings) =
        population (((Sibling.all siblings).filter fun m => m.1.isImport).map Prod.fst) :=
      sources_imports fun m hm => (List.mem_filter.mp hm).2
    have hclasses := sources_classes fun g hg => sources_fold hg (ih g hg)
    have hmembers : population (((classes siblings).flatMap Group.members).map Prod.fst) =
        population (((Sibling.all siblings).filter fun m => !m.1.isImport).map Prod.fst) :=
      population_perm ((Group.flatMap_members_perm _ _).map Prod.fst)
    rw [sources_perm (pass_children_perm siblings), sources_append, himports, pass_reduced,
      ← population_perm (Sibling.cut_perm (fun m => m.1.isImport) siblings), population_append]
    omega

end SameHeader

namespace SameContent

/-- Siblings that are kept make up for themselves if what was merged below them does. -/
theorem sources_kept {f : Node → Pass} {ms : List Sibling}
    (h : ∀ m ∈ ms, sources (f m.1).children + (f m.1).reduced = population m.1.children) :
    sources (ms.filterMap fun m => keep m.2 (f m.1) m.1) =
      population ((ms.filter fun m => !(m.1.kind == .rule)).map Prod.fst) := by
  rw [filterMap_keep, sources_eq_sumOver, population_eq_sumOver, sumOver_map, sumOver_map _ Prod.fst]
  refine sumOver_congr fun m hm => ?_
  have hinner := h m (List.mem_filter.mp hm).1
  cases hnode : m.1 with
  | rule line origin selectors declarations => rfl
  | importStatement line origin statement => rfl
  | block line origin head reduced children =>
    rw [hnode] at hinner
    rw [descendants_eq_population, ← hinner]
    simp only [afterPass, rebuild, withOrigin, Node.reduced, Node.children]
    omega

/-- Rules hold nothing and count nothing, so each is one source. -/
theorem sources_rules : ∀ gs : List (Group Sibling), sources (gs.map fold) = gs.length
  | [] => rfl
  | g :: gs => by
    rw [List.map_cons, sources_cons, sources_rules gs, fold]
    simp only [Node.reduced, Node.children, sources_nil, List.length_cons]
    omega

/-- Rules are as many nodes as they are siblings. -/
theorem population_rules : ∀ {ns : List Node}, (∀ n ∈ ns, n.kind = .rule) → population ns = ns.length
  | [], _ => rfl
  | n :: ns, h => by
    have ih := population_rules fun m hm => h m (List.mem_cons_of_mem n hm)
    obtain ⟨line, origin, selectors, declarations, rfl⟩ := exists_rule (h n List.mem_cons_self)
    rw [population_cons, ih, descendants, List.length_cons]
    omega

/-- Merging by content: the nodes and counts of the result are the nodes of the siblings. -/
theorem sources_pass (siblings : List Node) :
    sources (pass siblings).children + (pass siblings).reduced = population siblings := by
  induction siblings using children_ind with
  | step siblings ih =>
    have hkept : sources
        ((Sibling.all siblings).filterMap fun m => keep m.2 (pass m.1.children) m.1) =
        population (((Sibling.all siblings).filter fun m => !(m.1.kind == .rule)).map Prod.fst) :=
      sources_kept (f := fun n => pass n.children) fun m hm => ih m.1 (Sibling.mem_of_mem_all hm)
    have hrules : population (((Sibling.all siblings).filter fun m => m.1.kind == .rule).map Prod.fst) =
        (classes siblings).length + Group.takenAway (classes siblings) := by
      rw [population_rules, List.length_map]
      · exact (Group.length_groups_add_takenAway _ _).symm
      · intro n hn
        obtain ⟨m, hm, rfl⟩ := List.mem_map.mp hn
        simpa using (List.mem_filter.mp hm).2
    rw [sources_perm (pass_children_perm siblings), sources_append, hkept, sources_rules, pass_reduced,
      ← population_perm (Sibling.cut_perm (fun m => m.1.kind == .rule) siblings), population_append,
      hrules]
    omega

end SameContent

/-- A pass that takes no node away counts nothing, in the tree and below. -/
theorem Node.reduced_afterPass {tree : Node} {pass : Pass}
    (hbalance : sources pass.children + pass.reduced = population tree.children)
    (hpopulation : population pass.children = population tree.children) :
    ∀ n ∈ (tree.afterPass pass).preorder, n.reduced = 0 := by
  rw [sources] at hbalance
  cases tree with
  | rule line origin selectors declarations =>
    rw [preorder_eq]
    exact List.forall_mem_singleton.mpr rfl
  | importStatement line origin statement =>
    rw [preorder_eq]
    exact List.forall_mem_singleton.mpr rfl
  | block line origin head reduced children =>
    rw [preorder_eq]
    -- Nothing was taken away in all: as many nodes are left as there were, so no count is positive.
    have hbelow : sumOver Node.reduced (preorderAll pass.children) = 0 := by
      show totalReduced pass.children = 0
      omega
    refine List.forall_mem_cons.mpr ⟨?_, eq_zero_of_sumOver hbelow⟩
    show pass.reduced = 0
    omega

end StyleFold
