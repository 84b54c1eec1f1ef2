/-
  Traversal — the stack of pending nodes yields the preorder listing, and each node of a tree once.

  The stack is no part of the tree: its nodes are siblings from different depths, and a node that was taken
  off has left its children behind.  Read from the top, though, its nodes with all below them are always
  the rest of the recursive listing, and that is the invariant that carries the traversal.

  1. **Paths** — `paths`, the paths to all nodes of a tree; they ascend in lexicographic order, and the
     nodes they lead to are the preorder listing.  Two nodes may be equal, their paths are not.
  2. **Working off the stack** — what a stack yields is the listing of its nodes one after another.
  3. **Calls** — the traversal made one call at a time, on a stack with its top at the end: after `k` calls
     the stack stands for the listing less its first `k` nodes, so it is empty exactly when all of them
     were yielded (`walk_visits_in_preorder`).
-/
import Mathlib.Data.List.Basic
import Mathlib.Data.List.Induction
import Mathlib.Logic.Function.Iterate
import StyleFold.Proofs.Tree.Levels
import StyleFold.Tree.Edit

namespace StyleFold.Node

/-! ## Paths

  A path is a list of positions from the top; equal nodes at two places have different paths. -/

mutual

/-- The paths to the node itself and to all below it, each before the paths that lead on from it. -/
def paths : Node → List (List Nat)
  | rule .. | importStatement .. => [[]]
  | block _ _ _ _ children => [] :: pathsFrom 0 children

/-- The paths to the siblings and to all below them, if the first sibling is at position `i`. -/
def pathsFrom (i : Nat) : List Node → List (List Nat)
  | [] => []
  | n :: ns => n.paths.map (i :: ·) ++ pathsFrom (i + 1) ns

end

/-- The paths of a node: the empty one, and those through its children. -/
theorem paths_eq (n : Node) : n.paths = [] :: pathsFrom 0 n.children := by
  cases n with
  | block line origin head reduced children => rw [paths]; rfl
  | _ => rw [paths, children, pathsFrom]

/-- The paths through siblings begin with their positions. -/
theorem pathsFrom_eq_flatMap : ∀ (i : Nat) (ns : List Node),
    pathsFrom i ns = (ns.zipIdx i).flatMap fun m => m.1.paths.map (m.2 :: ·)
  | _, [] => by rw [pathsFrom]; rfl
  | i, n :: ns => by rw [pathsFrom, pathsFrom_eq_flatMap (i + 1) ns]; rfl

/-- The node itself is at the empty path; a path that goes on leads through a child. -/
theorem mem_paths_iff {n : Node} {path : List Nat} : path ∈ n.paths ↔
    path = [] ∨ ∃ i child, n.children[i]? = some child ∧ ∃ rest ∈ child.paths, path = i :: rest := by
  rw [paths_eq, List.mem_cons, pathsFrom_eq_flatMap, List.mem_flatMap]
  refine or_congr_right ⟨?_, ?_⟩
  · rintro ⟨⟨child, i⟩, hchild, hpath⟩
    obtain ⟨rest, hrest, rfl⟩ := List.mem_map.mp hpath
    exact ⟨i, child, List.mem_zipIdx_iff_getElem?.mp hchild, rest, hrest, rfl⟩
  · rintro ⟨i, child, hchild, rest, hrest, rfl⟩
    exact ⟨(child, i), List.mem_zipIdx_iff_getElem?.mpr hchild, List.mem_map.mpr ⟨rest, hrest, rfl⟩⟩

/-- Exactly the listed paths lead to a node. -/
theorem mem_paths_iff_isSome (n : Node) : ∀ path, path ∈ n.paths ↔ (n.at? path).isSome := by
  intro path
  induction path generalizing n with
  | nil => exact ⟨fun _ => rfl, fun _ => mem_paths_iff.mpr (.inl rfl)⟩
  | cons i path ih =>
    rw [mem_paths_iff, at?, Option.isSome_bind, Option.any_eq_true]
    constructor
    · rintro (h | ⟨j, child, hchild, rest, hrest, heq⟩)
      · cases h
      · cases heq
        exact ⟨child, hchild, (ih child).mp hrest⟩
    · rintro ⟨child, hchild, hsome⟩
      exact .inr ⟨i, child, hchild, path, (ih child).mpr hsome, rfl⟩

/-- The paths ascend: a node comes before all below it, and those before the next sibling. -/
theorem pairwise_paths (n : Node) : n.paths.Pairwise (· < ·) := by
  induction n using Node.ind with
  | rule line origin selectors declarations => rw [paths]; exact List.pairwise_singleton _ _
  | importStatement line origin statement => rw [paths]; exact List.pairwise_singleton _ _
  | block line origin head reduced children ih =>
    have hpositions : (children.zipIdx 0).Pairwise fun a b => a.2 < b.2 := by
      rw [← List.pairwise_map, List.zipIdx_map_snd]
      exact List.pairwise_lt_range'
    rw [paths, List.pairwise_cons, pathsFrom_eq_flatMap, List.pairwise_flatMap]
    -- the node before all below it, the paths into one child, the paths into two children
    refine ⟨?_, ?_, hpositions.imp ?_⟩
    · intro path hpath
      obtain ⟨m, -, hpath⟩ := List.mem_flatMap.mp hpath
      obtain ⟨rest, -, rfl⟩ := List.mem_map.mp hpath
      exact List.nil_lt_cons m.2 rest
    · intro m hm
      have hbelow := ih m.1 (List.fst_mem_of_mem_zipIdx hm)
      exact List.pairwise_map.mpr (hbelow.imp fun h => List.cons_lt_cons_iff.mpr (.inr ⟨rfl, h⟩))
    · intro a b hab p hp q hq
      obtain ⟨p, -, rfl⟩ := List.mem_map.mp hp
      obtain ⟨q, -, rfl⟩ := List.mem_map.mp hq
      exact List.cons_lt_cons_iff.mpr (.inl hab)

/-- The nodes at the paths, in the order of the paths, are the preorder listing. -/
theorem map_at?_paths (n : Node) : n.paths.map (fun path => n.at? path) = n.preorder.map some := by
  induction n using Node.ind with
  | rule line origin selectors declarations => rw [paths, preorder]; rfl
  | importStatement line origin statement => rw [paths, preorder]; rfl
  | block line origin head reduced children ih =>
    have hchild : ∀ m ∈ children.zipIdx,
        (m.1.paths.map (m.2 :: ·)).map (fun path => (block line origin head reduced children).at? path) =
          m.1.preorder.map some := by
      intro m hm
      have hfound : children[m.2]? = some m.1 := List.mem_zipIdx_iff_getElem?.mp hm
      rw [List.map_map, ← ih m.1 (List.fst_mem_of_mem_zipIdx hm)]
      refine List.map_congr_left fun path _ => ?_
      show (children[m.2]?).bind (at? path) = m.1.at? path
      rw [hfound]
      rfl
    have hchildren : (children.zipIdx.map Prod.fst).flatMap preorder = preorderAll children := by
      rw [List.zipIdx_map_fst, preorderAll_eq_flatMap]
    rw [paths, preorder, List.map_cons, List.map_cons, ← hchildren, pathsFrom_eq_flatMap, List.flatMap_map,
      List.map_flatMap, List.map_flatMap, List.flatMap_congr hchild]
    rfl

example : (block 0 [] .sheet 0
      [block 1 [] (.atRule .media "@media x".toList) 0 [rule 2 [] [] []], rule 2 [] [] []]).paths =
    [[], [0], [0, 0], [1]] := by decide

/-! ## Working off the stack -/

/-- What a stack yields is the listing of its first node, then of the next, down to the last. -/
theorem walkStack_eq_preorderAll (stack : List Node) : walkStack stack = preorderAll stack := by
  -- over the run and not over a tree: the children and the rest of the stack are one stack from here on
  fun_induction walkStack stack with
  | case1 => rw [preorderAll]
  | case2 n stack ih => rw [ih, preorderAll_append, preorderAll, preorder_eq, List.cons_append]

/-- A walk from a stack visits all nodes on it and below. -/
theorem length_walkStack (stack : List Node) : (walkStack stack).length = population stack := by
  fun_induction walkStack stack with
  | case1 => rfl
  | case2 n stack ih =>
    rw [List.length_cons, ih, population_append, population_cons, descendants_eq_population]
    omega

/-- A walk visits the node and all its descendants. -/
theorem length_walk (n : Node) : n.walk.length = 1 + n.descendants := by
  rw [walk, length_walkStack, population_cons, population_nil, Nat.add_zero]

/-! ## Calls

  Each call takes one node off the stack and puts its children there, so the stack never holds a node
  that was yielded. -/

/-- The stack that a call leaves behind: the node on top, which the call answers with, is taken off, and its
children are put on from the last to the first.  An empty stack has no answer and stays empty. -/
def afterCall (stack : List Node) : List Node :=
  match stack.getLast? with
  | none => []
  | some n => stack.dropLast ++ n.children.reverse

/-- A call takes the node on the top, and puts its children there with the first on the top. -/
theorem afterCall_concat (stack : List Node) (n : Node) :
    afterCall (stack ++ [n]) = stack ++ n.children.reverse := by
  rw [afterCall, List.getLast?_concat, List.dropLast_concat]

/-- A call answers with the first node of what the stack yields. -/
theorem getLast?_eq_head? (stack : List Node) :
    stack.getLast? = (walkStack stack.reverse).head? := by
  cases stack using List.reverseRecOn with
  | nil => rw [List.reverse_nil, walkStack]; rfl
  | append_singleton stack n =>
    rw [List.getLast?_concat, List.reverse_concat, walkStack, List.head?_cons]

/-- One call takes one node, the first, from what the stack yields. -/
theorem walkStack_afterCall (stack : List Node) :
    walkStack (afterCall stack).reverse = (walkStack stack.reverse).tail := by
  cases stack using List.reverseRecOn with
  | nil => rw [afterCall, List.getLast?_nil, List.reverse_nil, walkStack, List.tail_nil]
  | append_singleton stack n =>
    rw [afterCall_concat, List.reverse_append, List.reverse_reverse, List.reverse_concat,
      walkStack, List.tail_cons]

/-- After `k` calls, the stack yields what it would have yielded, less the first `k` nodes. -/
theorem walkStack_iterate_afterCall (stack : List Node) (k : Nat) :
    walkStack (afterCall^[k] stack).reverse = (walkStack stack.reverse).drop k := by
  induction k with
  | zero => rfl
  | succ k ih => rw [Function.iterate_succ_apply', walkStack_afterCall, ih, List.tail_drop]

/-- The call after `k` calls answers with the node at position `k` of what the stack yields. -/
theorem getLast?_iterate_afterCall (stack : List Node) (k : Nat) :
    (afterCall^[k] stack).getLast? = (walkStack stack.reverse)[k]? := by
  rw [getLast?_eq_head?, walkStack_iterate_afterCall, List.head?_drop]

/-- The stack is empty after as many calls as it has nodes, on it and below, and not before. -/
theorem iterate_afterCall_eq_nil_iff (stack : List Node) (k : Nat) :
    afterCall^[k] stack = [] ↔ population stack.reverse ≤ k := by
  rw [← length_walkStack, ← List.getElem?_eq_none_iff, ← getLast?_iterate_afterCall,
    List.getLast?_eq_none_iff]

/-- The traversal lists a tree in preorder, each node once, and ends: the listing goes along all paths of
the tree in ascending order, the call after `k` calls answers with its node at `k`, and the stack is empty
from the call on that took the last of the nodes. -/
theorem walk_visits_in_preorder (n : Node) :
    n.walk = n.preorder ∧ n.walk.length = 1 + n.descendants ∧
    (n.walk.map some = n.paths.map (fun path => n.at? path) ∧ n.paths.Pairwise (· < ·) ∧
      ∀ path, path ∈ n.paths ↔ (n.at? path).isSome) ∧
    ∀ k, (afterCall^[k] [n]).getLast? = n.walk[k]? ∧
      (afterCall^[k] [n] = [] ↔ 1 + n.descendants ≤ k) := by
  have hwalk : n.walk = n.preorder := by
    rw [walk, walkStack_eq_preorderAll, preorderAll, preorderAll, List.append_nil]
  have hpaths : n.walk.map some = n.paths.map (fun path => n.at? path) := by rw [hwalk, map_at?_paths]
  refine ⟨hwalk, length_walk n, ⟨hpaths, pairwise_paths n, mem_paths_iff_isSome n⟩, fun k => ⟨?_, ?_⟩⟩
  · exact getLast?_iterate_afterCall [n] k
  · rw [iterate_afterCall_eq_nil_iff, List.reverse_singleton, population_cons, population_nil,
      Nat.add_zero]

end StyleFold.Node
