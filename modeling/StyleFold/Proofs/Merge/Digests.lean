/-
  Digests — what merging by content sees of its siblings.

  The second pass is the last one, and what it leaves has to be shown equal for two trees that differ in
  the order of their nodes.  It reads less of its siblings than they have, and comparing what it reads
  is enough.

  1. **Digests** — a digest has the declarations of a rule in no order and the merged children of a block,
     and no lines or origins.  It has the keys of its node, so the passes group and sort as before.
  2. **Merging digests** — the outcome of the pass, lines and origins apart, is told by the digests of the
     rules and those of the other siblings (`SameContent.pass_of_digests`).
-/
import StyleFold.Proofs.Merge.Compressed

namespace StyleFold

open Node

/-- The outcome of a pass without lines and origins. -/
def Pass.unplaced (p : Pass) : List Node × Nat := (p.children.map Node.unplaced, p.reduced)

/-- Outcomes that are equal without lines and origins have equal children without them. -/
theorem Pass.children_of_unplaced {p q : Pass} (h : p.unplaced = q.unplaced) :
    p.children.map Node.unplaced = q.children.map Node.unplaced := congrArg Prod.fst h

/-! ## Digests

  A rule is read by its selectors and its sorted declarations; of other siblings the pass reads what
  their children are merged to. -/

namespace SameContent

variable {siblings siblings' : List Node}

/-- What merging by content sees of a sibling. -/
def digest (n : Node) : Node :=
  match n with
  | .rule _ _ selectors _ => .rule 0 [] selectors (contentKey n)
  | .importStatement .. | .block .. => keepLabelled (fun _ => 0) id n

/-- A digest keeps the kind. -/
theorem kind_digest (n : Node) : (digest n).kind = n.kind := by
  rcases n with _ | _ | ⟨_, _, _ | _, _, _⟩ <;> rfl

theorem headerText_digest (n : Node) : (digest n).headerText = n.headerText := by
  rcases n with _ | _ | ⟨_, _, _ | _, _, _⟩ <;> rfl

theorem selectors_digest (n : Node) : (digest n).selectors = n.selectors := by
  cases n <;> rfl

/-- A digest keeps the key by which rules are merged. -/
theorem contentKey_digest (n : Node) : contentKey (digest n) = contentKey n := by
  cases n with
  | rule line origin selectors ds =>
    show (Text.sort (contentKey (rule line origin selectors ds))).reverse = _
    rw [Text.sort_eq_of_perm (contentKey_perm _)]
    rfl
  | importStatement line origin statement => rfl
  | block line origin head reduced children => rfl

/-- Merging by content does not see the labels that a `plain` node has lost. -/
theorem digest_plain (n : Node) : digest n.plain = digest n := by
  cases n with
  | rule line origin selectors declarations => rw [plain, relabel_rule]; rfl
  | importStatement line origin statement => rw [plain, relabel_importStatement]; rfl
  | block line origin head reduced children =>
    rw [plain, relabel_block, digest, digest, keepLabelled, keepLabelled, pass_relabel]

/-- A digest is taken before or after a choice by kind. -/
theorem filter_map_digest (p : Kind → Bool) (siblings : List Node) :
    (siblings.map digest).filter (fun n => p n.kind) = (siblings.filter fun n => p n.kind).map digest := by
  rw [List.filter_map]
  simp only [Function.comp_def, kind_digest]

/-! ## Merging digests

  The pass of siblings in any order may be computed from their digests, so long as the sort keeps apart
  what it does not tell apart. -/

/-- The siblings that the pass makes, up to lines and origins. -/
theorem unplaced_children_pass (siblings : List Node) :
    (pass siblings).children.map unplaced = Text.sortOn headerText
      (((siblings.map digest).filter fun n => !(n.kind == .rule)) ++
        (Group.groups contentKey ((siblings.map digest).filter fun n => n.kind == .rule)).map
          (foldLabelled fun _ => 0)) := by
  -- The nodes that are kept are their digests already; rules fold to what their digests fold to.
  have hkept : ((siblings.filter fun n => !(n.kind == .rule)).map (keepLabelled (fun _ => 0) id)) =
      (siblings.map digest).filter fun n => !(n.kind == .rule) := by
    rw [filter_map_digest fun k => !(k == .rule)]
    refine List.map_congr_left fun n hn => ?_
    have hk := (List.mem_filter.mp hn).2
    cases n with
    | rule line origin selectors declarations => exact absurd hk (by simp [kind])
    | importStatement line origin statement => rfl
    | block line origin head reduced children => rfl
  have hfold : ∀ g : Group Node, foldLabelled (fun _ => 0) (g.map digest) =
      foldLabelled (fun _ => 0) g := by
    intro g
    rw [foldLabelled, foldLabelled, Group.members_map, List.flatMap_map]
    simp only [selectors_digest, Group.map, contentKey_digest]
  show (pass siblings).children.map (relabel (fun _ => 0) id) = _
  rw [relabel_pass, hkept, filter_map_digest fun k => k == .rule, Group.groups_map, List.map_map]
  simp only [contentKey_digest, Function.comp_def, hfold]

/-- The count of the pass is the number of rules without that of the classes. -/
theorem reduced_pass (siblings : List Node) : (pass siblings).reduced =
    ((siblings.map digest).filter fun n => n.kind == .rule).length -
      (Group.groups contentKey ((siblings.map digest).filter fun n => n.kind == .rule)).length := by
  have hrules : ((Sibling.all siblings).filter fun m => m.1.kind == .rule).length =
      ((siblings.map digest).filter fun n => n.kind == .rule).length := by
    rw [filter_map_digest fun k => k == .rule, List.length_map,
      ← Sibling.map_fst_filter fun n => n.kind == .rule, List.length_map]
  have hclasses : (classes siblings).length =
      (Group.groups contentKey ((siblings.map digest).filter fun n => n.kind == .rule)).length := by
    rw [filter_map_digest fun k => k == .rule, Group.groups_map, List.length_map]
    simp only [contentKey_digest]
    rw [← Sibling.map_groups contentKey fun n => n.kind == .rule, List.length_map]
    rfl
  have hadd : (classes siblings).length + Group.takenAway (classes siblings) =
      ((Sibling.all siblings).filter fun m => m.1.kind == .rule).length :=
    Group.length_groups_add_takenAway _ _
  rw [pass_reduced]
  omega

/-- Merging by content is told by the digests of the rules and of the others. -/
theorem pass_of_digests
    (hrules : ((siblings.map digest).filter fun n => n.kind == .rule) =
      (siblings'.map digest).filter fun n => n.kind == .rule)
    (hothers : ((siblings.map digest).filter fun n => !(n.kind == .rule)) =
      (siblings'.map digest).filter fun n => !(n.kind == .rule)) :
    (pass siblings).unplaced = (pass siblings').unplaced := by
  rw [Pass.unplaced, Pass.unplaced, unplaced_children_pass, unplaced_children_pass, reduced_pass, reduced_pass, hrules,
    hothers]

end SameContent

end StyleFold
