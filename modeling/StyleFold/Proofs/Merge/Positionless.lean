/-
  Positionless — the merge passes, apart from the positions that they record.

  A pass groups siblings together with their positions, for the origins of what it makes.  Up to labels
  the positions do not matter: the result is the sort of what the classes of the nodes alone become.

  Relabelling maps lines and counts and empties origins.  A property of the passes that holds for all
  relabellings says two things at once: that the outcome does not depend on the labels, and what its own
  labels are.

  1. **Nodes without positions** — grouping siblings is grouping their nodes.
  2. **Merging by header** — what it makes up to labels (`SameHeader.relabel_pass`), and that it does not
     look at origins and counts (`SameHeader.pass_relabel`).
  3. **Classes of nodes** — what they become without counts, and recursion through them
     (`SameHeader.nodeClasses_ind`).
  4. **Merging by content** — the result up to labels, and that it does not look at origins and counts.
-/
import StyleFold.Proofs.Merge.Keys
import StyleFold.Proofs.Text.Order
import StyleFold.Proofs.Tree.Labels

namespace StyleFold

open Node

variable {onLine onReduced : Nat → Nat}

/-! ## Nodes without positions

  Numbering the siblings and forgetting the numbers again goes along with everything that a pass does to
  a list. -/

namespace Sibling

/-- Siblings are chosen before or after they are numbered. -/
theorem map_fst_filter (p : Node → Bool) (siblings : List Node) :
    ((all siblings).filter fun m => p m.1).map Prod.fst = siblings.filter p := by
  conv => rhs; rw [← map_fst_all siblings]
  rw [List.filter_map]
  rfl

/-- The classes of siblings, without positions, are the classes of the nodes. -/
theorem map_groups {κ : Type} [DecidableEq κ] (key : Node → κ) (p : Node → Bool)
    (siblings : List Node) :
    (Group.groups (fun m : Sibling => key m.1) ((all siblings).filter fun m => p m.1)).map
      (Group.map Prod.fst) = Group.groups key (siblings.filter p) := by
  rw [← map_fst_filter, Group.groups_map]

/-- The sibling with its node changed. -/
def mapNode (f : Node → Node) (m : Sibling) : Sibling := (f m.1, m.2)

/-- Siblings are relabelled before or after they are numbered. -/
theorem all_map (f : Node → Node) (siblings : List Node) :
    all (siblings.map f) = (all siblings).map (mapNode f) := List.zipIdx_map

/-- A change of the nodes that keeps the keys keeps the classes. -/
theorem groups_mapNode {κ : Type} [DecidableEq κ] {key : Node → κ} {p : Node → Bool} {f : Node → Node}
    (hkey : ∀ n, key (f n) = key n) (hp : ∀ n, p (f n) = p n) (siblings : List Node) :
    Group.groups (fun m : Sibling => key m.1) ((all (siblings.map f)).filter fun m => p m.1) =
      (Group.groups (fun m : Sibling => key m.1) ((all siblings).filter fun m => p m.1)).map
        (Group.map (mapNode f)) := by
  have hfilter : (all (siblings.map f)).filter (fun m => p m.1) =
      ((all siblings).filter fun m => p m.1).map (mapNode f) := by
    rw [all_map, List.filter_map]
    simp only [Function.comp_def, mapNode, hp]
  rw [hfilter, Group.groups_map]
  simp only [mapNode, hkey]

/-- Relabelled siblings keep their positions. -/
theorem positions_mapNode (f : Node → Node) (g : Group Sibling) :
    positions (g.map (mapNode f)) = positions g := by
  rw [positions, positions, Group.members_map, List.map_map]
  rfl

end Sibling

/-- Relabelling takes no member away. -/
theorem Group.takenAway_map (f : Sibling → Sibling) (gs : List (Group Sibling)) :
    takenAway (gs.map (map f)) = takenAway gs := by
  rw [takenAway, takenAway, sumOver_map]
  simp only [map, List.length_map]

/-! ## Merging by header

  A class is folded to a node that depends on its nodes, and their positions go into the origin only. -/

namespace SameHeader

/-- What a class of nodes becomes, up to labels. -/
def foldLabelled (onLine onReduced : Nat → Nat) (g : Group Node) : Node :=
  match g.first with
  | .rule line _ selectors _ =>
    .rule (onLine line) [] (Text.sort selectors) (g.members.flatMap declarations)
  | n@(.importStatement ..) => n.relabel onLine onReduced
  | .block line _ head _ _ =>
    let inner := pass (g.members.flatMap children)
    .block (onLine line) [] head (onReduced inner.reduced)
      (inner.children.map (relabel onLine onReduced))

/-- A folded class, relabelled: it does not depend on positions. -/
theorem relabel_fold (g : Group Sibling) : (fold g (pass (union g))).relabel onLine onReduced =
    foldLabelled onLine onReduced (g.map Prod.fst) := by
  rcases g with ⟨⟨first, position⟩, others⟩
  have hunion : union ⟨(first, position), others⟩ =
      (Group.map Prod.fst ⟨(first, position), others⟩).members.flatMap children := by
    rw [union, Group.members_map, List.flatMap_map]
  cases first with
  | rule line origin selectors declarations =>
    rw [fold, foldLabelled, Group.members_map, List.flatMap_map]
    exact relabel_rule _ _ _ _
  | importStatement line origin statement =>
    show relabel onLine onReduced (((Node.importStatement line origin statement).withOrigin []).withOrigin
      _) = relabel onLine onReduced (.importStatement line origin statement)
    rw [relabel_withOrigin, relabel_withOrigin]
  | block line origin head reduced children =>
    rw [hunion]
    exact relabel_block _ _ _ _ _

/-- The result of the pass up to labels. -/
theorem relabel_pass (siblings : List Node) :
    (pass siblings).children.map (relabel onLine onReduced) = Text.sortOn headerText
      ((siblings.filter isImport).map (relabel onLine onReduced) ++
        (Group.groups headerKey (siblings.filter fun n => !n.isImport)).map
          (foldLabelled onLine onReduced)) := by
  have himports : (Sibling.imports siblings).map (relabel onLine onReduced) =
      (siblings.filter isImport).map (relabel onLine onReduced) := by
    rw [Sibling.imports, List.map_map, ← Sibling.map_fst_filter, List.map_map]
    exact List.map_congr_left fun m _ => relabel_withOrigin _ _
  have hclasses : (((classes siblings).map fun g => (g, pass (union g))).map fun p =>
      fold p.1 p.2).map (relabel onLine onReduced) =
      (Group.groups headerKey (siblings.filter fun n => !n.isImport)).map
        (foldLabelled onLine onReduced) := by
    rw [← Sibling.map_groups headerKey fun n => !n.isImport, List.map_map, List.map_map, List.map_map]
    exact List.map_congr_left fun g _ => relabel_fold g
  rw [pass_eq, assemble, sortSiblings, Text.map_sortOn (fun n => headerText_relabel n), List.map_append,
    himports, hclasses]

/-- What was counted in the members of a class does not show in the fold. -/
theorem fold_mapNode (g : Group Sibling) (inner : Pass) :
    fold (g.map (Sibling.mapNode (relabel id onReduced))) inner = fold g inner := by
  have hpositions := Sibling.positions_mapNode (relabel id onReduced) g
  have hfirst : (g.map (Sibling.mapNode (relabel id onReduced))).first.1 =
      g.first.1.relabel id onReduced := rfl
  cases hnode : g.first.1 with
  | rule line origin selectors declarations =>
    rw [hnode, relabel_rule] at hfirst
    rw [fold, hfirst, fold, hnode, hpositions, Group.members_map, List.flatMap_map]
    simp only [Sibling.mapNode, declarations_relabel, id_eq]
  | importStatement line origin statement =>
    rw [hnode, relabel_importStatement] at hfirst
    rw [fold, hfirst, fold, hnode, hpositions]
    rfl
  | block line origin head reduced children =>
    rw [hnode, relabel_block] at hfirst
    rw [fold, hfirst, fold, hnode, hpositions]
    rfl

/-- Nor does it show in what the class takes in. -/
theorem takenIn_mapNode (g : Group Sibling) :
    takenIn (g.map (Sibling.mapNode (relabel id onReduced))) = takenIn g := by
  rw [takenIn, takenIn, Group.map, sumOver_map]
  simp only [Sibling.mapNode, valueCount_relabel]

/-- Origins and counts are not looked at. -/
theorem pass_relabel (siblings : List Node) : pass (siblings.map (relabel id onReduced)) = pass siblings := by
  induction siblings using union_ind with
  | step siblings ih =>
    -- Imports, classes and unions of the relabelled siblings are those of the siblings, relabelled;
    -- the pass forgets the labels of what it folds.
    have himports : Sibling.imports (siblings.map (relabel id onReduced)) = Sibling.imports siblings := by
      rw [Sibling.imports, Sibling.imports, Sibling.all_map, List.filter_map, List.map_map]
      have hfilter : (Sibling.all siblings).filter
          ((fun m => m.1.isImport) ∘ Sibling.mapNode (relabel id onReduced)) =
          (Sibling.all siblings).filter fun m => m.1.isImport :=
        List.filter_congr fun m _ => isImport_relabel m.1
      rw [hfilter]
      refine List.map_congr_left fun m hm => ?_
      exact withOrigin_relabel _ (List.mem_filter.mp hm).2
    have hclasses : classes (siblings.map (relabel id onReduced)) =
        (classes siblings).map (Group.map (Sibling.mapNode (relabel id onReduced))) :=
      Sibling.groups_mapNode (p := fun n => !n.isImport) headerKey_relabel
        (fun n => by rw [isImport_relabel]) siblings
    have hunion : ∀ g : Group Sibling, union (g.map (Sibling.mapNode (relabel id onReduced))) =
        (union g).map (relabel id onReduced) := by
      intro g
      rw [union, union, Group.members_map, List.flatMap_map, List.map_flatMap]
      exact List.flatMap_congr fun m _ => children_relabel m.1
    have hmerged : ((classes siblings).map (Group.map (Sibling.mapNode (relabel id onReduced)))).map
        (fun g => (g, pass (union g))) =
        (classes siblings).map fun g => (g.map (Sibling.mapNode (relabel id onReduced)), pass (union g)) := by
      rw [List.map_map]
      refine List.map_congr_left fun g hg => ?_
      rw [Function.comp_apply, hunion, ih g hg]
    rw [pass_eq, pass_eq siblings, assemble, assemble, himports, hclasses, hmerged, Pass.mk.injEq]
    simp only [List.map_map, Function.comp_def, fold_mapNode, sumOver_map, takenIn_mapNode, true_and,
      and_true]
    exact (Group.takenAway_map _ _).trans (congrArg _ (List.map_id _).symm)

/-! ## Classes of nodes

  The same pass read as one over nodes alone, with its own induction. -/

variable {g : Group Node}

/-- The classes of the nodes that are no import statements. -/
def nodeClasses (siblings : List Node) : List (Group Node) :=
  Group.groups headerKey (siblings.filter fun n => !n.isImport)

/-- What a class of nodes becomes, without origins and counts. -/
def foldPlain (g : Group Node) : Node := foldLabelled id (fun _ => 0) g

/-- A merge by header up to origins and counts: imports and folded classes, sorted by header text. -/
theorem map_plain_pass (siblings : List Node) : (pass siblings).children.map plain =
    Text.sortOn headerText
      ((siblings.filter isImport).map plain ++ (nodeClasses siblings).map foldPlain) :=
  relabel_pass siblings

/-- A property of a sibling list follows from that of what the members of each class hold. -/
theorem nodeClasses_ind {motive : List Node → Prop}
    (step : ∀ siblings, (∀ g ∈ nodeClasses siblings, motive (g.members.flatMap children)) →
      motive siblings) (siblings : List Node) : motive siblings := by
  induction siblings using union_ind with
  | step siblings ih =>
    refine step siblings fun g hg => ?_
    rw [nodeClasses, ← Sibling.map_groups headerKey fun n => !n.isImport] at hg
    obtain ⟨c, hc, rfl⟩ := List.mem_map.mp hg
    rw [Group.members_map, List.flatMap_map]
    exact ih c hc

/-- Rules fold to one with their declarations one after another and the sorted selectors of the first. -/
theorem foldPlain_rule {line : Nat} {origin : List Nat} {selectors declarations : List Text}
    (hfirst : g.first = rule line origin selectors declarations) :
    foldPlain g = rule line [] (Text.sort selectors) (g.members.flatMap Node.declarations) := by
  rw [foldPlain, foldLabelled, hfirst]
  rfl

/-- An import folds to itself. -/
theorem foldPlain_importStatement {line : Nat} {origin : List Nat} {statement : Text}
    (hfirst : g.first = importStatement line origin statement) :
    foldPlain g = importStatement line [] statement := by
  rw [foldPlain, foldLabelled, hfirst]
  exact relabel_importStatement _ _ _

/-- Blocks fold to one that holds the merge of all they hold. -/
theorem foldPlain_block {line reduced : Nat} {origin : List Nat} {head : Head} {children : List Node}
    (hfirst : g.first = block line origin head reduced children) :
    foldPlain g =
      block line [] head 0 ((pass (g.members.flatMap Node.children)).children.map plain) := by
  rw [foldPlain, foldLabelled, hfirst]
  rfl

end SameHeader

/-! ## Merging by content

  As above, with siblings that are kept beside the classes that are folded. -/

namespace SameContent

/-- What becomes of a node that is no rule, up to labels. -/
def keepLabelled (onLine onReduced : Nat → Nat) (n : Node) : Node :=
  match n with
  | .rule .. | .importStatement .. => n.relabel onLine onReduced
  | .block line _ head _ children =>
    let inner := pass children
    .block (onLine line) [] head (onReduced inner.reduced)
      (inner.children.map (relabel onLine onReduced))

/-- The rule that a class of rules becomes, up to labels. -/
def foldLabelled (onLine : Nat → Nat) (g : Group Node) : Node :=
  .rule (onLine g.first.line) [] (Text.sort (g.members.flatMap selectors)) (contentKey g.first)

/-- A folded class of rules, relabelled: it does not depend on positions. -/
theorem relabel_fold (g : Group Sibling) :
    (fold g).relabel onLine onReduced = foldLabelled onLine (g.map Prod.fst) := by
  rw [fold, relabel_rule, foldLabelled, Group.members_map, List.flatMap_map]
  rfl

/-- A sibling that is kept, relabelled: so is all below it. -/
theorem relabel_keep (position : Nat) (n : Node) :
    (keep position (pass n.children) n).map (relabel onLine onReduced) =
      if n.kind = .rule then none else some (keepLabelled onLine onReduced n) := by
  cases n with
  | rule line origin selectors declarations => rfl
  | importStatement line origin statement =>
    rw [keep, Option.map_some, relabel_withOrigin]
    rfl
  | block line origin head reduced children =>
    rw [if_neg (kind_block_ne_rule _ _ _ _ _), keep, Option.map_some, relabel_withOrigin, afterPass, rebuild,
      relabel_block]
    rfl

/-- The siblings that are kept, relabelled one by one. -/
theorem map_relabel_kept : ∀ ms : List Sibling,
    (ms.filterMap fun m => keep m.2 (pass m.1.children) m.1).map (relabel onLine onReduced) =
      ((ms.map Prod.fst).filter fun n => !(n.kind == .rule)).map (keepLabelled onLine onReduced)
  | [] => rfl
  | m :: ms => by
    have ih := map_relabel_kept ms
    have hm : (keep m.2 (pass m.1.children) m.1).map (relabel onLine onReduced) = _ :=
      relabel_keep m.2 m.1
    by_cases hk : m.1.kind = .rule
    · rw [if_pos hk, Option.map_eq_none_iff] at hm
      rw [List.filterMap_cons_none (f := fun m : Sibling => keep m.2 (pass m.1.children) m.1) hm,
        List.map_cons, List.filter_cons_of_neg (by simp [hk]), ih]
    · rw [if_neg hk, Option.map_eq_some_iff] at hm
      obtain ⟨kept, hkeep, hlabelled⟩ := hm
      rw [List.filterMap_cons_some (f := fun m : Sibling => keep m.2 (pass m.1.children) m.1) hkeep,
        List.map_cons, List.map_cons, List.filter_cons_of_pos (by simpa using hk), List.map_cons,
        hlabelled, ih]

/-- The result of the pass up to labels. -/
theorem relabel_pass (siblings : List Node) :
    (pass siblings).children.map (relabel onLine onReduced) = Text.sortOn headerText
      ((siblings.filter fun n => !(n.kind == .rule)).map (keepLabelled onLine onReduced) ++
        (Group.groups contentKey (siblings.filter fun n => n.kind == .rule)).map
          (foldLabelled onLine)) := by
  have hclasses : ((classes siblings).map fold).map (relabel onLine onReduced) =
      (Group.groups contentKey (siblings.filter fun n => n.kind == .rule)).map
        (foldLabelled onLine) := by
    rw [← Sibling.map_groups contentKey fun n => n.kind == .rule, List.map_map, List.map_map]
    exact List.map_congr_left fun g _ => relabel_fold g
  rw [pass, assemble, sortSiblings, Text.map_sortOn (fun n => headerText_relabel n), List.map_append,
    kept_eq, map_relabel_kept, Sibling.map_fst_all, hclasses]

/-- What was counted in the members of a class of rules does not show in the fold. -/
theorem fold_mapNode (g : Group Sibling) :
    fold (g.map (Sibling.mapNode (relabel id onReduced))) = fold g := by
  rw [fold, fold, Sibling.positions_mapNode, Group.members_map, List.flatMap_map]
  simp only [Group.map, Sibling.mapNode, line_relabel, selectors_relabel, contentKey_relabel, id_eq]

/-- Nor in what the class takes in. -/
theorem takenIn_mapNode (g : Group Sibling) :
    takenIn (g.map (Sibling.mapNode (relabel id onReduced))) = takenIn g := by
  rw [takenIn, takenIn, Group.map, sumOver_map]
  simp only [Sibling.mapNode, selectors_relabel]

/-- A sibling that is kept gets a new count. -/
theorem keep_relabel (position : Nat) (inner : Pass) (n : Node) :
    keep position inner (n.relabel id onReduced) = keep position inner n := by
  cases n <;> rw [relabel] <;> rfl

/-- Origins and counts are not looked at. -/
theorem pass_relabel (siblings : List Node) : pass (siblings.map (relabel id onReduced)) = pass siblings := by
  induction siblings using children_ind with
  | step siblings ih =>
    have hbelow : ∀ n ∈ siblings, pass (n.relabel id onReduced).children = pass n.children := by
      intro n hn
      rw [children_relabel, ih n hn]
    have hpasses : passesBelow (siblings.map (relabel id onReduced)) = passesBelow siblings := by
      rw [passesBelow_eq, passesBelow_eq, List.map_map]
      exact List.map_congr_left hbelow
    have hkept : kept (siblings.map (relabel id onReduced)) (passesBelow siblings) =
        kept siblings (passesBelow siblings) := by
      rw [← hpasses, kept_eq, hpasses, kept_eq, Sibling.all_map, List.filterMap_map]
      refine List.filterMap_congr fun m hm => ?_
      rw [Function.comp_apply, Sibling.mapNode, hbelow m.1 (Sibling.mem_of_mem_all hm), keep_relabel]
    have hclasses : classes (siblings.map (relabel id onReduced)) =
        (classes siblings).map (Group.map (Sibling.mapNode (relabel id onReduced))) :=
      Sibling.groups_mapNode (p := fun n => n.kind == .rule) contentKey_relabel
        (fun n => by rw [kind_relabel]) siblings
    rw [pass, pass, assemble, assemble, hpasses, hkept, hclasses, Group.takenAway_map, sumOver_map]
    simp only [List.map_map, Function.comp_def, fold_mapNode, takenIn_mapNode]

end SameContent

end StyleFold
