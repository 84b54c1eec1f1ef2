/-
  Classes — what both merge passes rest on: classes lose nothing, and recursion through them ends.

  Neither pass recurses on the tree that it is given.  Merging by header goes on with the union of a
  class, which is no part of the tree but a list made of the children of several of its nodes; it ends
  because each union has fewer nodes than the siblings around it.  So the induction that all proofs
  about it use is stated once, in terms of the classes, and no later proof has to speak of sizes.

  1. **Groups** — the members of all classes are the list again, in another order, and all members of
     a class have one key.
  2. **Siblings** — a position in a sibling list names the sibling that stands there; imports and the
     members of classes together are all siblings.
  3. **Induction over merging by header** — a property of a sibling list may be shown from the same
     property of the union of each class (`SameHeader.union_ind`).
  4. **Induction over merging by content** — and here from that of the children of each sibling
     (`SameContent.children_ind`), the pass being one equation in those (`SameContent.pass_children`).
-/
import StyleFold.Merge.SameContent

namespace StyleFold

/-! ## Groups

  Grouping runs through the list once, and each element goes to the class that its key opened. -/

namespace Group

variable {α κ : Type} [DecidableEq κ]

/-- All members of a class have the key of its first. -/
theorem key_eq_of_mem_groupsFrom (key : α → κ) {g : Group α} {a : α} (ha : a ∈ g.members) :
    ∀ (l : List α) (seen : List κ), g ∈ groupsFrom key seen l → key a = key g.first
  | [], _, h => by simp [groupsFrom] at h
  | b :: l, seen, h => by
    rw [groupsFrom] at h
    split at h
    · exact key_eq_of_mem_groupsFrom key ha l seen h
    · rcases List.mem_cons.mp h with rfl | h
      · rcases List.mem_cons.mp ha with rfl | ha
        · rfl
        · simpa using (List.mem_filter.mp ha).2
      · exact key_eq_of_mem_groupsFrom key ha l _ h

/-- All members of a class have the key of the first. -/
theorem key_eq {key : α → κ} {l : List α} {g : Group α} (hg : g ∈ groups key l) {a : α}
    (ha : a ∈ g.members) : key a = key g.first :=
  key_eq_of_mem_groupsFrom key ha l [] (groups_eq key l ▸ hg)

/-- The classes of the keys that were not seen hold the elements of these keys. -/
theorem flatMap_members_groupsFrom_perm (key : α → κ) : ∀ (l : List α) (seen : List κ),
    ((groupsFrom key seen l).flatMap members).Perm (l.filter fun a => decide (key a ∉ seen))
  | [], _ => List.Perm.refl _
  | a :: l, seen => by
    rw [groupsFrom]
    split
    · rename_i ha
      rw [List.filter_cons_of_neg (by simpa using ha)]
      exact flatMap_members_groupsFrom_perm key l seen
    · rename_i ha
      rw [List.filter_cons_of_pos (by simpa using ha), List.flatMap_cons, members, List.cons_append]
      have ih := flatMap_members_groupsFrom_perm key l (key a :: seen)
      -- what is left over is cut in two by the key of the class
      have hjoined : (l.filter fun b => decide (key b = key a)) =
          (l.filter fun b => decide (key b ∉ seen)).filter fun b => decide (key b = key a) := by
        rw [List.filter_filter]
        refine List.filter_congr fun b _ => ?_
        by_cases hb : key b = key a <;> simp [hb, ha]
      have hothers : (l.filter fun b => decide (key b ∉ key a :: seen)) =
          (l.filter fun b => decide (key b ∉ seen)).filter fun b => !decide (key b = key a) := by
        rw [List.filter_filter]
        refine List.filter_congr fun b _ => ?_
        by_cases hb : key b = key a <;> simp [hb]
      have hcut := List.filter_append_perm (fun b => decide (key b = key a))
        (l.filter fun b => decide (key b ∉ seen))
      rw [← hjoined, ← hothers] at hcut
      exact ((ih.append_left _).trans hcut).cons a

/-- The members of all classes are the list. -/
theorem flatMap_members_perm (key : α → κ) (l : List α) :
    ((groups key l).flatMap members).Perm l := by
  have h := flatMap_members_groupsFrom_perm key l []
  rw [List.filter_eq_self.mpr (by simp)] at h
  rw [groups_eq]
  exact h

/-- The members of a class come from the list. -/
theorem mem_of_mem_members {key : α → κ} {l : List α} {g : Group α} (hg : g ∈ groups key l)
    {a : α} (ha : a ∈ g.members) : a ∈ l := (members_sublist key hg).subset ha

/-- Classes have as many members as there are classes and others. -/
theorem length_flatMap_members (gs : List (Group Sibling)) :
    (gs.flatMap members).length = gs.length + takenAway gs := by
  induction gs with
  | nil => rfl
  | cons g gs ih =>
    rw [List.flatMap_cons, List.length_append, ih]
    simp only [members, takenAway, List.length_cons, sumOver_cons]
    omega

/-- The classes and what they take away add up to the list. -/
theorem length_groups_add_takenAway (key : Sibling → κ) (l : List Sibling) :
    (groups key l).length + takenAway (groups key l) = l.length :=
  (length_flatMap_members _).symm.trans (flatMap_members_perm key l).length_eq

end Group

/-! ## Siblings

  A sibling is a node with its position; what the passes write into origins are these positions. -/

namespace Sibling

variable {siblings : List Node} {m : Sibling}

/-- A sibling stands at the position that it is numbered with. -/
theorem getElem?_of_mem_all (h : m ∈ all siblings) : siblings[m.2]? = some m.1 :=
  List.mem_zipIdx_iff_getElem?.mp h

theorem mem_of_mem_all (h : m ∈ all siblings) : m.1 ∈ siblings :=
  List.mem_of_getElem? (getElem?_of_mem_all h)

theorem map_fst_all (siblings : List Node) : (all siblings).map Prod.fst = siblings :=
  List.zipIdx_map_fst 0 siblings

theorem length_all (siblings : List Node) : (all siblings).length = siblings.length :=
  List.length_zipIdx

/-- A list of siblings is cut in two by any property. -/
theorem length_filter_add (p : Sibling → Bool) (siblings : List Node) :
    ((all siblings).filter p).length + ((all siblings).filter fun m => !p m).length =
      siblings.length := by
  rw [← List.length_append, (List.filter_append_perm p (all siblings)).length_eq, length_all]

end Sibling

/-! ## Induction over merging by header

  The step may assume the property of the union of every class of the list. -/

namespace Node

/-- The key of a node begins with its kind. -/
theorem fst_headerKey (n : Node) : n.headerKey.1 = n.kind := by cases n <;> rfl

/-- The key of all but rules ends with their header text. -/
theorem snd_headerKey {n : Node} (h : n.kind ≠ .rule) : n.headerKey.2 = n.headerText := by
  cases n with
  | rule line origin selectors declarations => exact absurd rfl h
  | importStatement line origin statement => rfl
  | block line origin head reduced children => rfl

/-- Imports are told by their kind. -/
theorem isImport_eq (n : Node) : n.isImport = (n.kind == .importStatement) := by
  rcases n with _ | _ | ⟨_, _, _ | ⟨kind, _⟩, _, _⟩
  · rfl
  · rfl
  · rfl
  · cases kind <;> rfl

/-- Nodes of one key are both imports or neither. -/
theorem isImport_of_headerKey {n m : Node} (h : n.headerKey = m.headerKey) :
    n.isImport = m.isImport := by
  have hkind := congrArg Prod.fst h
  rw [fst_headerKey, fst_headerKey] at hkind
  rw [isImport_eq, isImport_eq, hkind]

/-- The header key of a block is told by its head. -/
theorem headerKey_block (line line' : Nat) (origin origin' : List Nat) (head : Head)
    (reduced reduced' : Nat) (children children' : List Node) :
    (block line origin head reduced children).headerKey =
      (block line' origin' head reduced' children').headerKey := by cases head <;> rfl

end Node

namespace SameHeader

variable {siblings : List Node} {g : Group Sibling}

/-- The members of a class are siblings of the list. -/
theorem mem_all_of_mem_members (hg : g ∈ classes siblings) {m : Sibling} (hm : m ∈ g.members) :
    m ∈ Sibling.all siblings := (List.mem_filter.mp (Group.mem_of_mem_members hg hm)).1

/-- No class holds an import statement. -/
theorem isImport_of_mem_members (hg : g ∈ classes siblings) {m : Sibling} (hm : m ∈ g.members) :
    m.1.isImport = false := by
  have := (List.mem_filter.mp (Group.mem_of_mem_members hg hm)).2
  simpa using this

/-- A property of a sibling list follows from that of the union of each class. -/
theorem union_ind {motive : List Node → Prop}
    (step : ∀ siblings, (∀ g ∈ classes siblings, motive (union g)) → motive siblings)
    (siblings : List Node) : motive siblings :=
  step siblings fun g hg =>
    have := population_union_lt hg
    union_ind step (union g)
termination_by Node.population siblings

/-- The siblings that the pass leaves: imports as they are, and a node for each class. -/
theorem pass_children_perm (siblings : List Node) :
    (pass siblings).children.Perm (Sibling.imports siblings ++
      (classes siblings).map fun g => fold g (pass (union g))) := by
  rw [pass_eq, assemble, List.map_map]
  exact Text.sortOn_perm _ _

/-- A merge by header takes away all but the first of each class. -/
theorem pass_reduced (siblings : List Node) :
    (pass siblings).reduced = Group.takenAway (classes siblings) := by
  rw [pass_eq]
  refine congrArg Group.takenAway ?_
  rw [List.map_map]
  exact List.map_id _

end SameHeader

/-! ## Induction over merging by content

  Rules hold nothing, so this pass goes on with the children of each sibling, which are part of the
  tree. -/

namespace SameContent

variable {siblings : List Node} {g : Group Sibling}

/-- The members of a class of rules are siblings of the list. -/
theorem mem_all_of_mem_members (hg : g ∈ classes siblings) {m : Sibling} (hm : m ∈ g.members) :
    m ∈ Sibling.all siblings := (List.mem_filter.mp (Group.mem_of_mem_members hg hm)).1

/-- All members of a class are rules. -/
theorem kind_of_mem_members (hg : g ∈ classes siblings) {m : Sibling} (hm : m ∈ g.members) :
    m.1.kind = .rule := by
  have := (List.mem_filter.mp (Group.mem_of_mem_members hg hm)).2
  simpa using this

/-- A property of a sibling list follows from that of the children of each sibling. -/
theorem children_ind {motive : List Node → Prop}
    (step : ∀ siblings, (∀ n ∈ siblings, motive n.children) → motive siblings)
    (siblings : List Node) : motive siblings :=
  step siblings fun n hn =>
    have : Node.population n.children < Node.population siblings := by
      rw [← Node.descendants_eq_population]
      exact Node.descendants_lt_population hn
    children_ind step n.children
termination_by Node.population siblings

/-- What is merged below a node is the pass over its children. -/
theorem passBelow_eq (n : Node) : passBelow n = pass n.children := by
  cases n with
  | block line origin head reduced children => rw [passBelow]; rfl
  | rule line origin selectors declarations => rw [passBelow]; rfl
  | importStatement line origin statement => rw [passBelow]; rfl

/-- The passes below are those of the children of each sibling. -/
theorem passesBelow_eq : ∀ siblings : List Node,
    passesBelow siblings = siblings.map fun n => pass n.children
  | [] => by rw [passesBelow]; rfl
  | n :: ns => by rw [passesBelow, passBelow_eq, passesBelow_eq ns, List.map_cons]

/-- The siblings that are no rules, each around the pass over its children. -/
theorem kept_eq (siblings : List Node) : kept siblings (passesBelow siblings) =
    (Sibling.all siblings).filterMap fun m => keep m.2 (pass m.1.children) m.1 := by
  rw [kept, passesBelow_eq, ← List.map_prod_left_eq_zip, List.zipIdx_map, List.filterMap_map]
  rfl

/-- The siblings that the pass leaves: those that are no rules, and a rule for each class. -/
theorem pass_children_perm (siblings : List Node) :
    (pass siblings).children.Perm
      ((Sibling.all siblings).filterMap (fun m => keep m.2 (pass m.1.children) m.1) ++
        (classes siblings).map fold) := by
  rw [← kept_eq]
  exact Text.sortOn_perm _ _

/-- A merge by content takes away all but the first of each class. -/
theorem pass_reduced (siblings : List Node) :
    (pass siblings).reduced = Group.takenAway (classes siblings) := rfl

/-- What is no rule is rebuilt in its place, whether it holds anything or not. -/
theorem keep_eq (position : Nat) (inner : Pass) (n : Node) : keep position inner n =
    if n.kind = .rule then none else some ((n.afterPass inner).withOrigin [position]) := by
  cases n with
  | rule line origin selectors declarations => rfl
  | importStatement line origin statement => rfl
  | block line origin head reduced children =>
    rw [if_neg (Node.kind_block_ne_rule line origin head reduced children)]
    rfl

/-- Of the siblings all but the rules are kept, with their children merged. -/
theorem filterMap_keep (f : Node → Pass) : ∀ ms : List Sibling,
    ms.filterMap (fun m => keep m.2 (f m.1) m.1) =
      (ms.filter fun m => !(m.1.kind == .rule)).map fun m => (m.1.afterPass (f m.1)).withOrigin [m.2]
  | [] => rfl
  | m :: ms => by
    have ih := filterMap_keep f ms
    by_cases hrule : m.1.kind = .rule
    · have hnone : keep m.2 (f m.1) m.1 = none := by rw [keep_eq, if_pos hrule]
      rw [List.filter_cons_of_neg (by simpa using hrule), ← ih]
      simp only [List.filterMap_cons, hnone]
    · have hsome : keep m.2 (f m.1) m.1 = some ((m.1.afterPass (f m.1)).withOrigin [m.2]) := by
        rw [keep_eq, if_neg hrule]
      rw [List.filter_cons_of_pos (by simpa using hrule), List.map_cons, ← ih]
      simp only [List.filterMap_cons, hsome]

end SameContent

end StyleFold
