/-
  Piecewise — siblings may be merged by header in several steps.

  What a first merge made of some siblings stands for them when more siblings come behind: merging the
  longer list gives the same nodes, in the same order and from the same lines.

  It is not clear beforehand that this should hold.  The first merge writes sorted selectors into the
  rules that it makes, joins declarations and sorts the list, and the second merge has only that to go
  by.  What it needs is that a class is told from the node that was made of it.

  1. **Classes** — what a class of nodes becomes is no import statement and has the key of the class.
  2. **A class in two steps** — what a class becomes, with later nodes of its key behind it, becomes what
     the class with all of them becomes.
  3. **A list in two steps** — each class of the longer list is a class of the first merge that later
     nodes join, or has later nodes only.  The sort keeps both in the order of their header texts.
  4. **Trees** — the same for trees, where a second merge of the same siblings moreover counts nothing
     (`mergeByHeader_piecewise`).
-/
import StyleFold.Proofs.Merge.Compressed

namespace StyleFold

open Node

namespace SameHeader

variable {siblings : List Node} {g : Group Node}

/-! ## Classes

  The key of a rule sorts its selectors, so it does not matter that the fold has sorted them before. -/

/-- A folded class has the key of its members, whatever the order of its selectors. -/
theorem headerKey_foldPlain (g : Group Node) : (foldPlain g).headerKey = g.first.headerKey := by
  cases hfirst : g.first with
  | rule line origin selectors declarations =>
    rw [foldPlain_rule hfirst]
    exact congrArg (fun ss => (Kind.rule, Text.join ',' ss)) (Text.sort_sort selectors)
  | importStatement line origin statement => rw [foldPlain_importStatement hfirst]; rfl
  | block line origin head reduced children =>
    rw [foldPlain_block hfirst]
    exact headerKey_block _ _ _ _ _ _ _ _ _

/-- A folded class is no import. -/
theorem isImport_foldPlain (hg : g ∈ nodeClasses siblings) : (foldPlain g).isImport = false := by
  have hfirst : g.first.isImport = false := by
    simpa using (List.mem_filter.mp (Group.first_mem hg)).2
  exact (isImport_of_headerKey (headerKey_foldPlain g)).trans hfirst

/-! ## A class in two steps

  Declarations are joined in order, first those of the node that the first merge made, and the children
  of a block are merged by the same theorem one level down. -/

/-- Later nodes change nothing in the header text of what a class became. -/
theorem headerText_foldPlain_foldPlain (g : Group Node) (later : List Node) :
    (foldPlain ⟨foldPlain g, later⟩).headerText = (foldPlain g).headerText := by
  cases hfirst : g.first with
  | rule line origin selectors declarations =>
    rw [foldPlain_rule (g := ⟨foldPlain g, later⟩) (foldPlain_rule hfirst), foldPlain_rule hfirst]
    exact congrArg (Text.join ',') (Text.sort_sort selectors)
  | importStatement line origin statement =>
    rw [foldPlain_importStatement (g := ⟨foldPlain g, later⟩) (foldPlain_importStatement hfirst),
      foldPlain_importStatement hfirst]
  | block line origin head reduced children =>
    rw [foldPlain_block (g := ⟨foldPlain g, later⟩) (foldPlain_block hfirst), foldPlain_block hfirst]
    cases head <;> rfl

/-- What a class became stands for the class, if what it holds stands for what the members hold. -/
theorem foldPlain_followedBy {later : List Node}
    (h : (pass ((pass (g.members.flatMap children)).children.map plain ++
        later.flatMap children)).children.map plain =
      (pass (g.members.flatMap children ++ later.flatMap children)).children.map plain) :
    foldPlain ⟨foldPlain g, later⟩ = foldPlain (g.followedBy later) := by
  have hmembers : (g.followedBy later).members = g.members ++ later := rfl
  -- Folding again what was folded: selectors are sorted once and for all, and a union of unions is
  -- the union.
  cases hfirst : g.first with
  | rule line origin selectors declarations =>
    have honce := foldPlain_rule hfirst
    rw [foldPlain_rule (g := ⟨foldPlain g, later⟩) honce, foldPlain_rule (g := g.followedBy later) hfirst,
      hmembers, Group.members, honce, Text.sort_sort, List.flatMap_cons, List.flatMap_append]
    rfl
  | importStatement line origin statement =>
    rw [foldPlain_importStatement (g := ⟨foldPlain g, later⟩) (foldPlain_importStatement hfirst),
      foldPlain_importStatement (g := g.followedBy later) hfirst]
  | block line origin head reduced children =>
    have honce := foldPlain_block hfirst
    rw [foldPlain_block (g := ⟨foldPlain g, later⟩) honce, foldPlain_block (g := g.followedBy later) hfirst,
      hmembers, Group.members, honce, List.flatMap_cons, List.flatMap_append]
    exact congrArg (block line [] head 0) h

/-! ## A list in two steps

  A class of the longer list begins with a node of the first merge, or with a later node; which of the
  two is told by the keys. -/

/-- Whether what the first merge makes of the siblings stands for them before all later ones. -/
def Stands (siblings : List Node) : Prop := ∀ later,
  (pass ((pass siblings).children.map plain ++ later)).children.map plain =
    (pass (siblings ++ later)).children.map plain

/-- Import statements and other nodes that are sorted together can be told apart again. -/
theorem filter_sortOn_append {statements others : List Node}
    (hstatements : ∀ n ∈ statements, n.isImport = true) (hothers : ∀ n ∈ others, n.isImport = false)
    (k : Text) :
    ((Text.sortOn headerText (statements ++ others)).filter isImport).filter (fun n => n.headerText = k) =
        statements.filter (fun n => n.headerText = k) ∧
      ((Text.sortOn headerText (statements ++ others)).filter fun n => !n.isImport).filter
        (fun n => n.headerText = k) = others.filter fun n => n.headerText = k := by
  have himports : (statements ++ others).filter isImport = statements := by
    rw [List.filter_append, List.filter_eq_self.mpr hstatements,
      List.filter_eq_nil_iff.mpr fun n hn => by simp [hothers n hn], List.append_nil]
  have hrest : (statements ++ others).filter (fun n => !n.isImport) = others := by
    rw [List.filter_append, List.filter_eq_nil_iff.mpr fun n hn => by simp [hstatements n hn],
      List.filter_eq_self.mpr fun n hn => by simp [hothers n hn], List.nil_append]
  constructor
  · rw [List.filter_comm, Text.filter_sortOn, List.filter_comm, himports]
  · rw [List.filter_comm, Text.filter_sortOn, List.filter_comm, hrest]

/-- For each header text, a merge leaves the import statements of the siblings and what the classes
become. -/
theorem filter_pass (siblings : List Node) (k : Text) :
    (((pass siblings).children.map plain).filter isImport).filter (fun n => n.headerText = k) =
        ((siblings.filter isImport).map plain).filter (fun n => n.headerText = k) ∧
      (((pass siblings).children.map plain).filter fun n => !n.isImport).filter
        (fun n => n.headerText = k) =
        ((nodeClasses siblings).map foldPlain).filter fun n => n.headerText = k := by
  rw [map_plain_pass]
  refine filter_sortOn_append ?_ ?_ k
  · intro n hn
    obtain ⟨m, hm, rfl⟩ := List.mem_map.mp hn
    exact (isImport_relabel m).trans (List.mem_filter.mp hm).2
  · intro n hn
    obtain ⟨g, hg, rfl⟩ := List.mem_map.mp hn
    exact isImport_foldPlain hg

/-- The nodes that a merge leaves, import statements apart, are what the classes become. -/
theorem mem_pass_iff {n : Node} : n ∈ ((pass siblings).children.map plain).filter (fun n => !n.isImport) ↔
    ∃ g ∈ nodeClasses siblings, foldPlain g = n := by
  have hmem : ∀ l : List Node, n ∈ l ↔ n ∈ l.filter fun m => m.headerText = n.headerText := by
    intro l
    simp [List.mem_filter]
  rw [hmem, (filter_pass siblings n.headerText).2, ← hmem, List.mem_map]

/-- A merge leaves the keys that it was given. -/
theorem mem_keys_pass (siblings : List Node) (k : Kind × Text) :
    k ∈ (((pass siblings).children.map plain).filter fun n => !n.isImport).map headerKey ↔
      k ∈ (siblings.filter fun n => !n.isImport).map headerKey := by
  constructor
  · intro h
    obtain ⟨n, hn, rfl⟩ := List.mem_map.mp h
    obtain ⟨g, hg, rfl⟩ := mem_pass_iff.mp hn
    exact List.mem_map.mpr ⟨g.first, Group.first_mem hg, (headerKey_foldPlain g).symm⟩
  · intro h
    obtain ⟨n, hn, rfl⟩ := List.mem_map.mp h
    obtain ⟨g, hg, hkey⟩ : ∃ g ∈ nodeClasses siblings, g.first.headerKey = n.headerKey :=
      Group.exists_of_mem hn
    exact List.mem_map.mpr ⟨foldPlain g, mem_pass_iff.mpr ⟨g, hg, rfl⟩, (headerKey_foldPlain g).trans hkey⟩

/-- No two nodes that a merge by header leaves have one key, imports apart. -/
theorem nodup_keys_pass (siblings : List Node) :
    ((((pass siblings).children.map plain).filter fun n => !n.isImport).map headerKey).Nodup := by
  have hplain : (((pass siblings).children.map plain).filter fun n => !n.isImport).map headerKey =
      ((pass siblings).children.filter fun n => !n.isImport).map headerKey := by
    rw [List.filter_map, List.map_map]
    simp only [Function.comp_def, plain, isImport_relabel, headerKey_relabel]
  rw [hplain]
  exact distinct_pass siblings

/-- The later nodes that join the class of a key. -/
def joining (later : List Node) (k : Kind × Text) : List Node :=
  (later.filter fun n => !n.isImport).filter fun n => decide (n.headerKey = k)

/-- The later nodes of keys that do not stand before them. -/
def opening (siblings later : List Node) : List Node :=
  (later.filter fun n => !n.isImport).filter fun n =>
    decide (n.headerKey ∉ (siblings.filter fun n => !n.isImport).map headerKey)

/-- With more siblings behind, each class takes in those of its key, and the others open classes of their
own. -/
theorem nodeClasses_append (siblings later : List Node) : nodeClasses (siblings ++ later) =
    (nodeClasses siblings).map (fun g => g.followedBy (joining later g.first.headerKey)) ++
      Group.groups headerKey (opening siblings later) := by
  rw [nodeClasses, List.filter_append, Group.groups_append]
  exact congrArg (_ ++ Group.groups headerKey ·)
    (List.filter_congr fun n _ => decide_eq_decide.mpr Iff.rfl)

/-- Behind what a merge left, the later nodes join its nodes one by one. -/
theorem nodeClasses_pass_append (siblings later : List Node) :
    nodeClasses ((pass siblings).children.map plain ++ later) =
      (((pass siblings).children.map plain).filter fun n => !n.isImport).map
          (fun n => ⟨n, joining later n.headerKey⟩) ++
        Group.groups headerKey (opening siblings later) := by
  have hopening : opening ((pass siblings).children.map plain) later = opening siblings later :=
    List.filter_congr fun n _ => by simp only [mem_keys_pass]
  rw [nodeClasses_append, nodeClasses, Group.groups_of_nodup (nodup_keys_pass siblings), List.map_map,
    hopening]
  rfl

/-- In both ways the same import statements are merged, for each header text. -/
theorem filter_imports_append (siblings later : List Node) (k : Text) :
    ((((pass siblings).children.map plain ++ later).filter isImport).map plain).filter
        (fun n => n.headerText = k) =
      (((siblings ++ later).filter isImport).map plain).filter fun n => n.headerText = k := by
  have hplain : ∀ l : List Node, (l.map plain).filter (fun n => n.headerText = k) =
      (l.filter fun n => n.headerText = k).map plain := by
    intro l
    rw [List.filter_map]
    simp only [Function.comp_def, plain, headerText_relabel]
  have hfirst : ((((pass siblings).children.map plain).filter isImport).map plain).filter
      (fun n => n.headerText = k) = ((siblings.filter isImport).map plain).filter fun n => n.headerText = k := by
    rw [hplain, (filter_pass siblings k).1, hplain, List.map_map]
    exact List.map_congr_left fun n _ => plain_plain n
  rw [List.filter_append, List.map_append, List.filter_append, hfirst, List.filter_append (siblings),
    List.map_append, List.filter_append]

/-- In both ways the classes become the same, for each header text, if what their members hold stands for
itself. -/
theorem filter_classes_append (ih : ∀ g ∈ nodeClasses siblings, Stands (g.members.flatMap children))
    (later : List Node) (k : Text) :
    ((nodeClasses ((pass siblings).children.map plain ++ later)).map foldPlain).filter
        (fun n => n.headerText = k) =
      ((nodeClasses (siblings ++ later)).map foldPlain).filter fun n => n.headerText = k := by
  -- a class that later nodes join is folded like the node that the class became
  have hjoined : (nodeClasses siblings).map (foldPlain ∘ fun g =>
      g.followedBy (joining later g.first.headerKey)) =
      ((nodeClasses siblings).map foldPlain).map fun n => foldPlain ⟨n, joining later n.headerKey⟩ := by
    rw [List.map_map]
    refine List.map_congr_left fun g hg => ?_
    rw [Function.comp_apply, Function.comp_apply, headerKey_foldPlain]
    exact (foldPlain_followedBy (ih g hg _)).symm
  -- and nodes that classes became keep their header texts
  have hagain : ∀ l : List Node, (∀ n ∈ l, ∃ g ∈ nodeClasses siblings, foldPlain g = n) →
      (l.map fun n => foldPlain ⟨n, joining later n.headerKey⟩).filter (fun n => n.headerText = k) =
        (l.filter fun n => n.headerText = k).map fun n => foldPlain ⟨n, joining later n.headerKey⟩ := by
    intro l hl
    rw [List.filter_map]
    refine congrArg _ (List.filter_congr fun n hn => ?_)
    obtain ⟨g, -, rfl⟩ := hl n hn
    rw [Function.comp_apply, headerText_foldPlain_foldPlain]
  rw [nodeClasses_pass_append, nodeClasses_append, List.map_append, List.map_append, List.map_map,
    List.map_map, hjoined, List.filter_append, List.filter_append,
    hagain _ fun n hn => List.mem_map.mp hn, ← (filter_pass siblings k).2]
  exact congrArg (· ++ _) (hagain _ fun n hn => mem_pass_iff.mp hn)

/-- What a merge leaves stands for the siblings. -/
theorem stands (siblings : List Node) : Stands siblings := by
  induction siblings using nodeClasses_ind with
  | step siblings ih =>
    intro later
    rw [map_plain_pass, map_plain_pass (siblings ++ later)]
    refine Text.sortOn_congr fun k => ?_
    have himports := filter_imports_append siblings later k
    have hclasses := filter_classes_append ih later k
    exact (List.filter_append _ _).trans ((congrArg₂ (· ++ ·) himports hclasses).trans
      (List.filter_append _ _).symm)

/-- Merging in two steps gives what merging at once gives. -/
theorem pass_pass_append (as bs : List Node) :
    (pass ((pass as).children ++ bs)).children.map plain = (pass (as ++ bs)).children.map plain := by
  rw [← stands as bs, ← pass_relabel ((pass as).children ++ bs), ← pass_relabel (_ ++ bs), List.map_append,
    List.map_append, List.map_map]
  refine congrArg (fun ns => (pass (ns ++ _)).children.map plain) (List.map_congr_left fun n _ => ?_)
  exact (plain_plain n).symm

/-- A second merge takes no node away. -/
theorem population_pass_pass (siblings : List Node) :
    population (pass (pass siblings).children).children = population (pass siblings).children := by
  have hplain := pass_pass_append siblings []
  rw [List.append_nil, List.append_nil] at hplain
  calc population (pass (pass siblings).children).children
      = population ((pass (pass siblings).children).children.map plain) := (population_relabel _).symm
    _ = population ((pass siblings).children.map plain) := by rw [hplain]
    _ = population (pass siblings).children := population_relabel _

end SameHeader

/-! ## Trees

  A merged tree with further children, merged again, up to the origins and counts that tell how it was
  done. -/

namespace Node

variable {line reduced : Nat} {origin : List Nat} {head : Head}

/-- A block merged by header, up to origins and counts. -/
theorem plain_mergeByHeader (children : List Node) :
    (block line origin head reduced children).mergeByHeader.plain =
      block line [] head 0 ((SameHeader.pass children).children.map plain) := plain_block _ _ _ _ _

/-- Merging by header may be done piecewise: the merge of what a first merge made of some nodes, with
others behind it, is that of all of them but for origins and counts.  Merging a second time changes
nothing else, and counts nothing. -/
theorem mergeByHeader_piecewise (line reduced : Nat) (origin : List Nat) (head : Head)
    (as bs : List Node) :
    (block line origin head reduced
        ((block line origin head reduced as).mergeByHeader.children ++ bs)).mergeByHeader.plain =
      (block line origin head reduced (as ++ bs)).mergeByHeader.plain ∧
    (block line origin head reduced as).mergeByHeader.mergeByHeader.plain =
      (block line origin head reduced as).mergeByHeader.plain ∧
    ∀ n ∈ (block line origin head reduced as).mergeByHeader.mergeByHeader.preorder, n.reduced = 0 := by
  have hpiecewise : ∀ bs, (block line origin head reduced
      ((SameHeader.pass as).children ++ bs)).mergeByHeader.plain =
      (block line origin head reduced (as ++ bs)).mergeByHeader.plain := by
    intro bs
    rw [plain_mergeByHeader, plain_mergeByHeader, SameHeader.pass_pass_append]
  -- Merging twice is merging in two pieces, the second one empty.
  have htwice := hpiecewise []
  rw [List.append_nil, List.append_nil] at htwice
  exact ⟨hpiecewise bs, htwice, reduced_afterPass (SameHeader.sources_pass _)
    (SameHeader.population_pass_pass as)⟩

end Node

end StyleFold
