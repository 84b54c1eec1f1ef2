/-
  Size — how many bytes a printed tree takes, and that merging siblings never makes it longer.

  Folding siblings into one writes their common header, its braces and its margins once, and adds no more
  than one separator for each sibling folded in.

  Bytes are counted, as the report of a compile counts them, so a character may take up to four.  A
  folded sibling saves at least its two braces and a blank, and may cost a separator where it brings
  something in; the balance of three bytes for each is the same for rules and for blocks, in every
  layout.

  1. **Sums** — what holds for each element, for the sum.
  2. **Joined texts** — their size does not depend on their order, and a list put together from several
     takes one separator for each list after the first.
  3. **Printed nodes** — the size of a node at a depth; the print of a tree takes the sizes of its
     children together (`utf8Size_print`).
  4. **Charges** — the printed size, and three bytes more for every sibling taken away below.
  5. **Sheets** — a sheet is printed without a header, so that nothing is saved when two are folded; below
     the top of a tree there is none, if it was parsed.
  6. **The passes** — what a pass leaves is charged no more than what it was given takes.
  7. **Trees** — so merged trees are no longer than the trees they were made of, and shorter by three
     bytes for every node that was taken away (`merges_shrink_print`).
-/
import StyleFold.Proofs.Merge.Balance
import StyleFold.Proofs.Merge.Regular
import StyleFold.Proofs.Merge.Partition

namespace StyleFold

/-! ## Sums -/

section

variable {α β : Type}

/-- A sum over lists put together is the sum of their sums. -/
theorem sumOver_flatMap (count : β → Nat) (f : α → List β) : ∀ l : List α,
    sumOver count (l.flatMap f) = sumOver (fun a => sumOver count (f a)) l
  | [] => rfl
  | a :: l => by rw [List.flatMap_cons, sumOver_append, sumOver_flatMap count f l, sumOver_cons]

/-- If each element is counted with something to spare, so is the list. -/
theorem sumOver_add_le {few many : α → Nat} {spare : Nat} : ∀ {l : List α},
    (∀ a ∈ l, few a + spare ≤ many a) → sumOver few l + spare * l.length ≤ sumOver many l
  | [], _ => Nat.le_refl _
  | a :: l, h => by
    have ha := h a List.mem_cons_self
    have ih := sumOver_add_le fun b hb => h b (List.mem_cons_of_mem a hb)
    rw [sumOver_cons, sumOver_cons, List.length_cons, Nat.mul_succ]
    omega

/-- Counts that are no larger have no larger sum. -/
theorem sumOver_le {few many : α → Nat} {l : List α} (h : ∀ a ∈ l, few a ≤ many a) :
    sumOver few l ≤ sumOver many l := by
  have hle : sumOver few l + 0 * l.length ≤ sumOver many l := sumOver_add_le h
  omega

/-- What all elements of a class have in common is counted once in place of each time. -/
theorem sumOver_common_le (spare : Nat) {own all : α → Nat} {common : Nat} {a : α} {l : List α}
    (h : ∀ b ∈ a :: l, all b = common + own b) (hspare : spare ≤ common) :
    common + sumOver own (a :: l) + spare * l.length ≤ sumOver all (a :: l) := by
  have ha := h a List.mem_cons_self
  have hl : sumOver own l + spare * l.length ≤ sumOver all l := by
    apply sumOver_add_le
    intro b hb
    have hb := h b (List.mem_cons_of_mem a hb)
    omega
  rw [sumOver_cons, sumOver_cons]
  omega

end

/-! ## Joined texts

  A separator is needed for each element after the first, and empty lists need none. -/

namespace Text

variable {sep : Char} {ss ts : List Text}

/-- The bytes of texts put together are those of each. -/
theorem utf8Size_flatMap {α : Type} (f : α → Text) : ∀ l : List α,
    utf8Size (l.flatMap f) = sumOver (fun a => utf8Size (f a)) l
  | [] => rfl
  | a :: l => by rw [List.flatMap_cons, utf8Size_append, utf8Size_flatMap f l, sumOver_cons]

/-- Every text but the last is followed by a separator. -/
theorem utf8Size_join (sep : Char) : ∀ {ts : List Text}, ts ≠ [] →
    (join sep ts).utf8Size + sep.utf8Size = sumOver (fun t => t.utf8Size + sep.utf8Size) ts
  | [], h => absurd rfl h
  | [t], _ => by rw [join_singleton, sumOver_cons, sumOver_nil, Nat.add_zero]
  | s :: t :: ts, _ => by
    have ih := utf8Size_join sep (List.cons_ne_nil t ts)
    rw [join_cons_cons, utf8Size_append, utf8Size_cons, sumOver_cons, ← ih]
    omega

/-- The order does not matter to the bytes of a joined list. -/
theorem utf8Size_join_perm (sep : Char) (h : ss.Perm ts) :
    (join sep ss).utf8Size = (join sep ts).utf8Size := by
  by_cases hnil : ts = []
  · rw [hnil] at h ⊢
    rw [h.eq_nil]
  · have hsum : sumOver (fun t => utf8Size t + sep.utf8Size) ss =
        sumOver (fun t => utf8Size t + sep.utf8Size) ts := sumOver_perm h
    have hss := utf8Size_join sep fun he => hnil (h.symm.trans (.of_eq he)).eq_nil
    have hts := utf8Size_join sep hnil
    omega

/-- Joining two lists as one takes at most one separator more than joining each. -/
theorem utf8Size_join_append_le (sep : Char) (ss ts : List Text) :
    (join sep (ss ++ ts)).utf8Size ≤
      (join sep ss).utf8Size + (join sep ts).utf8Size + sep.utf8Size := by
  by_cases hss : ss = []
  · rw [hss, List.nil_append]
    omega
  by_cases hts : ts = []
  · rw [hts, List.append_nil]
    omega
  have happend := utf8Size_join sep fun h : ss ++ ts = [] => hss (List.append_eq_nil_iff.mp h).1
  rw [sumOver_append, ← utf8Size_join sep hss, ← utf8Size_join sep hts] at happend
  omega

/-- Lists put together take one separator for each list after the first. -/
theorem utf8Size_join_flatMap_le {α : Type} (hsep : sep.utf8Size = 1) (f : α → List Text) :
    ∀ (l : List α) (a : α), (join sep ((a :: l).flatMap f)).utf8Size ≤
      sumOver (fun b => (join sep (f b)).utf8Size) (a :: l) + l.length
  | [], a => by
    rw [List.flatMap_singleton, sumOver_cons]
    omega
  | b :: l, a => by
    have ih := utf8Size_join_flatMap_le hsep f l b
    have happend := utf8Size_join_append_le sep (f a) ((b :: l).flatMap f)
    rw [List.flatMap_cons, sumOver_cons, List.length_cons]
    omega

/-- If the texts of a class differ only in lists, one text of all the lists is shorter by three bytes for
each text after the first. -/
theorem class_size_le {α : Type} {texts : α → List Text} {size : α → Nat} {common : Nat} {a : α}
    {l : List α} (sep : Char) (hsep : sep.utf8Size = 1) (hcommon : 4 ≤ common)
    (h : ∀ b ∈ a :: l, size b = common + (join sep (texts b)).utf8Size) :
    common + (join sep ((a :: l).flatMap texts)).utf8Size + 3 * l.length ≤ sumOver size (a :: l) := by
  have hjoin := utf8Size_join_flatMap_le hsep texts l a
  have hclass := sumOver_common_le 4 h hcommon
  omega

end Text

/-! ## Printed nodes

  Margins depend on the layout and the depth, and are the same for all lines of a depth. -/

namespace Line

/-- The bytes of a line at a depth beside its text: indentation, colour and line break. -/
def margin (layout : Layout) (depth : Nat) : Nat := ((⟨depth, []⟩ : Line).render layout).utf8Size

/-- A line takes its margin and its text. -/
theorem utf8Size_render (layout : Layout) (l : Line) :
    (l.render layout).utf8Size = margin layout l.depth + l.text.utf8Size := by
  unfold margin render colored
  split <;> split <;> simp only [Text.utf8Size_append, Text.utf8Size_nil] <;> omega

end Line

namespace Node

variable {layout : Layout} {depth line : Nat} {origin : List Nat}

/-- The bytes of the lines of a node at a depth. -/
def printedSize (layout : Layout) (depth : Nat) (n : Node) : Nat :=
  sumOver (fun l : Line => (l.render layout).utf8Size) (n.lines depth)

/-- The lines of siblings are the lines of each, imports first. -/
theorem lines_perm (depth : Nat) : ∀ ns : List Node,
    (importLines depth ns ++ otherLines depth ns).Perm (ns.flatMap (lines depth))
  | [] => by rw [otherLines]; exact List.Perm.refl _
  | n :: ns => by
    have ih := lines_perm depth ns
    -- A node that is no import moves behind the imports that follow it.
    have hothers : (importLines depth ns ++ (n.lines depth ++ otherLines depth ns)).Perm
        (n.lines depth ++ ns.flatMap (lines depth)) := by
      refine List.Perm.trans ?_ (ih.append_left _)
      rw [← List.append_assoc, ← List.append_assoc]
      exact List.perm_append_comm.append_right _
    rw [List.flatMap_cons]
    cases n with
    | importStatement line origin statement =>
      rw [otherLines, lines]
      exact ih.cons _
    | rule line origin selectors declarations =>
      rw [otherLines]
      · exact hothers
      · exact fun _ _ _ h => Node.noConfusion h
    | block line origin head reduced children =>
      rw [otherLines]
      · exact hothers
      · exact fun _ _ _ h => Node.noConfusion h

/-- The lines of siblings take what each of them takes. -/
theorem sumOver_lines (layout : Layout) (depth : Nat) (ns : List Node) :
    sumOver (fun l : Line => (l.render layout).utf8Size) (importLines depth ns ++ otherLines depth ns) =
      sumOver (printedSize layout depth) ns := by
  rw [sumOver_perm (lines_perm depth ns), sumOver_flatMap]
  rfl

/-- The print of a tree takes the sizes of its children together. -/
theorem utf8Size_print (layout : Layout) (n : Node) :
    (n.print layout).utf8Size = sumOver (printedSize layout 0) n.children := by
  rw [print, Text.utf8Size_flatMap, bodyLines, sumOver_lines]

/-- A rule takes one margin, its texts, and five bytes for braces and blanks. -/
theorem printedSize_rule (selectors declarations : List Text) :
    (rule line origin selectors declarations).printedSize layout depth =
      Line.margin layout depth + (Text.join ',' selectors).utf8Size +
        (Text.join ';' declarations).utf8Size + 5 := by
  have hopen : Text.utf8Size " \x7b ".toList = 3 := by decide
  have hclose : Text.utf8Size " \x7d".toList = 2 := by decide
  rw [printedSize, lines, sumOver_cons, sumOver_nil, Line.utf8Size_render, ruleText]
  simp only [Text.utf8Size_append, hopen, hclose]
  omega

/-- An at-rule takes two margins, its header, three bytes for braces and blanks, and its children one
level deeper. -/
theorem printedSize_atRule (kind : AtKind) (header : Text) (reduced : Nat) (children : List Node) :
    (block line origin (.atRule kind header) reduced children).printedSize layout depth =
      2 * Line.margin layout depth + header.utf8Size + 3 +
        sumOver (printedSize layout (depth + 1)) children := by
  have hopen : Text.utf8Size " \x7b".toList = 2 := by decide
  have hclose : closingText.utf8Size = 1 := by decide
  rw [printedSize, lines, List.cons_append, sumOver_cons, sumOver_append, sumOver_lines,
    sumOver_cons, sumOver_nil, Line.utf8Size_render, Line.utf8Size_render, openingText]
  simp only [Text.utf8Size_append, hopen, hclose]
  omega

/-! ## Charges

  With the counts charged, both passes become inequalities that go through level by level. -/

/-- The bytes of a printed node, and three for every sibling that grouping took away in it. -/
def charge (layout : Layout) (depth : Nat) (n : Node) : Nat :=
  n.printedSize layout depth + 3 * (n.reduced + totalReduced n.children)

/-- Siblings are charged what they take, and three bytes for each of their counts. -/
theorem sumOver_charge (layout : Layout) (depth : Nat) : ∀ ns : List Node,
    sumOver (charge layout depth) ns =
      sumOver (printedSize layout depth) ns + 3 * totalReduced ns
  | [] => rfl
  | n :: ns => by
    rw [sumOver_cons, sumOver_cons, totalReduced_cons, sumOver_charge layout depth ns, charge]
    omega

theorem charge_rule (selectors declarations : List Text) :
    (rule line origin selectors declarations).charge layout depth =
      (rule line origin selectors declarations).printedSize layout depth := rfl

theorem charge_importStatement (origin' : List Nat) (statement : Text) :
    (importStatement line origin statement).charge layout depth =
      (importStatement line origin' statement).printedSize layout depth := by
  rw [charge, printedSize, printedSize, lines, lines]
  rfl

/-- An at-rule is charged as it takes, with its children charged, and three bytes for its own count. -/
theorem charge_atRule (kind : AtKind) (header : Text) (reduced : Nat) (children : List Node) :
    (block line origin (.atRule kind header) reduced children).charge layout depth =
      2 * Line.margin layout depth + header.utf8Size + 3 +
        (sumOver (charge layout (depth + 1)) children + 3 * reduced) := by
  rw [charge, printedSize_atRule, sumOver_charge, Node.reduced, Node.children]
  omega

/-! ## Sheets

  A tree made by hand may have a sheet anywhere; the theorem excludes it below the top. -/

/-- Whether no sibling, and nothing below, is a sheet. -/
def SheetFree (siblings : List Node) : Prop := ∀ n ∈ preorderAll siblings, n.kind ≠ .root

instance (siblings : List Node) : Decidable (SheetFree siblings) :=
  inferInstanceAs (Decidable (∀ n ∈ preorderAll siblings, n.kind ≠ .root))

/-- Siblings are free of sheets if they are none and what they hold is free of sheets. -/
theorem sheetFree_iff {siblings : List Node} :
    SheetFree siblings ↔ ∀ n ∈ siblings, n.kind ≠ .root ∧ SheetFree n.children := by
  constructor
  · intro h n hn
    have hbelow : ∀ m ∈ n.preorder, m.kind ≠ .root := fun m hm => h m (mem_preorderAll.mpr ⟨n, hn, hm⟩)
    rw [preorder_eq] at hbelow
    exact List.forall_mem_cons.mp hbelow
  · intro h m hm
    obtain ⟨n, hn, hm⟩ := mem_preorderAll.mp hm
    rw [preorder_eq] at hm
    rcases List.mem_cons.mp hm with rfl | hm
    · exact (h m hn).1
    · exact (h n hn).2 m hm

/-- A block of sheet-free siblings is an at-rule. -/
theorem SheetFree.atRule {siblings children : List Node} {head : Head} {reduced : Nat}
    (h : SheetFree siblings) (hn : block line origin head reduced children ∈ siblings) :
    ∃ kind header, head = .atRule kind header := by
  have hkind := (sheetFree_iff.mp h _ hn).1
  cases head with
  | sheet => exact absurd rfl hkind
  | atRule kind header => exact ⟨kind, header, rfl⟩

/-- The head of a regular block opens an at-rule. -/
theorem sheetFree_of_regular : ∀ siblings : List Node, (∀ n ∈ siblings, n.Within Word.Regular) →
    SheetFree siblings := by
  intro siblings
  induction siblings using SameContent.children_ind with
  | step siblings ih =>
    intro h
    apply sheetFree_iff.mpr
    intro n hn
    refine ⟨?_, ih n hn (h n hn).children⟩
    cases n with
    | rule line origin selectors declarations => exact Kind.noConfusion
    | importStatement line origin statement => exact Kind.noConfusion
    | block line origin head reduced children =>
      obtain ⟨kind, header, rfl, -⟩ := (within_block_iff.mp (h _ hn)).1
      cases kind <;> exact Kind.noConfusion

end Node

open Node

/-! ## The passes

  For each kind of class, what its members take and what the node takes that they are folded to. -/

section

variable {layout : Layout} {depth : Nat} {siblings : List Node} {g : Group Sibling} {inner : Pass}

/-- If the node of each class spares three bytes for each member after the first, so do all together. -/
theorem charge_folds_le {fold : Group Sibling → Node} : ∀ {gs : List (Group Sibling)},
    (∀ g ∈ gs, (fold g).charge layout depth + 3 * g.others.length ≤
      sumOver (fun m : Sibling => m.1.printedSize layout depth) g.members) →
      sumOver (charge layout depth) (gs.map fold) + 3 * Group.takenAway gs ≤
        sumOver (fun m : Sibling => m.1.printedSize layout depth) (gs.flatMap Group.members)
  | [], _ => Nat.le_refl _
  | g :: gs, h => by
    have hg := h g List.mem_cons_self
    have ih := charge_folds_le fun g' hg' => h g' (List.mem_cons_of_mem g hg')
    rw [Group.takenAway] at ih
    rw [List.map_cons, List.flatMap_cons, sumOver_append, Group.takenAway, sumOver_cons, sumOver_cons]
    omega

/-- Classes in place of their members. -/
theorem charge_classes {κ : Type} [DecidableEq κ] {key : Sibling → κ} {ms : List Sibling}
    {fold : Group Sibling → Node}
    (hfold : ∀ g ∈ Group.groups key ms, (fold g).charge layout depth + 3 * g.others.length ≤
      sumOver (fun m : Sibling => m.1.printedSize layout depth) g.members) :
    sumOver (charge layout depth) ((Group.groups key ms).map fold) +
      3 * Group.takenAway (Group.groups key ms) ≤
        sumOver (printedSize layout depth) (ms.map Prod.fst) := by
  rw [sumOver_map _ Prod.fst, ← sumOver_perm (Group.flatMap_members_perm key ms)]
  exact charge_folds_le hfold

namespace SameHeader

/-- The union of a class holds no sheet if the siblings do not. -/
theorem sheetFree_union (h : SheetFree siblings) (hg : g ∈ classes siblings) :
    SheetFree (union g) := by
  apply sheetFree_iff.mpr
  intro n hn
  obtain ⟨m, hm, hn⟩ := List.mem_flatMap.mp hn
  have hmember := sheetFree_iff.mp h m.1 (Sibling.mem_of_mem_all (mem_all_of_mem_members hg hm))
  exact sheetFree_iff.mp hmember.2 n hn

/-- Import statements go through at their size. -/
theorem charge_imports {ms : List Sibling} (h : ∀ m ∈ ms, m.1.isImport = true) :
    sumOver (charge layout depth) (ms.map fun m => m.1.withOrigin [m.2]) =
      sumOver (printedSize layout depth) (ms.map Prod.fst) := by
  rw [sumOver_map, sumOver_map _ Prod.fst]
  refine sumOver_congr fun m hm => ?_
  obtain ⟨line, origin, statement, he⟩ := exists_importStatement (h m hm)
  rw [he]
  exact charge_importStatement origin statement

/-- Rules of one key have joined selectors of one size, which are written once. -/
theorem charge_fold_rule {line : Nat} {origin : List Nat} {selectors declarations : List Text}
    (hfirst : g.first.1 = .rule line origin selectors declarations)
    (hkey : ∀ m ∈ g.members, m.1.headerKey = g.first.1.headerKey) :
    (fold g inner).charge layout depth + 3 * g.others.length ≤
      sumOver (fun m : Sibling => m.1.printedSize layout depth) g.members := by
  -- All members have one header and pay for it each; the fold pays once, and the separators of the
  -- declarations with it.
  have hmember : ∀ m ∈ g.members, m.1.printedSize layout depth =
      (Line.margin layout depth + Text.utf8Size (Text.join ',' (Text.sort selectors)) + 5) +
        Text.utf8Size (Text.join ';' m.1.declarations) := by
    intro m hm
    obtain ⟨l, o, ss, ds, hrule, hjoin⟩ := rule_of_headerKey (hfirst ▸ hkey m hm)
    have hsort := Text.utf8Size_join_perm ',' (Text.sortOn_perm id ss)
    rw [hrule, printedSize_rule, ← hsort, ← hjoin, Text.sort, Node.declarations]
    omega
  have hclass := Text.class_size_le ';' (by decide) (by omega) hmember
  have hfold : (fold g inner).charge layout depth =
      (Line.margin layout depth + Text.utf8Size (Text.join ',' (Text.sort selectors)) + 5) +
        Text.utf8Size (Text.join ';' (g.members.flatMap fun m => m.1.declarations)) := by
    rw [fold, hfirst, charge_rule, printedSize_rule]
    omega
  rw [hfold]
  exact hclass

/-- Blocks of one key have one header, which is written once around what they hold. -/
theorem charge_fold_block {line reduced : Nat} {origin : List Nat} {kind : AtKind} {header : Text}
    {children : List Node} (hfirst : g.first.1 = .block line origin (.atRule kind header) reduced children)
    (hkey : ∀ m ∈ g.members, m.1.headerKey = g.first.1.headerKey)
    (hinner : sumOver (charge layout (depth + 1)) inner.children + 3 * inner.reduced ≤
      sumOver (printedSize layout (depth + 1)) (union g)) :
    (fold g inner).charge layout depth + 3 * g.others.length ≤
      sumOver (fun m : Sibling => m.1.printedSize layout depth) g.members := by
  -- All members pay for the header and for two margins; the fold pays once.
  have hmember : ∀ m ∈ g.members, m.1.printedSize layout depth =
      (2 * Line.margin layout depth + Text.utf8Size header + 3) +
        sumOver (printedSize layout (depth + 1)) m.1.children := by
    intro m hm
    obtain ⟨l, o, r, cs, hblock⟩ := block_of_headerKey (hfirst ▸ hkey m hm)
    rw [hblock, printedSize_atRule, Node.children]
  have hclass := sumOver_common_le 3 hmember (by omega)
  rw [union, sumOver_flatMap] at hinner
  have hfold : (fold g inner).charge layout depth =
      2 * Line.margin layout depth + Text.utf8Size header + 3 +
        (sumOver (charge layout (depth + 1)) inner.children + 3 * inner.reduced) := by
    rw [fold, hfirst]
    exact charge_atRule kind header inner.reduced inner.children
  rw [hfold]
  exact Nat.le_trans (Nat.add_le_add_right (Nat.add_le_add_left hinner _) _) hclass

/-- What merging by header leaves is charged no more than the siblings take. -/
theorem charge_pass (layout : Layout) (siblings : List Node) : ∀ depth, SheetFree siblings →
    sumOver (charge layout depth) (pass siblings).children + 3 * (pass siblings).reduced ≤
      sumOver (printedSize layout depth) siblings := by
  -- Level by level: what the pass leaves is charged against what was printed, import by import and
  -- class by class.
  induction siblings using union_ind with
  | step siblings ih =>
    intro depth hfree
    have himports : sumOver (charge layout depth) (Sibling.imports siblings) =
        sumOver (printedSize layout depth)
          (((Sibling.all siblings).filter fun m => m.1.isImport).map Prod.fst) :=
      charge_imports fun m hm => (List.mem_filter.mp hm).2
    have hclasses : sumOver (charge layout depth)
        ((classes siblings).map fun g => fold g (pass (union g))) +
          3 * Group.takenAway (classes siblings) ≤ sumOver (printedSize layout depth)
            (((Sibling.all siblings).filter fun m => !m.1.isImport).map Prod.fst) := by
      apply charge_classes
      intro g hg
      have hkey : ∀ m ∈ g.members, m.1.headerKey = g.first.1.headerKey := fun m hm =>
        Group.key_eq hg hm
      have hall := mem_all_of_mem_members hg (List.mem_cons_self (a := g.first))
      -- Imports stand alone and are no class; rules fold at once, blocks by what the level below
      -- them saved.
      cases hfirst : g.first.1 with
      | importStatement line origin statement =>
        have := isImport_of_mem_members hg (List.mem_cons_self (a := g.first))
        rw [hfirst] at this
        exact absurd this (by simp [isImport])
      | rule line origin selectors declarations => exact charge_fold_rule hfirst hkey
      | block line origin head reduced children =>
        obtain ⟨kind, header, rfl⟩ := hfree.atRule (hfirst ▸ Sibling.mem_of_mem_all hall)
        exact charge_fold_block hfirst hkey (ih g hg (depth + 1) (sheetFree_union hfree hg))
    rw [sumOver_perm (pass_children_perm siblings), sumOver_append, himports, pass_reduced,
      ← sumOver_perm (Sibling.cut_perm (fun m => m.1.isImport) siblings), sumOver_append]
    omega

end SameHeader

namespace SameContent

/-- Rules of one key have declarations of one size, which are written once. -/
theorem charge_fold (hg : g ∈ classes siblings) : (fold g).charge layout depth + 3 * g.others.length ≤
    sumOver (fun m : Sibling => m.1.printedSize layout depth) g.members := by
  -- All members have one body and pay for it each; the fold pays once.
  have hmember : ∀ m ∈ g.members, m.1.printedSize layout depth =
      (Line.margin layout depth + Text.utf8Size (Text.join ';' (contentKey g.first.1)) + 5) +
        Text.utf8Size (Text.join ',' m.1.selectors) := by
    intro m hm
    have hkey : contentKey m.1 = contentKey g.first.1 := Group.key_eq hg hm
    have hjoin := Text.utf8Size_join_perm ';' (contentKey_perm m.1)
    obtain ⟨line, origin, selectors, declarations, hrule⟩ := exists_rule (kind_of_mem_members hg hm)
    rw [← hkey, hjoin, hrule, printedSize_rule, Node.declarations, Node.selectors]
    omega
  have hclass := Text.class_size_le ',' (by decide) (by omega) hmember
  have hsort := Text.utf8Size_join_perm ','
    (Text.sortOn_perm id (g.members.flatMap fun m => m.1.selectors))
  have hfold : (fold g).charge layout depth =
      (Line.margin layout depth + Text.utf8Size (Text.join ';' (contentKey g.first.1)) + 5) +
        Text.utf8Size (Text.join ',' (g.members.flatMap fun m => m.1.selectors)) := by
    rw [fold, charge_rule, printedSize_rule, Text.sort, hsort]
    omega
  rw [hfold]
  exact hclass

/-- A node is charged no more than it takes when it is rebuilt around what a pass made of its children, if
that is charged no more than they take. -/
theorem charge_rebuilt {n : Node} {origin : List Nat} (hroot : n.kind ≠ .root)
    (hinner : sumOver (charge layout (depth + 1)) inner.children + 3 * inner.reduced ≤
      sumOver (printedSize layout (depth + 1)) n.children) :
    ((n.afterPass inner).withOrigin origin).charge layout depth ≤ n.printedSize layout depth := by
  cases n with
  | rule line origin' selectors declarations =>
    simp only [afterPass, rebuild, withOrigin, charge_rule, printedSize_rule]
    omega
  | importStatement line origin' statement => exact (charge_importStatement origin' statement).le
  | block line origin' head reduced children =>
    cases head with
    | sheet => exact absurd rfl hroot
    | atRule kind header =>
      rw [printedSize_atRule]
      simp only [afterPass, rebuild, withOrigin, charge_atRule]
      exact Nat.add_le_add_left hinner _

/-- What merging by content leaves is charged no more than the siblings take. -/
theorem charge_pass (layout : Layout) (siblings : List Node) : ∀ depth, SheetFree siblings →
    sumOver (charge layout depth) (pass siblings).children + 3 * (pass siblings).reduced ≤
      sumOver (printedSize layout depth) siblings := by
  induction siblings using children_ind with
  | step siblings ih =>
    intro depth hfree
    have hbelow := sheetFree_iff.mp hfree
    have hkept : sumOver (charge layout depth)
        ((Sibling.all siblings).filterMap fun m => keep m.2 (pass m.1.children) m.1) ≤
          sumOver (printedSize layout depth)
            (((Sibling.all siblings).filter fun m => !(m.1.kind == .rule)).map Prod.fst) := by
      rw [filterMap_keep fun n => pass n.children, sumOver_map, sumOver_map _ Prod.fst]
      apply sumOver_le
      intro m hm
      have hmem := Sibling.mem_of_mem_all (List.mem_filter.mp hm).1
      exact charge_rebuilt (hbelow m.1 hmem).1 (ih m.1 hmem (depth + 1) (hbelow m.1 hmem).2)
    have hrules : sumOver (charge layout depth) ((classes siblings).map fold) +
        3 * Group.takenAway (classes siblings) ≤ sumOver (printedSize layout depth)
          (((Sibling.all siblings).filter fun m => m.1.kind == .rule).map Prod.fst) :=
      charge_classes fun g hg => charge_fold hg
    rw [sumOver_perm (pass_children_perm siblings), sumOver_append, pass_reduced,
      ← sumOver_perm (Sibling.cut_perm (fun m => m.1.kind == .rule) siblings), sumOver_append]
    omega

end SameContent

end

/-! ## Trees -/

namespace Node

variable {tree : Node} {layout : Layout}

/-- A tree is printed no longer around what a pass made of its children, if that is charged no more than
they take. -/
theorem utf8Size_print_afterPass {p : Pass}
    (h : sumOver (charge layout 0) p.children + 3 * p.reduced ≤
      sumOver (printedSize layout 0) tree.children) :
    ((tree.afterPass p).print layout).utf8Size +
      3 * sumOver reduced (tree.afterPass p).preorder ≤ (tree.print layout).utf8Size := by
  rw [utf8Size_print, utf8Size_print, preorder_eq, sumOver_cons]
  show _ + 3 * (_ + totalReduced _) ≤ _
  cases tree with
  | rule line origin selectors declarations => exact Nat.le_refl _
  | importStatement line origin statement => exact Nat.le_refl _
  | block line origin head reduced children =>
    rw [sumOver_charge] at h
    simp only [afterPass, rebuild, Node.children, Node.reduced] at h ⊢
    omega

/-- A tree merged by header takes three bytes less for each node taken away, or saves more. -/
theorem print_mergeByHeader_le (h : SheetFree tree.children) (layout : Layout) :
    (tree.mergeByHeader.print layout).utf8Size + 3 * sumOver reduced tree.mergeByHeader.preorder ≤
      (tree.print layout).utf8Size :=
  utf8Size_print_afterPass (SameHeader.charge_pass layout tree.children 0 h)

/-- So does a tree merged by content. -/
theorem print_mergeByContent_le (h : SheetFree tree.children) (layout : Layout) :
    (tree.mergeByContent.print layout).utf8Size + 3 * sumOver reduced tree.mergeByContent.preorder ≤
      (tree.print layout).utf8Size :=
  utf8Size_print_afterPass (SameContent.charge_pass layout tree.children 0 h)

/-- The children of a parsed tree are free of sheets, and remain so when they are merged by header. -/
theorem sheetFree_of_parse {text : Text} (h : parse text = .ok tree) :
    SheetFree tree.children ∧ SheetFree tree.mergeByHeader.children := by
  obtain ⟨cs, rfl, hregular⟩ := regular_of_parse h
  constructor
  · exact sheetFree_of_regular cs hregular
  · exact sheetFree_of_regular _
      (SameHeader.within_pass (fun n hn => (hregular n hn).selective) hregular)

end Node

/-- A compile saves three bytes for every node that a pass took away. -/
theorem Compilation.sizeReport_le {settings : Settings} {text : Text} {c : Compilation}
    (h : compile settings text = .ok c) : c.sizeReport.compressed +
      3 * (sumOver reduced c.byHeader.preorder + sumOver reduced c.byContent.preorder) ≤
        c.sizeReport.original := by
  obtain ⟨parsed, hparse, rfl⟩ := ofTree_of_compile h
  obtain ⟨hparsed, hmerged⟩ := sheetFree_of_parse hparse
  have hheader := print_mergeByHeader_le hparsed settings.layout
  have hcontent := print_mergeByContent_le hmerged settings.layout
  show Text.utf8Size (parsed.mergeByHeader.mergeByContent.print settings.layout) +
    3 * (sumOver reduced parsed.mergeByHeader.preorder +
      sumOver reduced parsed.mergeByHeader.mergeByContent.preorder) ≤
    Text.utf8Size (parsed.print settings.layout)
  omega

/-- Neither pass makes the print of a tree longer, in any layout, and each node taken away makes it shorter
by three bytes; so no compile reports a larger size than before, and an equal size only if no node was
taken away. -/
theorem merges_shrink_print :
    (∀ tree : Node, SheetFree tree.children → ∀ layout : Layout,
      Text.utf8Size (tree.mergeByHeader.print layout) +
          3 * sumOver reduced tree.mergeByHeader.preorder ≤ Text.utf8Size (tree.print layout) ∧
        Text.utf8Size (tree.mergeByContent.print layout) +
          3 * sumOver reduced tree.mergeByContent.preorder ≤ Text.utf8Size (tree.print layout)) ∧
    ∀ (settings : Settings) (text : Text) (c : Compilation), compile settings text = .ok c →
      c.sizeReport.compressed ≤ c.sizeReport.original ∧
        (c.sizeReport.compressed = c.sizeReport.original →
          (∀ n ∈ c.byHeader.preorder, n.reduced = 0) ∧ ∀ n ∈ c.byContent.preorder, n.reduced = 0) := by
  constructor
  · intro tree hfree layout
    exact ⟨print_mergeByHeader_le hfree layout, print_mergeByContent_le hfree layout⟩
  · intro settings text c hc
    have hle := Compilation.sizeReport_le hc
    refine ⟨by omega, fun heq => ⟨?_, ?_⟩⟩
    · apply eq_zero_of_sumOver
      omega
    · apply eq_zero_of_sumOver
      omega

/-- Rules that nothing is folded of. -/
def unlikeRules : Text := ".b\x7by:1\x7d.a\x7bx:1;z:2\x7d".toList

/-- The blocks that are gathered get shorter in a coloured layout, and a sheet with nothing to fold keeps
its size. -/
theorem merges_shrink_print_scatteredBlocks :
    (SheetFree scatteredBlocks.children ∧
      Text.utf8Size (scatteredBlocks.mergeByHeader.print ⟨true, .spaces 4⟩) +
          3 * sumOver reduced scatteredBlocks.mergeByHeader.preorder ≤
        Text.utf8Size (scatteredBlocks.print ⟨true, .spaces 4⟩)) ∧
    ∃ c, compile {} unlikeRules = .ok c ∧ c.sizeReport.compressed = c.sizeReport.original ∧
      ∀ n ∈ c.byHeader.preorder, n.reduced = 0 := by
  constructor
  · have hfree : SheetFree scatteredBlocks.children := by decide
    exact ⟨hfree, (merges_shrink_print.1 scatteredBlocks hfree ⟨true, .spaces 4⟩).1⟩
  -- The compile is evaluated once, to the equality itself: its tree is not needed.
  · have hok : (compile {} unlikeRules).toOption.map (fun c =>
        decide (c.sizeReport.compressed = c.sizeReport.original)) = some true := by decide +kernel
    cases hc : compile {} unlikeRules with
    | error failure =>
      rw [hc] at hok
      exact absurd hok (by simp [Except.toOption])
    | ok c =>
      rw [hc] at hok
      have heq : c.sizeReport.compressed = c.sizeReport.original := by
        simpa [Except.toOption] using hok
      exact ⟨c, rfl, heq, ((merges_shrink_print.2 {} unlikeRules c hc).2 heq).1⟩

end StyleFold
