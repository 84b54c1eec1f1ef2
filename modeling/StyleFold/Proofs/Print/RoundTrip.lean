/-
  RoundTrip — when the printed form of a compiled sheet is read back as that sheet.

  It is not always: sorting may put a selector that begins with `@media` in front of a rule, and dropping
  line breaks may bring a mark about.  Both are seen on the nodes, whatever the layout.

  There are two ways for a printed sheet to be read differently, and the first of them is met in
  practice: it is a selector that looks like an at-rule once it comes first.  The theorem counts them:
  no other way exists, for any settings without colour and for any text.

  1. **Children by kind** — the shape of a sheet tells its import statements and its other children.
  2. **What is read** — the tree read from a printed sheet that has the shape of that sheet is made of
     words that show no mark (`inert_of_parse_print`).
  3. **The round trip** — the printed sheet is read back exactly if every node is rereadable
     (`compile_reads_back_iff`).
-/
import StyleFold.Proofs.Print.Seams

namespace StyleFold

open Text Lookahead

namespace Node

variable {layout : Layout} {cs ds : List Node} {n : Node}

/-! ## Children by kind -/

/-- Imports are told by their shapes. -/
theorem isImport_shape (n : Node) : n.shape.isImport = n.isImport := by
  cases n <;> rw [shape] <;> rfl

/-- The shape with imports last: the shapes of the others, and then those of the imports. -/
theorem shape_importsLast (line : Nat) (origin : List Nat) (head : Head) (reduced : Nat)
    (cs : List Node) : (block line origin head reduced cs).importsLast.shape =
      block 0 [] head 0 ((cs.filter fun n => !n.isImport).map shape ++
        (cs.filter isImport).map shape) := by
  rw [importsLast, shape_block, List.map_append]

/-- A list of other nodes with import statements behind it tells both. -/
theorem append_imports_inj {as bs : List Node} {ss ts : List Text}
    (ha : ∀ n ∈ as, n.isImport = false) (hb : ∀ n ∈ bs, n.isImport = false)
    (h : as ++ ss.map (importStatement 0 []) = bs ++ ts.map (importStatement 0 [])) :
    as = bs ∧ ss = ts := by
  have hstatements (us : List Text) : ∀ n ∈ us.map (importStatement 0 []), n.isImport = true :=
    List.forall_mem_map.mpr fun _ _ => rfl
  obtain rfl : as = bs := by
    have hfilter := congrArg (List.filter fun n => !n.isImport) h
    rwa [filter_others ha (hstatements ss), filter_others hb (hstatements ts)] at hfilter
  have hinj : Function.Injective (importStatement 0 []) := fun s t he => by injection he
  exact ⟨rfl, hinj.list_map (List.append_cancel_left h)⟩

/-! ## What is read

  The converse direction starts from a tree that was read back, about which parsing tells everything. -/

/-- If the tree that is read from a printed sheet has the shape of the sheet, no word of the sheet
shows a mark. -/
theorem inert_of_parse_print {reduced : Nat} {t : Node} (hcolor : layout.color = false)
    (hcs : ∀ n ∈ cs, n.Settled)
    (hparse : parse (print layout (block 0 [] .sheet reduced cs)) = .ok t)
    (hshape : t.shape = (block 0 [] .sheet reduced cs).importsLast.shape) :
    ∀ n ∈ cs, n.isImport = false → n.Within Word.Inert := by
  have hothers : ∀ n ∈ cs.filter fun n => !n.isImport, n.Within Word.Legible := by
    intro n hn
    obtain ⟨hmem, hother⟩ := List.mem_filter.mp hn
    exact (hcs n hmem).legible (by simpa using hother)
  have hfirm : FirmBreaks (((cs.filter fun n => !n.isImport).flatMap (lines 0)).flatMap
      (Line.render layout)) := by
    refine firmBreaks_render hcolor fun l hl => ?_
    obtain ⟨n, hn, hl⟩ := List.mem_flatMap.mp hl
    exact braced_lines n (hothers n hn) 0 l hl
  obtain ⟨p, u, records, hu, hrecords, himports⟩ := Reading.of_importLines hcolor 0
    (((cs.filter fun n => !n.isImport).flatMap (lines 0)).flatMap (Line.render layout))
    (wellFormed_of_settled hcs) {} filler_nil
  obtain ⟨sheet, hbuild, -, rfl⟩ := reading_of_parse hparse
  rw [Reading.ofText, print_sheet, himports] at hbuild hshape
  obtain ⟨ds, hsheet, hds⟩ := (Assembly.within_legible hu.passive.neat hbuild).sheet
  obtain rfl : sheet = block 0 [] .sheet 0 ds := hsheet
  rw [Reading.withStatements_block, shape_block, shape_importsLast, map_shape_imports, List.map_append,
    List.map_map, shape_comp_node, ← List.map_map] at hshape
  have hds' : ∀ n ∈ ds.map shape, n.isImport = false := List.forall_mem_map.mpr fun n hn =>
    (isImport_shape n).trans (isImport_of_legible (hds n hn))
  have hothers' : ∀ n ∈ (cs.filter fun n => !n.isImport).map shape, n.isImport = false :=
    List.forall_mem_map.mpr fun n hn => (isImport_shape n).trans (isImport_of_legible (hothers n hn))
  obtain ⟨hchildren, hstatements⟩ := append_imports_inj hds' hothers' (by injection hshape)
  -- all statements that are read were printed as such, so none is read from the other lines
  have hnone : (Reading.of p u (Lexeme.all (((cs.filter fun n => !n.isImport).flatMap
      (lines 0)).flatMap (Line.render layout)))).statements = [] := by
    rw [Reading.after, List.map_append, hrecords] at hstatements
    exact List.map_eq_nil_iff.mp (List.append_right_eq_self.mp hstatements)
  obtain ⟨ds', hsheet', hinert⟩ := (Assembly.within_inert hfirm hu hnone hbuild).sheet
  obtain rfl : ds = ds' := by injection hsheet'
  intro n hn hother
  have hmem : n.shape ∈ ds.map shape :=
    hchildren ▸ List.mem_map_of_mem (List.mem_filter.mpr ⟨hn, by rw [hother]; rfl⟩)
  obtain ⟨m, hm, he⟩ := List.mem_map.mp hmem
  exact (within_shape n).mp (he ▸ (within_shape m).mpr (hinert m hm))

/-! ## The round trip

  Rereadable nodes are read back one by one, and a node that is not read back is not rereadable. -/

/-- Of the nodes of a settled sheet the import statements are rereadable in any case. -/
theorem rereadable_sheet_iff (reduced : Nat) (hcs : ∀ n ∈ cs, n.Settled) :
    (∀ n ∈ (block 0 [] .sheet reduced cs).preorder, n.Rereadable) ↔
      ∀ n ∈ cs, n.isImport = false → n.Within Word.Inert ∧ n.reread = n.shape := by
  rw [forall_mem_preorder_block]
  constructor
  · rintro ⟨-, h⟩ n hn -
    exact (rereadable_iff n).mp (h n hn)
  · intro h
    refine ⟨trivial, fun n hn => (rereadable_iff n).mpr ?_⟩
    rcases hcs n hn with hlegible | ⟨line, origin, s, rfl, -⟩
    · exact h n hn (isImport_of_legible hlegible)
    · rw [within_importStatement_iff, reread, shape]
      exact ⟨trivial, rfl⟩

/-- The printed form of a settled sheet is read back as the sheet exactly if all its nodes are
rereadable. -/
theorem parse_print_iff (hcolor : layout.color = false) (reduced : Nat) (hcs : ∀ n ∈ cs, n.Settled) :
    (∃ t, parse (print layout (block 0 [] .sheet reduced cs)) = .ok t ∧
        t.shape = (block 0 [] .sheet reduced cs).importsLast.shape) ↔
      ∀ n ∈ (block 0 [] .sheet reduced cs).preorder, n.Rereadable := by
  rw [rereadable_sheet_iff reduced hcs]
  constructor
  · rintro ⟨t, hparse, hshape⟩ n hn hother
    -- no word shows a mark, so what is read is known, and compared with the sheet child by child
    have hinert := inert_of_parse_print hcolor hcs hparse hshape
    obtain ⟨t', hparse', hshape'⟩ := parse_print hcolor reduced hcs hinert
    obtain rfl : t = t' := Except.ok.inj (hparse.symm.trans hparse')
    rw [hshape', shape_importsLast] at hshape
    have hlists : (cs.filter fun n => !n.isImport).map reread =
        (cs.filter fun n => !n.isImport).map shape :=
      List.append_cancel_right (by injection hshape)
    have hmem : n ∈ cs.filter fun n => !n.isImport := List.mem_filter.mpr ⟨hn, by rw [hother]; rfl⟩
    exact ⟨hinert n hn hother, List.map_inj_left.mp hlists n hmem⟩
  · intro h
    obtain ⟨t, hparse, hshape⟩ :=
      parse_print hcolor reduced hcs fun n hn hother => (h n hn hother).1
    refine ⟨t, hparse, ?_⟩
    have hlists : (cs.filter fun n => !n.isImport).map reread =
        (cs.filter fun n => !n.isImport).map shape := by
      refine List.map_inj_left.mpr fun n hn => ?_
      obtain ⟨hmem, hother⟩ := List.mem_filter.mp hn
      exact (h n hmem (by simpa using hother)).2
    rw [hshape, shape_importsLast, hlists]

end Node

/-- What is printed of a compile without colour is read back, import statements last, exactly if every
node of the compressed tree is rereadable. -/
theorem compile_reads_back_iff {settings : Settings} {text : Text} {c : Compilation} {layout : Layout}
    (h : compile settings text = .ok c) (hcolor : layout.color = false) :
    (∃ t, Node.parse (c.byContent.print layout) = .ok t ∧
        t.shape = c.byContent.importsLast.shape) ↔
      ∀ n ∈ c.byContent.preorder, n.Rereadable := by
  obtain ⟨reduced, cs, hsheet, hcs⟩ := sheet_of_compile h
  rw [hsheet]
  exact Node.parse_print_iff hcolor reduced hcs

/-- An import statement, an at-rule, and selectors that are sorted, one with a mark in a literal. -/
def markInLiteral : Text :=
  ".b,.a[t='/*']\x7bx:1;y:'@import'\x7d@import 'u';@media p\x7b.c\x7b\x7d\x7d".toList

/-- A sheet that is read back from its indented form. -/
theorem compile_reads_back_markInLiteral : ∃ c, compile {} markInLiteral = .ok c ∧
    ∃ t, Node.parse (c.byContent.print .pretty) = .ok t ∧
      t.shape = c.byContent.importsLast.shape := by
  have hnodes : ∀ n ∈ (compile {} markInLiteral).toOption.elim [] (·.byContent.preorder),
      n.Rereadable := by decide +kernel
  have hok : (compile {} markInLiteral).isOk = true := by decide +kernel
  cases hc : compile {} markInLiteral with
  | ok c =>
    rw [hc] at hnodes
    exact ⟨c, rfl, (compile_reads_back_iff hc rfl).mpr hnodes⟩
  | error failure =>
    rw [hc] at hok
    exact absurd hok Bool.false_ne_true

-- sorting puts `@media x` in front: the rule is read back as an at-rule, and its declaration is lost
example : (compile {} "b,@media x\x7bc:d\x7d".toList).toOption.map (·.byContent.print .minified) =
    some "@media x,b \x7b c:d \x7d".toList := by decide +kernel
example : (Node.parse "@media x,b \x7b c:d \x7d".toList).toOption =
    some (.block 0 [] .sheet 0 [.block 1 [] (.atRule .media "@media x,b".toList) 0 []]) := by
  decide +kernel

end StyleFold
