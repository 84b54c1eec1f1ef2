/-
  Recompile — compiling the output of a compile once more.

  The output of a compile is not always a fixed point: two rules with the same declarations may be merged
  into one whose selectors another rule of the block has, and the next compile folds the two together.

  For the first output to be read at all it has to be read as the tree that was printed, so the theorem
  is about outputs that are; whether they are is the subject of another module.

  1. **What is read again** — the tree that is read from the output holds the nodes of the compressed tree,
     up to labels and order, so it is compressed as that tree would be.
  2. **Equal outputs** — the second output is the first one exactly if the second compile found nothing to
     merge, that is if no two rules of one block have the same selectors (`compile_output_stable_iff`).
-/
import StyleFold.Proofs.Merge.Repeats
import StyleFold.Proofs.Print.Metadata
import StyleFold.Proofs.Print.RoundTrip

namespace StyleFold

open Node

variable {cs ts : List Node}

/-! ## What is read again

  Imports stand in front in the output and behind the other nodes in the tree, and lines are new; the
  passes see neither. -/

namespace Node

/-- A shape is the tree with all labels at zero. -/
theorem shape_eq_relabel (n : Node) : n.shape = n.relabel (fun _ => 0) fun _ => 0 := by
  induction n using Node.ind with
  | rule line origin selectors declarations => rw [shape, relabel_rule]
  | importStatement line origin statement => rw [shape, relabel_importStatement]
  | block line origin head reduced children ih =>
    rw [shape_block, relabel_block, List.map_congr_left ih]

theorem map_shape (ns : List Node) : ns.map shape = ns.map (relabel (fun _ => 0) fun _ => 0) :=
  List.map_congr_left fun n _ => shape_eq_relabel n

/-- A second reading has as many nodes: a rule that is read as an at-rule is read as an empty one. -/
theorem descendants_reread (n : Node) : n.reread.descendants = n.descendants := by
  induction n using Node.ind with
  | rule line origin selectors declarations =>
    rw [reread]
    split <;> simp [descendants]
  | importStatement line origin statement => rw [reread, descendants, descendants]
  | block line origin head reduced children ih =>
    rw [reread_block, descendants, descendants, population_map ih]

/-- What is read from the printed siblings, import statements last, has as many nodes. -/
theorem population_reread (cs : List Node) : population ((cs.filter fun n => !n.isImport).map reread ++
    (cs.filter isImport).map shape) = population cs := by
  rw [population_append, population_map fun n _ => descendants_reread n, map_shape,
    population_relabel, Nat.add_comm, ← population_append]
  exact population_perm (List.filter_append_perm _ cs)

/-- Siblings that are read in the shapes of others, import statements last, are like those. -/
theorem alike_of_shapes (h : ts.map shape = (cs.filter fun n => !n.isImport).map shape ++
    (cs.filter isImport).map shape) : Alike ts cs := by
  rw [← List.map_append, map_shape, map_shape] at h
  exact .trans (.of_map_relabel h)
    (.of_perm (List.perm_append_comm.trans (List.filter_append_perm _ cs)))

/-- What may stand in a compiled sheet is regular. -/
theorem Settled.regular {n : Node} (h : n.Settled) : n.Within Word.Regular := by
  rcases h with h | ⟨line, origin, s, rfl, body, rfl, -⟩
  · exact fun path x hx => (h path x hx).regular
  · exact within_importStatement_iff.mpr (List.prefix_append Imports.keyword body)

/-- Import statements show no marks in the sense of `Word.Inert`. -/
theorem within_inert_of_others {n : Node} (h : n.isImport = false → n.Within Word.Inert) :
    n.Within Word.Inert := by
  cases n with
  | rule line origin selectors declarations => exact h rfl
  | importStatement line origin statement => exact within_importStatement_iff.mpr trivial
  | block line origin head reduced children => exact h rfl

end Node

/-! ## Equal outputs

  Both directions: a second compile that merges something leaves fewer nodes, and then fewer lines. -/

/-- The children of a compiled tree are regular siblings, compressed. -/
theorem children_of_compile {settings : Settings} {text : Text} {c : Compilation}
    (h : compile settings text = .ok c) : ∃ siblings, (∀ n ∈ siblings, n.Within Word.Regular) ∧
      c.byContent.children = (compress siblings).children := by
  obtain ⟨parsed, hparse, rfl⟩ := ofTree_of_compile h
  obtain ⟨siblings, rfl, hregular⟩ := regular_of_parse hparse
  exact ⟨siblings, hregular, rfl⟩

section

variable {layout : Layout} {siblings es : List Node}

/-- Settled siblings that show no marks are printed like others only if they are as many nodes. -/
theorem Node.population_of_print (hcolor : layout.color = false) {reduced reduced' : Nat}
    (hcs : ∀ n ∈ cs, n.Settled) (hinert : ∀ n ∈ cs, n.Within Word.Inert)
    (hes : ∀ n ∈ es, n.Settled) (hinert' : ∀ n ∈ es, n.Within Word.Inert)
    (h : print layout (block 0 [] .sheet reduced cs) = print layout (block 0 [] .sheet reduced' es)) :
    population cs = population es := by
  obtain ⟨t, hparse, hshape⟩ := parse_print hcolor reduced hcs fun n hn _ => hinert n hn
  obtain ⟨t', hparse', hshape'⟩ := parse_print hcolor reduced' hes fun n hn _ => hinert' n hn
  obtain rfl : t = t' := Except.ok.inj (hparse.symm.trans (h ▸ hparse'))
  rw [hshape] at hshape'
  injection hshape' with _ _ _ _ hchildren
  rw [← population_reread cs, hchildren, population_reread es]

/-- Compressing again prints the same exactly if no selectors are repeated. -/
theorem Node.print_compress_iff (hcolor : layout.color = false) {reduced reduced' : Nat}
    (hregular : ∀ n ∈ siblings, n.Within Word.Regular)
    (hcs : ∀ n ∈ (compress siblings).children, n.Settled)
    (hinert : ∀ n ∈ (compress siblings).children, n.Within Word.Inert)
    (hes : ∀ n ∈ es, n.Settled) (hinert' : ∀ n ∈ es, n.Within Word.Inert)
    (hsame : (compress (compress siblings).children).children.map unplaced = es.map unplaced) :
    print layout (block 0 [] .sheet reduced es) =
        print layout (block 0 [] .sheet reduced' (compress siblings).children) ↔
      AtAllLevels SelectorsDistinct (compress siblings).children := by
  -- An equal print means an equal number of nodes, so nothing was folded by the second round;
  -- conversely a fixed point prints alike.
  constructor
  · intro h
    have hsize : population (compress (compress siblings).children).children = population es :=
      (population_relabel _).symm.trans ((congrArg population hsame).trans (population_relabel es))
    refine selectorsDistinct_of_population hregular ?_
    rw [hsize]
    exact Nat.le_of_eq (population_of_print hcolor hcs hinert hes hinert' h.symm)
  · intro h
    have hstable := compress_of_selectorsDistinct hregular h
    calc print layout (block 0 [] .sheet reduced es)
        = print layout (block 0 [] .sheet 0 (compress (compress siblings).children).children) :=
          print_eq_of_children hsame.symm
      _ = print layout (block 0 [] .sheet reduced' (compress siblings).children) :=
          print_eq_of_children hstable

end

/-- A rereadable compiled tree shows no marks. -/
theorem inert_of_rereadable {reduced : Nat} (hcs : ∀ n ∈ cs, n.Settled)
    (hreadable : ∀ n ∈ (block 0 [] .sheet reduced cs).preorder, n.Rereadable) :
    ∀ n ∈ cs, n.Within Word.Inert := fun n hn =>
  within_inert_of_others fun hother => ((rereadable_sheet_iff reduced hcs).mp hreadable n hn hother).1

/-- The output of a rereadable compile compiles again, from siblings like those of the compressed tree, and
the outputs are compared by their sheets. -/
theorem compile_output {settings : Settings} {text : Text} {c : Compilation}
    (h : compile settings text = .ok c) (hcolor : settings.layout.color = false)
    (hreadable : ∀ n ∈ c.byContent.preorder, n.Rereadable) :
    ∃ c' siblings, compile settings c.output = .ok c' ∧ Alike siblings c.byContent.children ∧
      c'.byContent.children = (compress siblings).children ∧
      (c'.output = c.output ↔ c'.byContent.print settings.layout = c.byContent.print settings.layout) := by
  obtain ⟨reduced, cs, hsheet, hcs⟩ := sheet_of_compile h
  rw [hsheet] at hreadable
  have hinert := inert_of_rereadable hcs hreadable
  have hshapes : (cs.filter fun n => !n.isImport).map reread =
      (cs.filter fun n => !n.isImport).map shape := by
    refine List.map_congr_left fun n hn => ?_
    obtain ⟨hmem, hother⟩ := List.mem_filter.mp hn
    exact ((rereadable_sheet_iff reduced hcs).mp hreadable n hmem (by simpa using hother)).2
  -- the output is cut in front of the sheet, which is read back in its shape
  have hcomment := not_comment_print hcolor reduced hcs fun n hn _ => hinert n hn
  obtain ⟨metadata, filler, hfiller, hsplit, houtput⟩ := Compilation.split_output h (hsheet ▸ hcomment)
  obtain ⟨t, hparse, hshape⟩ := parse_filler_print hfiller hcolor reduced hcs fun n hn _ => hinert n hn
  have hcompile : compile settings c.output = .ok (Compilation.ofTree settings metadata t) := by
    rw [compile, hsplit, hsheet]
    exact congrArg (Except.map _) hparse
  obtain ⟨siblings, rfl, -⟩ := regular_of_parse hparse
  rw [shape_block, hshapes] at hshape
  injection hshape with _ _ _ _ hshape
  refine ⟨_, siblings, hcompile, ?_, rfl, houtput _⟩
  rw [hsheet]
  exact alike_of_shapes hshape

/-- The output of a compile without colour, if every node of the compressed tree is rereadable, compiles
again, and to itself exactly if no two rules of one block have the same selectors. -/
theorem compile_output_stable_iff {settings : Settings} {text : Text} {c : Compilation}
    (h : compile settings text = .ok c) (hcolor : settings.layout.color = false)
    (hreadable : ∀ n ∈ c.byContent.preorder, n.Rereadable) :
    ∃ c', compile settings c.output = .ok c' ∧
      (c'.output = c.output ↔ AtAllLevels SelectorsDistinct c.byContent.children) := by
  obtain ⟨c', again, hcompile, halike, hagain, houtput⟩ := compile_output h hcolor hreadable
  refine ⟨c', hcompile, houtput.trans ?_⟩
  obtain ⟨reduced, cs, hsheet, hcs⟩ := sheet_of_compile h
  obtain ⟨reduced', es, hsheet', hes⟩ := sheet_of_compile hcompile
  obtain ⟨siblings, hregular, hchildren⟩ := children_of_compile h
  rw [hsheet] at hreadable hchildren halike
  rw [hsheet'] at hagain
  obtain rfl : cs = (compress siblings).children := hchildren
  obtain rfl : es = (compress again).children := hagain
  have hinert := inert_of_rereadable hcs hreadable
  -- what is compiled again is alike, so it is compressed as the first result would be
  have hregular' : ∀ n ∈ (compress siblings).children, n.Within Word.Regular := fun n hn =>
    (hcs n hn).regular
  have hinert' : ∀ n ∈ (compress again).children, n.Within Word.Inert :=
    within_compress (halike.symm.within hregular') (halike.symm.within hinert)
  have hsame := Pass.children_of_unplaced (compress_of_alike _ hregular' again halike.symm)
  rw [hsheet, hsheet']
  exact print_compress_iff hcolor hregular hcs hinert hes hinert' hsame

/-- A metadata block, an import statement, and in a media block two rules of the same declarations
behind a rule that has the selectors of both. -/
def repeatedSelectors : Text :=
  "/* ==UserStyle==\n==/UserStyle== */@import 'u';@media p\x7b.a,.b\x7by:2\x7d.a\x7bx:1\x7d.b\x7bx:1\x7d\x7d".toList

/-- A sheet that is compiled further when its output is compiled again. -/
theorem compile_output_stable_iff_repeatedSelectors : ∃ c c', compile {} repeatedSelectors = .ok c ∧
    compile {} c.output = .ok c' ∧ c'.output ≠ c.output := by
  have hnodes : ∀ n ∈ (compile {} repeatedSelectors).toOption.elim [] (·.byContent.preorder),
      n.Rereadable := by decide +kernel
  have hrepeated : ¬ AtAllLevels SelectorsDistinct
      ((compile {} repeatedSelectors).toOption.elim [] (·.byContent.children)) := by decide +kernel
  have hok : (compile {} repeatedSelectors).isOk = true := by decide +kernel
  cases hc : compile {} repeatedSelectors with
  | ok c =>
    rw [hc] at hnodes hrepeated
    obtain ⟨c', hcompile, hiff⟩ := compile_output_stable_iff hc rfl hnodes
    exact ⟨c, c', rfl, hcompile, fun he => hrepeated (hiff.mp he)⟩
  | error failure =>
    rw [hc] at hok
    exact absurd hok Bool.false_ne_true

-- the rules of `x:1` get the selectors that the rule of `y:2` has, and the next compile merges the two
example : (compile {} ".a\x7bx:1\x7d.b\x7bx:1\x7d.a,.b\x7by:2\x7d".toList).toOption.map (·.output) =
    some ".a,.b \x7b x:1 \x7d.a,.b \x7b y:2 \x7d".toList := by decide +kernel
example : (compile {} ".a,.b \x7b x:1 \x7d.a,.b \x7b y:2 \x7d".toList).toOption.map (·.output) =
    some ".a,.b \x7b y:2;x:1 \x7d".toList := by decide +kernel

end StyleFold
