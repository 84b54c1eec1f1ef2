/-
  Settled — compiled sheets, and what their printed text reads as.

  What a compiled sheet is like, as far as printing is concerned: its imports are whole statements, and
  all other words can be read.  That is what compiling a text gives whatever the text was.

  1. **Placed words** — a word of a compiled sheet is legible, or a well-formed import statement outside
     of all at-rules.
  2. **Settled nodes** — so a child of a compiled sheet is such a statement or a legible tree
     (`sheet_of_compile`).
  3. **Import statements** — the printed statements are read as statements, whatever follows them.
  4. **Sheets** — a settled sheet without marks is read back, but for the rules that open at-rules
     (`Node.parse_print`).
-/
import StyleFold.Proofs.Merge.Facts
import StyleFold.Proofs.Print.Reread

namespace StyleFold

open Lookahead

/-! ## Placed words

  Merging moves words about and brings in none, so what holds of the words of the parsed sheet holds
  here. -/

namespace Node

/-- The path at which a word stands goes on from that of the node. -/
theorem path_prefix_of_mem_words {n : Node} : ∀ {path : Path} {x : Path × Word},
    x ∈ Tally.words.of path n → path <+: x.1 := by
  induction n using Node.ind with
  | rule line origin selectors declarations =>
    intro path x hx
    rw [Tally.of_rule] at hx
    rcases List.mem_append.mp hx with hx | hx
    · obtain ⟨s, -, rfl⟩ := List.mem_map.mp hx
      exact List.prefix_refl path
    · obtain ⟨d, -, rfl⟩ := List.mem_map.mp hx
      exact List.prefix_refl path
  | importStatement line origin statement =>
    intro path x hx
    rw [Tally.of] at hx
    obtain rfl := List.mem_singleton.mp hx
    exact List.prefix_refl path
  | block line origin head reduced children ih =>
    intro path x hx
    rw [Tally.of_block] at hx
    rcases List.mem_append.mp hx with hx | hx
    · obtain rfl := List.mem_singleton.mp hx
      exact List.prefix_refl path
    · obtain ⟨c, hc, hx⟩ := Tally.mem_all.mp hx
      have hextend : path <+: head.extend path := by
        cases head with
        | sheet => exact List.prefix_refl path
        | atRule kind header => exact List.prefix_append path [(kind, header)]
      exact hextend.trans (ih c hc hx)

end Node

/-- Whether the word with its path may stand in a compiled sheet. -/
def Placed (x : Path × Word) : Prop :=
  x.2.Legible ∨ ∃ s, x = ([], .statement s) ∧ WellFormed s

/-- A word below an at-rule is legible, for statements stand outside of all. -/
theorem Placed.legible {x : Path × Word} (h : Placed x) (hpath : x.1 ≠ []) : x.2.Legible := by
  rcases h with h | ⟨s, rfl, -⟩
  · exact h
  · exact absurd rfl hpath

/-- The words of a parsed sheet are placed. -/
theorem Node.placed_of_parse {text : Text} {tree : Node} (h : parse text = .ok tree) :
    ∀ x ∈ Tally.words.all [] tree.children, Placed x := by
  obtain ⟨cs, records, rfl, hcs, hrecords⟩ := legible_of_parse h
  intro x hx
  obtain ⟨n, hn, hx⟩ := Tally.mem_all.mp hx
  rcases List.mem_append.mp hn with hn | hn
  · exact .inl (hcs n hn [] x hx)
  · obtain ⟨r, hr, rfl⟩ := List.mem_map.mp hn
    rw [ImportRecord.node, Tally.of] at hx
    obtain rfl := List.mem_singleton.mp hx
    exact .inr ⟨r.statement, rfl, hrecords r hr⟩

/-! ## Settled nodes -/

/-- Whether the node may stand directly in a compiled sheet. -/
def Node.Settled (n : Node) : Prop :=
  n.Within Word.Legible ∨ ∃ line origin s, n = importStatement line origin s ∧ WellFormed s

/-- A node of placed words is settled. -/
theorem Node.settled_of_words {n : Node} (h : ∀ x ∈ Tally.words.of [] n, Placed x) : n.Settled := by
  cases n with
  | importStatement line origin s =>
    rw [Tally.of] at h
    rcases h _ (List.mem_singleton.mpr rfl) with h | ⟨s', he, hs⟩
    · exact h.elim
    · obtain rfl : s = s' := by simpa using he
      exact .inr ⟨line, origin, s, rfl, hs⟩
  | rule line origin selectors declarations =>
    refine .inl (within_of_path [] fun x hx => ?_)
    rcases h x hx with hx' | ⟨s, rfl, -⟩
    · exact hx'
    · rw [Tally.of_rule] at hx
      exact absurd hx (by simp [Tally.words])
  | block line origin head reduced children =>
    rw [Tally.of_block] at h
    have hhead : (Word.head head).Legible := by
      rcases h _ (List.mem_append_left _ (List.mem_singleton.mpr rfl)) with hx | ⟨s, he, -⟩
      · exact hx
      · exact absurd he (by simp)
    obtain ⟨kind, header, hatRule⟩ : ∃ kind header, head = .atRule kind header := by
      obtain ⟨kind, header, hatRule, -⟩ := hhead
      exact ⟨kind, header, hatRule⟩
    subst hatRule
    refine .inl (within_block hhead fun c hc => within_of_path [(kind, header)] fun x hx => ?_)
    -- a statement stands at the empty path, but words inside of the at-rule do not
    have hpath : x.1 ≠ [] := by
      intro hnil
      have hprefix := path_prefix_of_mem_words hx
      rw [hnil] at hprefix
      exact absurd (List.prefix_nil.mp hprefix) (by simp)
    exact (h x (List.mem_append_right _ (Tally.mem_all.mpr ⟨c, hc, hx⟩))).legible hpath

/-- A compiled tree is a sheet of settled nodes. -/
theorem sheet_of_compile {settings : Settings} {text : Text} {c : Compilation}
    (h : compile settings text = .ok c) : ∃ reduced cs, c.byContent = .block 0 [] .sheet reduced cs ∧
      ∀ n ∈ cs, n.Settled := by
  obtain ⟨parsed, hparse, rfl⟩ := ofTree_of_compile h
  have hplaced := Node.placed_of_parse hparse
  have hheader := SameHeader.tally_pass Tally.comparison_sameElements Tally.fair_words
    parsed.children [] (Node.selective_of_parse hparse [])
  obtain ⟨cs, records, rfl, -, -⟩ := Node.legible_of_parse hparse
  have hcontent := SameContent.tally_pass Tally.comparison_sameElements Tally.fair_words
    (SameHeader.pass (cs ++ records.map ImportRecord.node)).children []
  refine ⟨_, _, rfl, fun n hn => Node.settled_of_words fun x hx => ?_⟩
  exact hplaced x ((hheader x).mp ((hcontent x).mp (Tally.mem_all.mpr ⟨n, hn, hx⟩)))

/-! ## Import statements

  They are printed in front, one to a line, and read one by one. -/

namespace Lookahead

variable {layout : Layout}

theorem Reading.after_after (ss ts : List ImportRecord) (r : Reading) :
    (r.after ts).after ss = r.after (ss ++ ts) := by
  rw [after, after, after, List.append_assoc]

/-- Filler becomes pending and nothing else. -/
theorem Reading.of_filler {t : Text} (ht : Text.Filler t) (p : Position) (u rest : Text) :
    of p u (Lexeme.all (t ++ rest)) = of (p.past t) (u ++ t) (Lexeme.all rest) :=
  of_append ht.passive ht.unbridged p u

/-- A well-formed statement is read as one statement, whatever is pending. -/
theorem Reading.of_statement {s : Text} (hs : WellFormed s) (p : Position) (u rest : Text) :
    of p u (Lexeme.all (s ++ rest)) =
      (of (p.past s) u (Lexeme.all rest)).after [⟨s, (p.past s).line⟩] := by
  obtain ⟨body, rfl, hend⟩ := hs
  rw [List.append_assoc, Lexeme.all_statement (hend rest)]
  rfl

/-- Printed import statements are read as they are. -/
theorem Reading.of_importLines (hcolor : layout.color = false) (depth : Nat) (rest : Text) :
    ∀ {ss : List Text}, (∀ s ∈ ss, WellFormed s) → ∀ (p : Position) {u : Text}, Text.Filler u →
      ∃ p' u' records, Text.Filler u' ∧ records.map ImportRecord.statement = ss ∧
        of p u (Lexeme.all ((ss.map fun s => ⟨depth, s⟩).flatMap (Line.render layout) ++ rest)) =
          (of p' u' (Lexeme.all rest)).after records
  | [], _, p, u, hu => ⟨p, u, [], hu, rfl, rfl⟩
  | s :: ss, h, p, u, hu => by
    have hmargin := Layout.filler_margin layout depth
    have hend := Layout.filler_lineEnd layout
    obtain ⟨p', u', records, hu', rfl, hread⟩ := of_importLines hcolor depth rest
      (fun s' hs' => h s' (List.mem_cons_of_mem s hs'))
      (((p.past (layout.margin depth)).past s).past layout.lineEnd) ((hu.append hmargin).append hend)
    refine ⟨p', u', ⟨s, ((p.past (layout.margin depth)).past s).line⟩ :: records, hu', rfl, ?_⟩
    rw [List.map_cons, List.flatMap_cons, Line.render_eq hcolor, List.append_assoc, List.append_assoc,
      List.append_assoc, of_filler hmargin, of_statement (h s List.mem_cons_self), of_filler hend,
      hread, after_after]
    rfl

end Lookahead

/-! ## Sheets

  Printed text without colour, read as a whole. -/

namespace Node

variable {layout : Layout} {cs : List Node}

/-- A settled node that is no import is legible. -/
theorem Settled.legible {n : Node} (h : n.Settled) (hn : n.isImport = false) :
    n.Within Word.Legible := by
  rcases h with h | ⟨line, origin, s, rfl, -⟩
  · exact h
  · exact absurd hn (by simp [isImport])

/-- The statements of settled nodes are well formed. -/
theorem wellFormed_of_settled (h : ∀ n ∈ cs, n.Settled) :
    ∀ s ∈ cs.filterMap statement?, WellFormed s := by
  intro s hs
  obtain ⟨n, hn, he⟩ := List.mem_filterMap.mp hs
  cases n with
  | rule line origin selectors declarations => exact absurd he (by simp [statement?])
  | block line origin head reduced children => exact absurd he (by simp [statement?])
  | importStatement line origin s' =>
    obtain rfl : s' = s := by simpa [statement?] using he
    rcases h _ hn with h | ⟨line', origin', s, he, hs⟩
    · exact (within_importStatement_iff.mp h).elim
    · cases he
      exact hs

/-- The shapes of import statements are told by the statements. -/
theorem map_shape_imports : ∀ cs : List Node, (cs.filter isImport).map shape =
    (cs.filterMap statement?).map (importStatement 0 [])
  | [] => rfl
  | .importStatement line origin s :: cs => by
    have h := map_shape_imports cs
    rw [List.filter_cons_of_pos rfl, List.map_cons, shape, h]
    rfl
  | .rule .. :: cs => map_shape_imports cs
  | .block .. :: cs => map_shape_imports cs

/-- The shape of a record is its statement. -/
theorem shape_comp_node :
    shape ∘ ImportRecord.node = importStatement 0 [] ∘ ImportRecord.statement := by
  funext r
  show r.node.shape = _
  rw [ImportRecord.node, shape]
  rfl

/-- A printed sheet: the lines of its imports, and then those of the other children. -/
theorem print_sheet (line : Nat) (origin : List Nat) (reduced : Nat) (cs : List Node) :
    print layout (block line origin .sheet reduced cs) =
      ((cs.filterMap statement?).map fun s => ⟨0, s⟩).flatMap (Line.render layout) ++
        ((cs.filter fun n => !n.isImport).flatMap (lines 0)).flatMap (Line.render layout) := by
  rw [print, bodyLines, children, List.flatMap_append, otherLines_eq]
  rfl

/-- A settled sheet whose words show no mark is read back from behind filler, but for the rules that
open at-rules. -/
theorem parse_filler_print {filler : Text} (hfiller : filler.Filler) (hcolor : layout.color = false)
    (reduced : Nat) (hcs : ∀ n ∈ cs, n.Settled)
    (hinert : ∀ n ∈ cs, n.isImport = false → n.Within Word.Inert) :
    ∃ t, parse (filler ++ print layout (block 0 [] .sheet reduced cs)) = .ok t ∧
      t.shape = block 0 [] .sheet 0 ((cs.filter fun n => !n.isImport).map reread ++
        (cs.filter isImport).map shape) := by
  have hothers : ReadsAs (((cs.filter fun n => !n.isImport).flatMap (lines 0)).flatMap
      (Line.render layout)) ((cs.filter fun n => !n.isImport).map reread) := by
    refine readsAs_otherLines 0 fun n hn => ?_
    obtain ⟨hmem, hother⟩ := List.mem_filter.mp hn
    have hother : n.isImport = false := by simpa using hother
    exact readsAs_lines hcolor n ((hcs n hmem).legible hother) (hinert n hmem hother) 0
  obtain ⟨p, u, records, hu, hrecords, himports⟩ := Reading.of_importLines hcolor 0
    (((cs.filter fun n => !n.isImport).flatMap (lines 0)).flatMap (Line.render layout))
    (wellFormed_of_settled hcs) (Position.past {} filler) (u := [] ++ filler) hfiller
  obtain ⟨segments, p', u', nodes, -, hnodes, hread, hbuild⟩ := hothers p u [] hu
  rw [List.append_nil, Lexeme.all_nil] at hread
  have hreading : Reading.ofText (filler ++ print layout (block 0 [] .sheet reduced cs)) =
      { segments, statements := records, place := p' } := by
    rw [Reading.ofText, Reading.of_filler hfiller, print_sheet, himports, hread, Reading.of,
      Reading.behind, Reading.after, List.append_nil, List.append_nil]
  -- Imports open nothing: the assembly sees the others only.
  have hassembly : Assembly.build (filler ++ print layout (block 0 [] .sheet reduced cs)) {} segments =
      .ok ⟨[], block 0 [] .sheet 0 nodes⟩ := by
    have h := hbuild (filler ++ print layout (block 0 [] .sheet reduced cs)) {} [] rfl
    rw [List.append_nil] at h
    rw [h, Assembly.foldl_attach_nil, emptySheet, foldl_push]
    rfl
  have htree := parse_of_reading (by rw [hreading]; exact hassembly) (by rw [hreading])
  rw [hreading, Reading.withStatements_block] at htree
  refine ⟨_, htree, ?_⟩
  rw [shape_block, List.map_append, hnodes, map_shape_imports, ← hrecords, List.map_map, List.map_map,
    shape_comp_node]

/-- A settled sheet whose words show no mark is read back, but for the rules that open at-rules. -/
theorem parse_print (hcolor : layout.color = false) (reduced : Nat) (hcs : ∀ n ∈ cs, n.Settled)
    (hinert : ∀ n ∈ cs, n.isImport = false → n.Within Word.Inert) :
    ∃ t, parse (print layout (block 0 [] .sheet reduced cs)) = .ok t ∧
      t.shape = block 0 [] .sheet 0 ((cs.filter fun n => !n.isImport).map reread ++
        (cs.filter isImport).map shape) := parse_filler_print Text.filler_nil hcolor reduced hcs hinert

end Node

end StyleFold
