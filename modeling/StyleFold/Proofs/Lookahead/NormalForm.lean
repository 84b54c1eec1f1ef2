/-
  NormalForm — what every tree that was read is like.

  What a tree looks like when it comes out of the parser, whatever the text was.  All clauses are about
  the tree alone, so that whoever works on parsed trees has them at hand and need not know about texts.

  1. **Words** — selectors, declarations and headers are not empty, tidied and balanced, and show no brace;
     a statement is the keyword with a rest of one line that ends at its first semicolon.
  2. **The normal form** of a tree from a text with a given number of line feeds.
  3. **Reading** gives trees in normal form (`Node.normalForm_of_parse`): lines come from the places of the
     segments, words from their pending texts.
-/
import StyleFold.Proofs.Lookahead.Places

namespace StyleFold

open Text Lookahead

/-! ## Words

  Normal words are not empty, are tidied, close their literals and show no brace. -/

/-- Whether the text may be stored as a selector, a declaration or a header. -/
structure Text.Normal (t : Text) : Prop where
  ne_nil : t ≠ []
  tidy_eq : t.tidy = t
  balanced : Balanced t
  hides_open : Hides ['{'] t
  hides_close : Hides ['}'] t

instance (t : Text) : Decidable t.Normal :=
  decidable_of_iff (t ≠ [] ∧ t.tidy = t ∧ Balanced t ∧ Hides ['{'] t ∧ Hides ['}'] t)
    ⟨fun ⟨h₁, h₂, h₃, h₄, h₅⟩ => ⟨h₁, h₂, h₃, h₄, h₅⟩,
      fun ⟨h₁, h₂, h₃, h₄, h₅⟩ => ⟨h₁, h₂, h₃, h₄, h₅⟩⟩

/-- Whether the text is one import statement: it begins with the keyword, stands on one line, and shows
no semicolon before the one that it ends with. -/
structure Imports.Normal (statement : Text) : Prop where
  keyword_prefix : keyword <+: statement
  last : statement.getLast? = some ';'
  one_line : '\n' ∉ statement
  hides : Hides [';'] statement.dropLast

instance (s : Text) : Decidable (Imports.Normal s) :=
  decidable_of_iff (Imports.keyword <+: s ∧ s.getLast? = some ';' ∧ '\n' ∉ s ∧ Hides [';'] s.dropLast)
    ⟨fun ⟨h₁, h₂, h₃, h₄⟩ => ⟨h₁, h₂, h₃, h₄⟩, fun ⟨h₁, h₂, h₃, h₄⟩ => ⟨h₁, h₂, h₃, h₄⟩⟩

namespace Text

/-- A tidied, neat text that is not empty is normal. -/
theorem normal_of_neat {t : Text} (hne : t ≠ []) (ht : t.Tidied) (hneat : Neat t) : t.Normal :=
  ⟨hne, ht.tidy_eq, hneat.balanced, hneat.hides_open, hneat.hides_close⟩

end Text

namespace Lookahead

/-- The rest of a statement is of one line, and its last semicolon is the first one that it shows. -/
theorem StatementEnd.closed_spec : ∀ {q : Quote} {t body rest : Text}, q.Proper →
    StatementEnd.of q t = .closed body rest →
      ∃ r, body = r ++ [';'] ∧ '\n' ∉ r ∧ showsFrom [';'] q r = false
  | _, [], _, _, _, h => by simp [StatementEnd.of] at h
  | q, c :: t, body, rest, hq, h => by
    obtain ⟨-, hn, ⟨⟨rfl, -⟩, rfl, -⟩ | ⟨hend, b, hb, rfl⟩⟩ := closed_cons h
    · exact ⟨[], rfl, List.not_mem_nil, rfl⟩
    · obtain ⟨r, rfl, hr, hshows⟩ := closed_spec (hq.next c) hb
      refine ⟨c :: r, rfl, fun hmem => ?_, ?_⟩
      · rcases List.mem_cons.mp hmem with rfl | hmem
        · exact hn rfl
        · exact hr hmem
      · -- a semicolon at the front outside of literals would have ended the statement
        refine showsFrom_cons_eq_false (by decide) ?_ hshows
        rintro ⟨rfl, -, rfl⟩
        exact hend ⟨rfl, rfl⟩

/-- A statement that is well formed is normal. -/
theorem WellFormed.normal {statement : Text} (h : WellFormed statement) : Imports.Normal statement := by
  obtain ⟨body, rfl, hend⟩ := h
  obtain ⟨r, rfl, hr, hshows⟩ := StatementEnd.closed_spec Quote.proper_none (hend [])
  have hkeyword : ∀ c ∈ Imports.keyword, isQuote c = false ∧ c ≠ '\n' := by decide
  refine ⟨List.prefix_append _ _, by simp, fun hmem => ?_, ?_⟩
  · rcases List.mem_append.mp hmem with hmem | hmem
    · exact (hkeyword '\n' hmem).2 rfl
    · rcases List.mem_append.mp hmem with hmem | hmem
      · exact hr hmem
      · exact absurd hmem (by decide)
  · rw [← List.append_assoc, List.dropLast_concat]
    exact Hides.append_single (by decide) hshows (balanced_of_no_quotes fun c hc => (hkeyword c hc).1)

end Lookahead

/-! ## The normal form

  The clauses for single nodes, and for the order of lines along a walk. -/

namespace Node

/-- Whether the words of the node, those of what it holds apart, are as they are read; there is no
sheet inside of a sheet. -/
def Normal : Node → Prop
  | rule _ _ selectors declarations =>
    (∀ s ∈ selectors, s.Normal) ∧ (∀ d ∈ declarations, d.Normal) ∧
      items ',' (join ',' selectors) = selectors ∧ items ';' (join ';' declarations) = declarations
  | importStatement _ _ statement => Imports.Normal statement
  | block _ _ (.atRule kind header) _ _ =>
    header.Normal ∧ ∃ opener ∈ AtKind.openers, opener.2 = kind ∧ opener.1 <+: header
  | block _ _ .sheet _ _ => False

instance : (n : Node) → Decidable n.Normal
  | rule _ _ selectors declarations => inferInstanceAs (Decidable
      ((∀ s ∈ selectors, s.Normal) ∧ (∀ d ∈ declarations, d.Normal) ∧
        items ',' (join ',' selectors) = selectors ∧ items ';' (join ';' declarations) = declarations))
  | importStatement _ _ statement => inferInstanceAs (Decidable (Imports.Normal statement))
  | block _ _ (.atRule kind header) _ _ => inferInstanceAs (Decidable
      (header.Normal ∧ ∃ opener ∈ AtKind.openers, opener.2 = kind ∧ opener.1 <+: header))
  | block _ _ .sheet _ _ => inferInstanceAs (Decidable False)

/-- Whether the lines of the siblings never fall, those of import statements looked at apart. -/
def LinesRise (siblings : List Node) : Prop :=
  ((siblings.filter fun n => !n.isImport).map line).Pairwise (· ≤ ·) ∧
    ((siblings.filter isImport).map line).Pairwise (· ≤ ·)

/-- The normal form of a tree that was read from a text with so many line feeds. -/
structure NormalForm (lineFeeds : Nat) (tree : Node) : Prop where
  /-- The tree is a sheet. -/
  root : tree.kind = .root
  /-- No pass has touched a node. -/
  fresh : ∀ n ∈ tree.preorder, n.origin = [] ∧ n.reduced = 0
  /-- Every node below the sheet stands on a line of the text, -/
  lines : ∀ n ∈ preorderAll tree.children, 1 ≤ n.line ∧ n.line ≤ 1 + lineFeeds
  /-- not before the block around it, -/
  below : ∀ n ∈ preorderAll tree.children, ∀ c ∈ n.children, n.line ≤ c.line
  /-- and in the order of its siblings. -/
  sorted : AtAllLevels LinesRise tree.children
  /-- Import statements stand in the sheet only, behind everything else. -/
  imports : ∃ others statements, tree.children = others ++ statements ∧
    (∀ n ∈ preorderAll others, n.isImport = false) ∧ ∀ n ∈ statements, n.isImport = true
  /-- All words are as they are read. -/
  words : ∀ n ∈ preorderAll tree.children, n.Normal

/-! ## Reading

  Legible words, ordered assemblies and landmarks, put together. -/

/-- The nodes of a legible tree have normal words, and none of them is an import statement. -/
theorem normal_of_legible (n : Node) :
    n.Within Word.Legible → ∀ m ∈ n.preorder, m.Normal ∧ m.isImport = false := by
  induction n using Node.ind with
  | rule line origin selectors declarations =>
    rw [within_rule_iff, preorder, List.forall_mem_singleton]
    rintro ⟨hs, hd⟩
    refine ⟨⟨fun s hmem => ?_, fun d hmem => ?_, ?_, ?_⟩, rfl⟩
    · exact normal_of_neat (hs s hmem).1.ne_nil (hs s hmem).1.tidied (hs s hmem).2
    · exact normal_of_neat (hd d hmem).1.ne_nil (hd d hmem).1.tidied (hd d hmem).2
    · have h := items_join (b := []) (by decide) (by decide) blank_nil blank_nil
        fun s hmem => (hs s hmem).1
      rwa [List.nil_append, List.append_nil] at h
    · have h := items_join (b := []) (by decide) (by decide) blank_nil blank_nil
        fun d hmem => (hd d hmem).1
      rwa [List.nil_append, List.append_nil] at h
  | importStatement line origin statement =>
    rw [within_importStatement_iff]
    exact fun h => h.elim
  | block line origin head reduced children ih =>
    rw [within_block_iff, forall_mem_preorder_block]
    rintro ⟨⟨kind, header, rfl, hkind, htidied, hneat⟩, hchildren⟩
    refine ⟨⟨⟨?_, ?_⟩, rfl⟩, fun c hc => ih c hc (hchildren c hc)⟩
    · -- the empty header opens no at-rule
      refine normal_of_neat ?_ htidied hneat
      rintro rfl
      exact absurd hkind (by simp [AtKind.ofHeader?, AtKind.openers])
    · obtain ⟨opener, hfind, hopener⟩ := Option.map_eq_some_iff.mp hkind
      exact ⟨opener, List.mem_of_find?_eq_some hfind, hopener,
        List.isPrefixOf_iff_prefix.mp (by simpa using List.find?_some hfind)⟩

/-- Ordered siblings without import statements have rising lines. -/
theorem linesRise_of_sorted {siblings : List Node} (h : (siblings.map line).Pairwise (· ≤ ·))
    (hothers : ∀ n ∈ siblings, n.isImport = false) : LinesRise siblings := by
  refine ⟨h.sublist (List.filter_sublist.map line), ?_⟩
  rw [List.filter_eq_nil_iff.mpr fun n hn => by simp [hothers n hn]]
  exact List.Pairwise.nil

/-- A sheet with ordered nodes, and with statements on rising lines behind them, has rising lines. -/
theorem linesRise_append {others statements : List Node} (hothers : LinesRise others)
    (hnone : ∀ n ∈ others, n.isImport = false) (hall : ∀ n ∈ statements, n.isImport = true)
    (hstatements : (statements.map line).Pairwise (· ≤ ·)) : LinesRise (others ++ statements) := by
  rw [LinesRise, filter_others hnone hall, filter_imports hnone hall]
  refine ⟨?_, hstatements⟩
  have h := hothers.1
  rwa [List.filter_eq_self.mpr fun n hn => by simp [hnone n hn]] at h

/-- The listing of import statements is the list of them. -/
theorem preorderAll_imports : ∀ records : List ImportRecord,
    preorderAll (records.map ImportRecord.node) = records.map ImportRecord.node
  | [] => by rw [List.map_nil, preorderAll]
  | r :: records => by
    rw [List.map_cons, preorderAll, preorderAll_imports records, ImportRecord.node, preorder]
    rfl

/-- The nodes of records are imports. -/
theorem isImport_of_mem_records (records : List ImportRecord) :
    ∀ n ∈ records.map ImportRecord.node, n.isImport = true :=
  List.forall_mem_map.mpr fun _ _ => rfl

/-- A tree that was read is a sheet of ordered, legible nodes, with well-formed statements on rising lines
behind them. -/
theorem ordered_of_parse {text : Text} {tree : Node} (h : parse text = .ok tree) :
    ∃ (cs : List Node) (records : List ImportRecord),
      tree = .block 0 [] .sheet 0 (cs ++ records.map ImportRecord.node) ∧
      (∀ c ∈ cs, c.Within Word.Legible ∧ c.Ordered (1 + text.count '\n')) ∧
      (cs.map line).Pairwise (· ≤ ·) ∧ (∀ r ∈ records, WellFormed r.statement) ∧
      Rising 1 (1 + text.count '\n') (records.map ImportRecord.line) := by
  obtain ⟨sheet, hbuild, hend, rfl⟩ := reading_of_parse h
  have hrises := Reading.rises (Lexeme.all text) {} []
  have hplace : (Reading.ofText text).place.line = 1 + text.count '\n' := by
    rw [Reading.ofText, Reading.place_of_complete text hend]
    rfl
  rw [← hplace]
  obtain ⟨cs, hsheet, hcs⟩ := (Assembly.within_legible neat_nil hbuild).sheet
  obtain ⟨cs', hsheet', hordered, hsorted⟩ := Assembly.Ordered.build Assembly.ordered_start
    (Nat.le_refl 1) hrises.place hrises.segments hbuild
  obtain rfl : sheet = .block 0 [] .sheet 0 cs := hsheet
  obtain rfl : cs = cs' := by injection hsheet'
  refine ⟨cs, (Reading.ofText text).statements, Reading.withStatements_block _ cs,
    fun c hc => ⟨hcs c hc, hordered c hc⟩, hsorted, Reading.wellFormed, hrises.statements⟩

/-- Every tree that is read from a text is in normal form. -/
theorem normalForm_of_parse {text : Text} {tree : Node} (h : parse text = .ok tree) :
    tree.NormalForm (text.count '\n') := by
  obtain ⟨cs, records, rfl, hcs, hsorted, hrecords, hrising⟩ := ordered_of_parse h
  have hnodes : ∀ n ∈ preorderAll cs,
      n.InPlace (1 + text.count '\n') ∧ n.Normal ∧ n.isImport = false := by
    intro n hn
    obtain ⟨c, hc, hn⟩ := mem_preorderAll.mp hn
    exact ⟨(hcs c hc).2 n hn, normal_of_legible c (hcs c hc).1 n hn⟩
  -- below the sheet stand the nodes of the blocks, and the import statements
  have hbelow {P : Node → Prop} (hblocks : ∀ n ∈ preorderAll cs, P n)
      (himports : ∀ r ∈ records, P r.node) :
      ∀ n ∈ preorderAll (cs ++ records.map ImportRecord.node), P n := by
    rw [preorderAll_append, preorderAll_imports]
    exact List.forall_mem_append.mpr ⟨hblocks, List.forall_mem_map.mpr himports⟩
  have hnone : ∀ n ∈ cs, n.isImport = false := fun n hn =>
    (hnodes n (mem_preorderAll.mpr ⟨n, hn, preorder_eq n ▸ List.mem_cons_self⟩)).2.2
  have hall := isImport_of_mem_records records
  exact
    { root := rfl
      fresh := by
        rw [preorder]
        refine List.forall_mem_cons.mpr ⟨⟨rfl, rfl⟩, hbelow (fun n hn => ?_) fun _ _ => ⟨rfl, rfl⟩⟩
        exact ⟨(hnodes n hn).1.origin, (hnodes n hn).1.reduced⟩
      lines := hbelow (fun n hn => ⟨(hnodes n hn).1.positive, (hnodes n hn).1.bounded⟩)
        fun r hr => hrising.bounds r.line (List.mem_map.mpr ⟨r, hr, rfl⟩)
      below := hbelow (fun n hn => (hnodes n hn).1.below) fun _ _ _ hc => absurd hc List.not_mem_nil
      sorted := by
        refine ⟨linesRise_append (linesRise_of_sorted hsorted hnone) hnone hall ?_, hbelow ?_ ?_⟩
        · rw [List.map_map]
          exact hrising.sorted
        · intro n hn
          refine linesRise_of_sorted (hnodes n hn).1.sorted fun c hc => ?_
          obtain ⟨d, hd, hn⟩ := mem_preorderAll.mp hn
          exact (hnodes c (mem_preorderAll.mpr ⟨d, hd, mem_preorder_of_child d hn hc⟩)).2.2
        · exact fun _ _ => ⟨List.Pairwise.nil, List.Pairwise.nil⟩
      imports := ⟨cs, _, rfl, fun n hn => (hnodes n hn).2.2, hall⟩
      words := hbelow (fun n hn => (hnodes n hn).2.1) fun r hr => (hrecords r hr).normal }

/-- Braces and semicolons in literals, an empty declaration, and an import statement between blocks. -/
def bracesInLiterals : Text :=
  "@media p\x7b\n.a,[t='\x7b']\x7bx:1;;\ny:';'\x7d\x7d\n@import 'a;b';.b\x7b\x7d".toList

/-- The tree of that text. -/
def quotedSheet : Node :=
  .block 0 [] .sheet 0
    [.block 1 [] (.atRule .media "@media p".toList) 0
      [.rule 2 [] [".a".toList, "[t='\x7b']".toList] ["x:1".toList, "y:';'".toList]],
     .rule 4 [] [".b".toList] [],
     .importStatement 4 [] "@import 'a;b';".toList]

/-- A sheet with braces in its literals: the tree that it is read to, in normal form. -/
theorem normalForm_bracesInLiterals : parse bracesInLiterals = .ok quotedSheet ∧
    quotedSheet.NormalForm (bracesInLiterals.count '\n') := by
  have hparse : parse bracesInLiterals = .ok quotedSheet := by decide +kernel
  exact ⟨hparse, normalForm_of_parse hparse⟩

-- selectors that would be cut again are not in normal form
example : ¬ (rule 1 [] [".a".toList, ".b,.c".toList] []).Normal := by decide

end Node

end StyleFold
