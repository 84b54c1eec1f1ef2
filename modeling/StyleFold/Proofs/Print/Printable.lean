/-
  Printable — trees that can be printed and read back.

  `compile_reads_back_iff` is about trees that were compiled.  A tree from anywhere else is read back if
  its texts are clean and its nodes stand where a reader puts them.

  The conditions are stated about single nodes, and can be decided.  They are also what one would write
  down: each of them excludes one way in which a printed tree is read as something else.

  1. **Clean texts** — tidied, with closed literals, outside of which there is neither brace nor mark.
  2. **Clean statements** — the keyword, a rest of one line, and the first semicolon outside of literals;
     a reader stops there.
  3. **Printable trees** — clean nodes, and import statements only in front.  They are settled and
     rereadable, so printing them and reading the text gives the tree (`Node.parse_print_of_printable`).
-/
import StyleFold.Proofs.Print.RoundTrip

namespace StyleFold

open Text Lookahead

/-! ## Clean texts

  What a header, a selector or a declaration must be to be cut out of its line again. -/

namespace Text

variable {t : Text}

/-- Whether the text may stand as a selector, a declaration or a header in a printed sheet. -/
structure Clean (t : Text) : Prop where
  ne_nil : t ≠ []
  tidy_eq : t.tidy = t
  balanced : Balanced t
  hides_open : Hides ['{'] t
  hides_close : Hides ['}'] t
  inert : Inert t

instance (t : Text) : Decidable (Clean t) :=
  decidable_of_iff (t ≠ [] ∧ t.tidy = t ∧ Balanced t ∧ Hides ['{'] t ∧ Hides ['}'] t ∧ Inert t)
    ⟨fun ⟨h₁, h₂, h₃, h₄, h₅, h₆⟩ => ⟨h₁, h₂, h₃, h₄, h₅, h₆⟩,
      fun ⟨h₁, h₂, h₃, h₄, h₅, h₆⟩ => ⟨h₁, h₂, h₃, h₄, h₅, h₆⟩⟩

namespace Clean

/-- A clean text is tidied. -/
theorem tidied (h : t.Clean) : t.Tidied := h.tidy_eq ▸ tidied_tidy t

/-- A clean text is neat. -/
theorem neat (h : t.Clean) : Neat t := ⟨h.balanced, h.hides_open, h.hides_close⟩

/-- A clean text that hides a delimiter is one item. -/
theorem item {d : Char} (h : t.Clean) (hd : Hides [d] t) : Item d t :=
  ⟨h.ne_nil, h.tidied, h.balanced, hd⟩

end Clean

end Text

/-! ## Clean statements -/

/-- Whether the text is an import statement of one line that ends with its only semicolon. -/
def Imports.Clean (statement : Text) : Prop := ∃ r, statement = keyword ++ r ++ [';'] ∧
  '\n' ∉ r ∧ ¬ keyword <:+: r ∧ Balanced r ∧ Hides [';'] r

namespace Lookahead

/-- The statement ends with the semicolon behind a rest that shows none. -/
theorem StatementEnd.of_rest (rest : Text) : ∀ {t : Text} {q : Quote}, q.Proper → '\n' ∉ t →
    ¬ Imports.keyword <:+: t → q.after t = none → showsFrom [';'] q t = false →
      StatementEnd.of q (t ++ ';' :: rest) = .closed (t ++ [';']) rest
  | [], q, _, _, _, hq, _ => by
    obtain rfl : q = none := hq
    rfl
  | c :: t, q, hp, hn, hk, hq, hs => by
    have hkeyword : ¬ Imports.keyword.isPrefixOf (c :: t ++ ';' :: rest) = true := by
      intro h
      have hbody : Imports.keyword <+: c :: t ++ [';'] := by
        refine keyword_prefix_of_append (r := rest) (by simp) ?_
        simpa using List.isPrefixOf_iff_prefix.mp h
      rcases List.prefix_concat_iff.mp hbody with he | hpre
      · have hmem : ';' ∈ Imports.keyword := he ▸ List.mem_append_right _ List.mem_cons_self
        exact absurd hmem (by decide)
      · exact hk hpre.isInfix
    have hnc : ¬ c = '\n' := fun h => hn (h ▸ List.mem_cons_self)
    -- a semicolon inside of a literal leaves the literal open
    have hend : ¬ (c = ';' ∧ q.next c = none) := by
      rintro ⟨rfl, hnext⟩
      rw [Quote.next_eq_self hp (by decide)] at hnext
      rw [hnext] at hs
      exact absurd hs (by simp [showsFrom])
    have ih := of_rest rest (hp.next c) (fun h => hn (List.mem_cons_of_mem c h))
      (fun h => hk (h.trans (List.suffix_cons c t).isInfix)) hq
      (Bool.or_eq_false_iff.mp hs).2
    rw [List.cons_append] at hkeyword ⊢
    rw [StatementEnd.of, if_neg hkeyword, if_neg hnc, if_neg hend, ih]
    rfl

/-- A clean statement is well formed. -/
theorem wellFormed_of_clean {s : Text} (h : Imports.Clean s) : WellFormed s := by
  obtain ⟨r, rfl, hn, hk, hb, hs⟩ := h
  refine ⟨r ++ [';'], List.append_assoc _ _ _, fun rest => ?_⟩
  rw [List.append_assoc]
  exact StatementEnd.of_rest rest Quote.proper_none hn hk hb hs

end Lookahead

/-! ## Printable trees

  Clean nodes are legible and rereadable, so the theorem about compiled sheets applies to trees that no
  compile has made. -/

namespace Node

/-- Whether the node, apart from what it holds, may stand in a printable tree below the root: a rule of
clean words whose selectors open no at-rule, or an at-rule whose clean header opens it. -/
def Clean : Node → Prop
  | rule _ _ selectors declarations =>
    (∀ s ∈ selectors, s.Clean ∧ Hides [','] s) ∧ (∀ d ∈ declarations, d.Clean ∧ Hides [';'] d) ∧
      ∀ opener ∈ AtKind.openers, ¬ opener.1 <+: Text.join ',' selectors
  | block _ _ (.atRule kind header) _ _ =>
    header.Clean ∧ ∃ opener ∈ AtKind.openers, opener.2 = kind ∧ opener.1 <+: header
  | importStatement .. | block _ _ .sheet _ _ => False

instance : (n : Node) → Decidable n.Clean
  | rule _ _ selectors declarations => inferInstanceAs (Decidable
      ((∀ s ∈ selectors, s.Clean ∧ Hides [','] s) ∧ (∀ d ∈ declarations, d.Clean ∧ Hides [';'] d) ∧
        ∀ opener ∈ AtKind.openers, ¬ opener.1 <+: Text.join ',' selectors))
  | block _ _ (.atRule kind header) _ _ => inferInstanceAs (Decidable
      (header.Clean ∧ ∃ opener ∈ AtKind.openers, opener.2 = kind ∧ opener.1 <+: header))
  | importStatement .. => inferInstanceAs (Decidable False)
  | block _ _ .sheet _ _ => inferInstanceAs (Decidable False)

/-- Whether the tree is a sheet of clean import statements and trees of clean nodes. -/
structure Printable (n : Node) : Prop where
  sheet : n.kind = .root
  children : ∀ c ∈ n.children,
    (∃ line origin s, c = importStatement line origin s ∧ Imports.Clean s) ∨
      ∀ m ∈ c.preorder, m.Clean

/-- A clean node is rereadable. -/
theorem Clean.rereadable {n : Node} (h : n.Clean) : n.Rereadable := by
  cases n with
  | rule line origin selectors declarations =>
    obtain ⟨hs, hd, hopen⟩ := h
    exact ⟨AtKind.ofHeader?_eq_none_iff.mpr hopen, fun s hmem => (hs s hmem).1.inert,
      fun d hmem => (hd d hmem).1.inert⟩
  | importStatement line origin statement => exact h.elim
  | block line origin head reduced children =>
    cases head with
    | sheet => exact h.elim
    | atRule kind header => exact h.1.inert

/-- A tree of clean nodes is legible. -/
theorem legible_of_clean (n : Node) : (∀ m ∈ n.preorder, m.Clean) → n.Within Word.Legible := by
  induction n using Node.ind with
  | rule line origin selectors declarations =>
    rw [preorder, List.forall_mem_singleton, within_rule_iff]
    rintro ⟨hs, hd, -⟩
    exact ⟨fun s hmem => ⟨(hs s hmem).1.item (hs s hmem).2, (hs s hmem).1.neat⟩,
      fun d hmem => ⟨(hd d hmem).1.item (hd d hmem).2, (hd d hmem).1.neat⟩⟩
  | importStatement line origin statement =>
    rw [preorder, List.forall_mem_singleton]
    exact fun h => h.elim
  | block line origin head reduced children ih =>
    rw [forall_mem_preorder_block, within_block_iff]
    rintro ⟨hhead, hchildren⟩
    refine ⟨?_, fun c hc => ih c hc (hchildren c hc)⟩
    cases head with
    | sheet => exact hhead.elim
    | atRule kind header =>
      obtain ⟨hclean, opener, hmem, rfl, hpre⟩ := hhead
      exact ⟨opener.2, header, rfl, AtKind.ofHeader?_of_opener hmem hpre, hclean.tidied, hclean.neat⟩

namespace Printable

variable {n : Node}

/-- The children of a printable tree may stand in a compiled sheet. -/
theorem settled (h : n.Printable) : ∀ c ∈ n.children, c.Settled := by
  intro c hc
  rcases h.children c hc with ⟨line, origin, s, rfl, hs⟩ | hclean
  · exact .inr ⟨line, origin, s, rfl, wellFormed_of_clean hs⟩
  · exact .inl (legible_of_clean c hclean)

/-- Whatever stands below a printable tree is read back as it is. -/
theorem rereadable (h : n.Printable) : ∀ c ∈ n.children, ∀ m ∈ c.preorder, m.Rereadable := by
  intro c hc m hm
  rcases h.children c hc with ⟨line, origin, s, rfl, -⟩ | hclean
  · rw [preorder, List.mem_singleton] at hm
    subst hm
    trivial
  · exact (hclean m hm).rereadable

end Printable

/-- Only sheets are of the kind of a sheet. -/
theorem sheet_of_kind {n : Node} (h : n.kind = .root) :
    ∃ line origin reduced cs, n = block line origin .sheet reduced cs := by
  rcases n with _ | _ | ⟨line, origin, _ | ⟨k, header⟩, reduced, cs⟩
  · exact absurd h (by simp [kind])
  · exact absurd h (by simp [kind])
  · exact ⟨line, origin, reduced, cs, rfl⟩
  · cases k <;> exact absurd h (by simp [kind, AtKind.toKind])

/-- The printed form of a printable tree is read back as the tree, import statements last. -/
theorem parse_print_of_printable {n : Node} {layout : Layout} (h : n.Printable)
    (hcolor : layout.color = false) :
    ∃ t, parse (n.print layout) = .ok t ∧ t.shape = n.importsLast.shape := by
  obtain ⟨line, origin, reduced, cs, rfl⟩ := sheet_of_kind h.sheet
  -- neither line nor origin of the sheet is printed, so it may be taken for one that was compiled
  obtain ⟨t, hparse, hshape⟩ := (parse_print_iff hcolor reduced h.settled).mpr
    (forall_mem_preorder_block.mpr ⟨trivial, h.rereadable⟩)
  refine ⟨t, hparse, hshape.trans ?_⟩
  rw [shape_importsLast, shape_importsLast]
  rfl

/-- An import statement between an at-rule and rules, one without declarations and one without
selectors, with a mark, a brace and a semicolon in literals. -/
def scatteredImports : Node :=
  block 7 [3] .sheet 2
    [block 1 [] (.atRule .keyframes "@-o-keyframes '\x7b'".toList) 4
      [rule 2 [1] ["from".toList, "[t='/*']".toList] [],
       rule 2 [] [] ["x: ';'".toList, "y:1".toList]],
     importStatement 5 [] "@import 'a;b';".toList,
     rule 6 [] [".a".toList] ["z:2".toList]]

/-- The tree with its import in the midst is printable, and read back with the import behind the
others. -/
theorem parse_print_scatteredImports : scatteredImports.Printable ∧ Layout.pretty.color = false ∧
    ∃ t, parse (scatteredImports.print .pretty) = .ok t ∧
      t.shape = scatteredImports.importsLast.shape := by
  have hclean : ∀ c ∈ scatteredImports.children, c.isImport = false → ∀ m ∈ c.preorder, m.Clean := by
    decide +kernel
  have h : scatteredImports.Printable := by
    refine ⟨rfl, fun c hc => ?_⟩
    cases hi : c.isImport with
    | false => exact .inr (hclean c hc hi)
    | true =>
      refine .inl ⟨5, [], "@import 'a;b';".toList, ?_, " 'a;b'".toList, rfl, by decide, by decide,
        by decide, by decide⟩
      simp only [scatteredImports, children, List.mem_cons, List.not_mem_nil, or_false] at hc
      rcases hc with rfl | rfl | rfl
      · exact absurd hi (by decide)
      · rfl
      · exact absurd hi (by decide)
  exact ⟨h, rfl, parse_print_of_printable h rfl⟩

end Node

end StyleFold
