/-
  Facts — a compile loses no style and invents none.

  A stylesheet says which declarations hold for which selectors under which conditions, and which other
  sheets it imports.  Merging moves all of this about, puts it into fewer nodes and leaves out headers
  that stood twice; the theorem of this module is that it changes none of it.

  1. **Facts** — what a tree says: for every rule each selector with each declaration, under the at-rules
     around the rule; and its import statements.  Both are counted, with every occurrence.
  2. **Places** — the at-rules of a tree, and the paths at which selectors and declarations stand, whether
     their rule says anything or not.  They are not counted: merging folds equal ones together.
  3. **The same style** — equal facts and statements, and the same places (`SameStyle`).
  4. **The passes** — merging by content keeps the style of every tree, merging by header that of trees
     whose selectors are items.
  5. **Compiles** — parsed selectors are items, so both results of a compile keep the parsed style.
-/
import StyleFold.Compile
import StyleFold.Proofs.Lookahead.Legible

namespace StyleFold

/-! ## Facts

  One fact for each selector and each declaration of a rule, so that a rule with several of both says
  many. -/

namespace Tally

/-- Each selector of a rule with each of its declarations. -/
def facts : Tally (Path × Text × Text) where
  ofRule path selectors declarations :=
    selectors.flatMap fun s => declarations.map fun d => (path, s, d)
  ofImport _ _ := []
  ofHead _ _ := []

/-- The import statements. -/
def statements : Tally Text where
  ofRule _ _ _ := []
  ofImport _ statement := [statement]
  ofHead _ _ := []

/-- Facts may be compared up to order: what a rule says does not depend on the order of its parts. -/
theorem fair_facts : facts.Fair List.Perm where
  rule_perm {path ss ss' ds ds'} hs hd := by
    refine (hs.flatMap_right _).trans (List.Perm.flatMap_left ss' fun s _ => ?_)
    exact hd.map _
  rule_declarations path ss ds ds' := by
    simp only [facts, List.map_append]
    exact (List.flatMap_append_perm ss _ _).symm
  rule_selectors path ss ss' ds := by
    simp only [facts, List.flatMap_append]
    exact List.Perm.refl _
  head_twice path head := List.Perm.refl _

/-- So may the statements of imports. -/
theorem fair_statements : statements.Fair List.Perm where
  rule_perm _ _ := List.Perm.refl _
  rule_declarations _ _ _ _ := List.Perm.refl _
  rule_selectors _ _ _ _ := List.Perm.refl _
  head_twice _ _ := List.Perm.refl _

end Tally

namespace Node

/-- The facts of a tree: path, selector and declaration, one for each pair of occurrences in a rule. -/
def facts (n : Node) : List (Path × Text × Text) := Tally.facts.of [] n

/-- The import statements of a tree. -/
def statements (n : Node) : List Text := Tally.statements.of [] n

/-! ## Places

  A rule without declarations and an empty at-rule say no fact, but have their place in the tree all the
  same. -/

/-- All words of a tree with the paths at which they stand. -/
def words (n : Node) : List (Path × Word) := Tally.words.of [] n

/-- The at-rules of a tree, each with those around it. -/
def atRulePaths (n : Node) : List Path := n.words.filterMap fun
  | (path, .head (.atRule kind header)) => some (path ++ [(kind, header)])
  | _ => none

/-- The selectors of a tree with their paths. -/
def selectorPlaces (n : Node) : List (Path × Text) := n.words.filterMap fun
  | (path, .selector s) => some (path, s)
  | _ => none

/-- The declarations of a tree with their paths. -/
def declarationPlaces (n : Node) : List (Path × Text) := n.words.filterMap fun
  | (path, .declaration d) => some (path, d)
  | _ => none

/-! ## The same style

  What has to be equal, and as what: facts and statements with their numbers, places as sets. -/

/-- Two trees say the same, as often, at the same places. -/
structure SameStyle (a b : Node) : Prop where
  facts : a.facts.Perm b.facts
  statements : a.statements.Perm b.statements
  atRulePaths : ∀ path, path ∈ a.atRulePaths ↔ path ∈ b.atRulePaths
  selectorPlaces : ∀ place, place ∈ a.selectorPlaces ↔ place ∈ b.selectorPlaces
  declarationPlaces : ∀ place, place ∈ a.declarationPlaces ↔ place ∈ b.declarationPlaces

theorem SameStyle.trans {a b c : Node} (hab : SameStyle a b) (hbc : SameStyle b c) :
    SameStyle a c where
  facts := hab.facts.trans hbc.facts
  statements := hab.statements.trans hbc.statements
  atRulePaths path := (hab.atRulePaths path).trans (hbc.atRulePaths path)
  selectorPlaces place := (hab.selectorPlaces place).trans (hbc.selectorPlaces place)
  declarationPlaces place := (hab.declarationPlaces place).trans (hbc.declarationPlaces place)

/-- Places are read off the words. -/
theorem SameStyle.of_words {a b : Node} (hfacts : b.facts.Perm a.facts)
    (hstatements : b.statements.Perm a.statements)
    (hwords : Tally.SameElements b.words a.words) : SameStyle a b := by
  have hread : ∀ {γ : Type} (f : Path × Word → Option γ) (x : γ),
      x ∈ a.words.filterMap f ↔ x ∈ b.words.filterMap f := by
    intro γ f x
    have hwords : ∀ w, w ∈ b.words ↔ w ∈ a.words := hwords
    simp only [List.mem_filterMap, hwords]
  exact ⟨hfacts.symm, hstatements.symm, hread _, hread _, hread _⟩

/-! ## The passes

  Each pass keeps the words of a tree with their paths, which the facts and the places are made of. -/

/-- Merging by content keeps the style of every tree. -/
theorem sameStyle_mergeByContent (tree : Node) : SameStyle tree tree.mergeByContent := by
  have hfacts := fun path =>
    SameContent.tally_pass Tally.comparison_perm Tally.fair_facts tree.children path
  have hstatements := fun path =>
    SameContent.tally_pass Tally.comparison_perm Tally.fair_statements tree.children path
  have hwords := fun path =>
    SameContent.tally_pass Tally.comparison_sameElements Tally.fair_words tree.children path
  exact .of_words (tally_afterPass Tally.comparison_perm hfacts [])
    (tally_afterPass Tally.comparison_perm hstatements [])
    (tally_afterPass Tally.comparison_sameElements hwords [])

/-- Merging by header keeps the style of a tree whose selectors are single items. -/
theorem sameStyle_mergeByHeader {tree : Node}
    (h : ∀ path, ∀ x ∈ Tally.words.all path tree.children, x.2.Selective) :
    SameStyle tree tree.mergeByHeader := by
  have hfacts := fun path =>
    SameHeader.tally_pass Tally.comparison_perm Tally.fair_facts tree.children path (h path)
  have hstatements := fun path =>
    SameHeader.tally_pass Tally.comparison_perm Tally.fair_statements tree.children path (h path)
  have hwords := fun path =>
    SameHeader.tally_pass Tally.comparison_sameElements Tally.fair_words tree.children path (h path)
  exact .of_words (tally_afterPass Tally.comparison_perm hfacts [])
    (tally_afterPass Tally.comparison_perm hstatements [])
    (tally_afterPass Tally.comparison_sameElements hwords [])

/-! ## Compiles

  That selectors are single items holds of every parsed tree; it is what merging by header has to know,
  since it compares joined selectors. -/

/-- All selectors of a parsed tree are items. -/
theorem selective_of_parse {text : Text} {tree : Node} (h : parse text = .ok tree) (path : Path) :
    ∀ x ∈ Tally.words.all path tree.children, x.2.Selective := by
  obtain ⟨cs, records, rfl, hcs, -⟩ := legible_of_parse h
  intro x hx
  obtain ⟨n, hn, hx⟩ := Tally.mem_all.mp hx
  rcases List.mem_append.mp hn with hn | hn
  · have hlegible := hcs n hn path x hx
    rcases x with ⟨place, _ | _ | _ | _⟩
    · exact hlegible.1
    · trivial
    · trivial
    · trivial
  -- a statement is no selector
  · obtain ⟨r, -, rfl⟩ := List.mem_map.mp hn
    rw [ImportRecord.node, Tally.of] at hx
    obtain rfl := List.mem_singleton.mp hx
    trivial

end Node

/-- Both trees that a compile makes of the parsed tree have its style. -/
theorem compile_keeps_style {settings : Settings} {text : Text} {c : Compilation}
    (h : compile settings text = .ok c) :
    c.parsed.SameStyle c.byHeader ∧ c.parsed.SameStyle c.byContent := by
  obtain ⟨parsed, hparse, rfl⟩ := ofTree_of_compile h
  have hheader : parsed.SameStyle parsed.mergeByHeader :=
    Node.sameStyle_mergeByHeader (Node.selective_of_parse hparse)
  exact ⟨hheader, hheader.trans parsed.mergeByHeader.sameStyle_mergeByContent⟩

/-- Rules whose selectors differ in order, one without declarations, and an import statement. -/
def reorderedSelectors : Text :=
  ".b,.a\x7bx:1\x7d@import 'u';.a,.b\x7by:2;x:1\x7d@media p\x7b.c\x7b\x7d\x7d".toList

/-- Two rules whose selectors differ in order only: they are merged, and the style stays. -/
theorem compile_keeps_style_reorderedSelectors : ∃ c, compile {} reorderedSelectors = .ok c ∧
    c.parsed.SameStyle c.byHeader ∧ c.parsed.SameStyle c.byContent := by
  have hok : (compile {} reorderedSelectors).isOk = true := by decide +kernel
  cases hc : compile {} reorderedSelectors with
  | ok c => exact ⟨c, rfl, compile_keeps_style hc⟩
  | error failure =>
    rw [hc] at hok
    exact absurd hok Bool.false_ne_true

end StyleFold
