/-
  Regular — words that tell what they are, and keys of nodes made of them.

  The passes compare texts where the documents speak of kinds, headers and selectors.  For nodes that
  were read from a text the two agree, since the first words of a text tell what was read there.

  1. **Regular words** — selectors are items, and the text of an import statement or a header tells what
     stands there.  Parsed trees have such words, and merging brings in no others.
  2. **Keys** — for regular nodes that are merged or sorted, equal texts mean equal keys
     (`Node.headerKey_of_headerText`), and equal keys equal selectors.
-/
import StyleFold.Proofs.Lookahead.Legible
import StyleFold.Proofs.Merge.Compressed

namespace StyleFold

open Node

/-! ## Regular words

  The property is one of single words, so it is kept by whatever neither makes words nor changes them. -/

/-- Whether the word tells what it is: selectors can be told when they are joined, headers open their
at-rules, and import statements begin with the keyword. -/
def Word.Regular : Word → Prop
  | selector t => Text.Item ',' t
  | declaration _ => True
  | statement t => Imports.keyword <+: t
  | head h => ∃ kind header, h = .atRule kind header ∧ AtKind.ofHeader? header = some kind

/-- What can be read is regular. -/
theorem Word.Legible.regular {w : Word} (h : w.Legible) : w.Regular := by
  cases w with
  | selector t => exact h.1
  | declaration t => trivial
  | statement t => exact h.elim
  | head head =>
    obtain ⟨kind, header, he, hkind, -⟩ := h
    exact ⟨kind, header, he, hkind⟩

/-- A regular selector is a single item. -/
theorem Word.Regular.selective {w : Word} (h : w.Regular) : w.Selective := by
  cases w with
  | selector t => exact h
  | declaration t => trivial
  | statement t => trivial
  | head head => trivial

/-- What holds of all words of a node holds of those of its children. -/
theorem Node.Within.children {P : Word → Prop} {n : Node} (h : n.Within P) :
    ∀ c ∈ n.children, c.Within P := by
  cases n with
  | rule line origin selectors declarations => exact fun c hc => absurd hc List.not_mem_nil
  | importStatement line origin statement => exact fun c hc => absurd hc List.not_mem_nil
  | block line origin head reduced children => exact (within_block_iff.mp h).2

/-- Siblings that have the words of others have words of the same sort. -/
theorem Node.within_of_sameElements {P : Word → Prop} {as bs : List Node}
    (hwords : Tally.SameElements (Tally.words.all [] bs) (Tally.words.all [] as))
    (h : ∀ n ∈ as, n.Within P) : ∀ n ∈ bs, n.Within P := by
  intro n hn
  refine within_of_path [] fun x hx => ?_
  obtain ⟨m, hm, hx⟩ := Tally.mem_all.mp ((hwords x).mp (Tally.mem_all.mpr ⟨n, hn, hx⟩))
  exact h m hm [] x hx

/-- Merging by header brings in no words, if selectors can be told. -/
theorem SameHeader.within_pass {P : Word → Prop} {siblings : List Node}
    (hselective : ∀ n ∈ siblings, n.Within Word.Selective) (h : ∀ n ∈ siblings, n.Within P) :
    ∀ n ∈ (pass siblings).children, n.Within P := by
  have hwords : ∀ x ∈ Tally.words.all [] siblings, x.2.Selective := by
    intro x hx
    obtain ⟨n, hn, hx⟩ := Tally.mem_all.mp hx
    exact hselective n hn [] x hx
  exact within_of_sameElements
    (tally_pass Tally.comparison_sameElements Tally.fair_words siblings [] hwords) h

/-- Merging by content brings in no words. -/
theorem SameContent.within_pass {P : Word → Prop} {siblings : List Node}
    (h : ∀ n ∈ siblings, n.Within P) : ∀ n ∈ (pass siblings).children, n.Within P :=
  within_of_sameElements (tally_pass Tally.comparison_sameElements Tally.fair_words siblings []) h

/-- So are all selectors of a regular tree. -/
theorem Node.Within.selective {n : Node} (h : n.Within Word.Regular) : n.Within Word.Selective :=
  fun path x hx => (h path x hx).selective

/-- What holds of the words of nodes holds of those of their children. -/
theorem Node.within_flatMap_children {P : Word → Prop} {ns : List Node} (h : ∀ n ∈ ns, n.Within P) :
    ∀ c ∈ ns.flatMap children, c.Within P := by
  intro c hc
  obtain ⟨n, hn, hc⟩ := List.mem_flatMap.mp hc
  exact (h n hn).children c hc

/-- What holds of the words of all siblings holds of those of a union. -/
theorem SameHeader.within_union {P : Word → Prop} {siblings : List Node}
    (h : ∀ n ∈ siblings, n.Within P) {g : Group Sibling} (hg : g ∈ classes siblings) :
    ∀ n ∈ union g, n.Within P := by
  rw [union, ← List.flatMap_map]
  refine Node.within_flatMap_children fun n hn => ?_
  obtain ⟨m, hm, rfl⟩ := List.mem_map.mp hn
  exact h m.1 (Sibling.mem_of_mem_all (mem_all_of_mem_members hg hm))

/-- The children of a parsed tree are regular. -/
theorem Node.regular_of_parse {text : Text} {tree : Node} (h : parse text = .ok tree) :
    ∃ cs, tree = .block 0 [] .sheet 0 cs ∧ ∀ n ∈ cs, n.Within Word.Regular := by
  obtain ⟨cs, records, rfl, hcs, hrecords⟩ := legible_of_parse h
  refine ⟨_, rfl, fun n hn => ?_⟩
  rcases List.mem_append.mp hn with hn | hn
  · exact fun path x hx => (hcs n hn path x hx).regular
  · obtain ⟨r, hr, rfl⟩ := List.mem_map.mp hn
    obtain ⟨body, he, -⟩ := hrecords r hr
    exact within_importStatement_iff.mpr (he ▸ List.prefix_append Imports.keyword body)

/-! ## Keys

  From the text of a node back to its kind and to its selectors. -/

namespace Node

variable {n m : Node}

/-- A text that begins with the import keyword opens no at-rule. -/
theorem ofHeader?_of_keyword {t : Text} (h : Imports.keyword <+: t) : AtKind.ofHeader? t = none := by
  have hopeners : ∀ opener ∈ AtKind.openers,
      ¬ opener.1 <+: Imports.keyword ∧ ¬ Imports.keyword <+: opener.1 := by decide
  refine AtKind.ofHeader?_eq_none_iff.mpr fun opener hmem hpre => ?_
  rcases List.prefix_or_prefix_of_prefix hpre h with hle | hle
  · exact (hopeners opener hmem).1 hle
  · exact (hopeners opener hmem).2 hle

/-- The header text of a regular node other than a rule tells its kind. -/
theorem kind_of_headerText (h : n.Within Word.Regular) (hkind : n.kind ≠ .rule) :
    n.kind = (AtKind.ofHeader? n.headerText).elim .importStatement AtKind.toKind := by
  cases n with
  | rule line origin selectors declarations => exact absurd rfl hkind
  | importStatement line origin statement =>
    show Kind.importStatement = (AtKind.ofHeader? statement).elim _ _
    rw [ofHeader?_of_keyword (within_importStatement_iff.mp h)]
    rfl
  | block line origin head reduced children =>
    obtain ⟨kind, header, rfl, hopens⟩ := (within_block_iff.mp h).1
    show kind.toKind = (AtKind.ofHeader? header).elim _ _
    rw [hopens]
    rfl

/-- The key of a rule are its sorted selectors. -/
theorem headerKey_of_rule (h : n.kind = .rule) :
    n.headerKey = (.rule, Text.join ',' (Text.sort n.selectors)) := by
  obtain ⟨line, origin, selectors, declarations, rfl⟩ := exists_rule h
  rfl

/-- The header text of a rule are its selectors in the order they stand. -/
theorem headerText_of_rule (h : n.kind = .rule) : n.headerText = Text.join ',' n.selectors := by
  obtain ⟨line, origin, selectors, declarations, rfl⟩ := exists_rule h
  rfl

/-- Among rules, and among other nodes, the header text tells the header key. -/
theorem headerKey_of_headerText (hn : n.Within Word.Regular) (hm : m.Within Word.Regular)
    (hns : Text.sort n.selectors = n.selectors) (hms : Text.sort m.selectors = m.selectors)
    (hrule : n.kind = .rule ↔ m.kind = .rule) (h : n.headerText = m.headerText) :
    n.headerKey = m.headerKey := by
  by_cases hk : n.kind = .rule
  · rw [headerText_of_rule hk, headerText_of_rule (hrule.mp hk)] at h
    rw [headerKey_of_rule hk, headerKey_of_rule (hrule.mp hk), hns, hms, h]
  · have hk' : m.kind ≠ .rule := fun he => hk (hrule.mpr he)
    refine Prod.ext ?_ ?_
    · rw [fst_headerKey, fst_headerKey, kind_of_headerText hn hk, kind_of_headerText hm hk', h]
    · rw [snd_headerKey hk, snd_headerKey hk', h]

/-- Regular nodes of one key have the same selectors. -/
theorem sort_selectors_of_headerKey (hn : n.Within Word.Regular) (hm : m.Within Word.Regular)
    (h : m.headerKey = n.headerKey) : Text.sort m.selectors = Text.sort n.selectors := by
  by_cases hk : n.kind = .rule
  · obtain ⟨line, origin, selectors, declarations, rfl⟩ := exists_rule hk
    obtain ⟨line', origin', selectors', declarations', rfl, hjoin⟩ := rule_of_headerKey h
    exact Text.sort_eq_of_perm (selectors_perm_of_join (within_rule_iff.mp hm).1
      (within_rule_iff.mp hn).1 hjoin)
  · have hk' : m.kind ≠ .rule := by rwa [← fst_headerKey, h, fst_headerKey]
    rw [(SameContent.nothing_of_kind hk).1, (SameContent.nothing_of_kind hk').1]

end Node

end StyleFold
