/-
  Tally — what is counted over a tree, and that the merge passes keep it.

  Style, words, statements and facts are all lists that are gathered from a tree, and both passes change
  the tree in the same two ways: siblings of one sort become one node, and the outcome is sorted.  What
  a gathered list has to satisfy so that neither shows is said once, and proved for both passes once.

  1. **Paths** — the at-rules around a node.
  2. **Tallies** — a *tally* says what a rule, an import statement and the head of a block contribute at
     a path; `Tally.of` lists the contributions of a tree, `Tally.all` those of siblings.
  3. **Comparisons** — lists are compared by a relation that permutations respect and that goes along
     with concatenation: being permutations of each other, or having the same elements.
  4. **Fair tallies** — those that do not tell whether rules of equal selectors, or rules of equal
     declarations, are one or several, and to which one head counts as much as the same head twice.
  5. **The passes** keep every fair tally: merging by content of any siblings, merging by header of
     siblings whose selectors are items, so that the joined selectors tell the selectors.
-/
import Mathlib.Data.List.Perm.Basic
import StyleFold.Proofs.Merge.Classes
import StyleFold.Proofs.Text.Items

namespace StyleFold

/-! ## Paths

  The at-rules from the outside in; the sheet adds nothing. -/

/-- At-rules one inside the other, the outermost first. -/
abbrev Path := List (AtKind × Text)

/-- The path of what a block with this head holds. -/
def Head.extend (path : Path) : Head → Path
  | sheet => path
  | atRule kind header => path ++ [(kind, header)]

/-! ## Tallies

  A tally is given by three functions, for rules, imports and heads; the rest is the recursion over the
  tree. -/

/-- What the nodes of a tree contribute to a list. -/
structure Tally (β : Type) where
  ofRule : Path → List Text → List Text → List β
  ofImport : Path → Text → List β
  ofHead : Path → Head → List β

namespace Tally

variable {β : Type}

mutual

/-- The contributions of a node at a path, and of all below it. -/
def of (τ : Tally β) (path : Path) : Node → List β
  | .rule _ _ selectors declarations => τ.ofRule path selectors declarations
  | .importStatement _ _ statement => τ.ofImport path statement
  | .block _ _ head _ children => τ.ofHead path head ++ τ.all (head.extend path) children

/-- The contributions of siblings. -/
def all (τ : Tally β) (path : Path) : List Node → List β
  | [] => []
  | n :: ns => τ.of path n ++ τ.all path ns

end

variable {τ : Tally β} {path : Path} {R : List β → List β → Prop}

/-- What is counted of a rule. -/
theorem of_rule (line : Nat) (origin : List Nat) (selectors declarations : List Text) :
    τ.of path (.rule line origin selectors declarations) = τ.ofRule path selectors declarations := by
  rw [of]

/-- What is counted of a block: its head, and what it holds below its path. -/
theorem of_block (line : Nat) (origin : List Nat) (head : Head) (reduced : Nat)
    (children : List Node) : τ.of path (.block line origin head reduced children) =
      τ.ofHead path head ++ τ.all (head.extend path) children := by
  rw [of]

/-- What is counted of siblings, one after another. -/
theorem all_eq_flatMap (τ : Tally β) (path : Path) : ∀ ns, τ.all path ns = ns.flatMap (τ.of path)
  | [] => by rw [all]; rfl
  | n :: ns => by rw [all, all_eq_flatMap τ path ns, List.flatMap_cons]

theorem all_append (ms ns : List Node) : τ.all path (ms ++ ns) = τ.all path ms ++ τ.all path ns := by
  simp only [all_eq_flatMap, List.flatMap_append]

/-- Up to order, the order of siblings does not matter. -/
theorem all_perm {ms ns : List Node} (h : ms.Perm ns) : (τ.all path ms).Perm (τ.all path ns) := by
  rw [all_eq_flatMap, all_eq_flatMap]
  exact h.flatMap_right _

/-- What is counted of siblings is counted of one of them. -/
theorem mem_all {x : β} {ns : List Node} : x ∈ τ.all path ns ↔ ∃ n ∈ ns, x ∈ τ.of path n := by
  rw [all_eq_flatMap, List.mem_flatMap]

/-- A node counts whatever its origin is. -/
theorem of_withOrigin (origin : List Nat) (n : Node) : τ.of path (n.withOrigin origin) = τ.of path n := by
  cases n <;> rw [Node.withOrigin, of, of]

/-! ## Comparisons

  Some lists are compared with their numbers and others as sets; the proofs about the passes are the
  same. -/

/-- Lists of the same elements, however often each occurs. -/
def SameElements (a b : List β) : Prop := ∀ x, x ∈ a ↔ x ∈ b

/-- A relation by which tallies can be compared. -/
structure Comparison (R : List β → List β → Prop) : Prop where
  of_perm : ∀ {a b : List β}, a.Perm b → R a b
  trans : ∀ {a b c : List β}, R a b → R b c → R a c
  append : ∀ {a a' b b' : List β}, R a a' → R b b' → R (a ++ b) (a' ++ b')

/-- Lists may be compared up to order. -/
theorem comparison_perm : Comparison (List.Perm (α := β)) :=
  ⟨fun h => h, fun h h' => h.trans h', fun h h' => h.append h'⟩

/-- They may be compared as sets. -/
theorem comparison_sameElements : Comparison (SameElements (β := β)) where
  of_perm h := fun _ => h.mem_iff
  trans h h' := fun x => (h x).trans (h' x)
  append h h' := fun x => by rw [List.mem_append, List.mem_append, h x, h' x]

namespace Comparison

theorem refl (hR : Comparison R) (a : List β) : R a a := hR.of_perm (List.Perm.refl a)

/-- If what is counted of each element compares, so does what is counted of all. -/
theorem flatMap {α : Type} (hR : Comparison R) {f g : α → List β} : ∀ {l : List α},
    (∀ a ∈ l, R (f a) (g a)) → R (l.flatMap f) (l.flatMap g)
  | [], _ => hR.refl []
  | a :: l, h => by
    rw [List.flatMap_cons, List.flatMap_cons]
    exact hR.append (h a List.mem_cons_self)
      (hR.flatMap fun b hb => h b (List.mem_cons_of_mem a hb))

end Comparison

/-! ## Fair tallies

  What a fold does to a class is to join the declarations, the selectors or the children of its members
  under one head. -/

/-- A tally to which merging makes no difference. -/
structure Fair (τ : Tally β) (R : List β → List β → Prop) : Prop where
  rule_perm : ∀ {path : Path} {ss ss' ds ds' : List Text}, ss.Perm ss' → ds.Perm ds' →
    R (τ.ofRule path ss ds) (τ.ofRule path ss' ds')
  rule_declarations : ∀ (path : Path) (ss ds ds' : List Text),
    R (τ.ofRule path ss (ds ++ ds')) (τ.ofRule path ss ds ++ τ.ofRule path ss ds')
  rule_selectors : ∀ (path : Path) (ss ss' ds : List Text),
    R (τ.ofRule path (ss ++ ss') ds) (τ.ofRule path ss ds ++ τ.ofRule path ss' ds)
  head_twice : ∀ (path : Path) (head : Head),
    R (τ.ofHead path head) (τ.ofHead path head ++ τ.ofHead path head)

namespace Fair

variable {α : Type} {selectors declarations : α → List Text}

/-- Rules of equal selectors count as one rule of all their declarations. -/
theorem rule_flatMap_declarations (hR : Comparison R) (hτ : τ.Fair R) {ss : List Text} :
    ∀ {a : α} {l : List α}, (∀ b ∈ a :: l, ss.Perm (selectors b)) →
      R (τ.ofRule path ss ((a :: l).flatMap declarations))
        ((a :: l).flatMap fun b => τ.ofRule path (selectors b) (declarations b))
  | a, [], h => by
    rw [List.flatMap_singleton, List.flatMap_singleton]
    exact hτ.rule_perm (h a List.mem_cons_self) (List.Perm.refl _)
  | a, b :: l, h => by
    rw [List.flatMap_cons, List.flatMap_cons]
    exact hR.trans (hτ.rule_declarations path ss _ _) <|
      hR.append (hτ.rule_perm (h a List.mem_cons_self) (List.Perm.refl _))
        (rule_flatMap_declarations hR hτ fun c hc => h c (List.mem_cons_of_mem a hc))

/-- Rules of equal declarations count as one rule of all their selectors. -/
theorem rule_flatMap_selectors (hR : Comparison R) (hτ : τ.Fair R) {ds : List Text} :
    ∀ {a : α} {l : List α}, (∀ b ∈ a :: l, ds.Perm (declarations b)) →
      R (τ.ofRule path ((a :: l).flatMap selectors) ds)
        ((a :: l).flatMap fun b => τ.ofRule path (selectors b) (declarations b))
  | a, [], h => by
    rw [List.flatMap_singleton, List.flatMap_singleton]
    exact hτ.rule_perm (List.Perm.refl _) (h a List.mem_cons_self)
  | a, b :: l, h => by
    rw [List.flatMap_cons, List.flatMap_cons]
    exact hR.trans (hτ.rule_selectors path _ _ ds) <|
      hR.append (hτ.rule_perm (List.Perm.refl _) (h a List.mem_cons_self))
        (rule_flatMap_selectors hR hτ fun c hc => h c (List.mem_cons_of_mem a hc))

/-- Blocks of one head count as one block around all that they hold. -/
theorem head_flatMap (hR : Comparison R) (hτ : τ.Fair R) {head : Head} {children : α → List Node} :
    ∀ {a : α} {l : List α},
      R (τ.ofHead path head ++ τ.all (head.extend path) ((a :: l).flatMap children))
        ((a :: l).flatMap fun b => τ.ofHead path head ++ τ.all (head.extend path) (children b))
  | a, [] => by
    rw [List.flatMap_singleton, List.flatMap_singleton]
    exact hR.refl _
  | a, b :: l => by
    show R (τ.ofHead path head ++
        τ.all (head.extend path) (children a ++ (b :: l).flatMap children))
      ((τ.ofHead path head ++ τ.all (head.extend path) (children a)) ++ (b :: l).flatMap _)
    rw [all_append]
    have ih : R (τ.ofHead path head ++ τ.all (head.extend path) ((b :: l).flatMap children)) _ :=
      head_flatMap hR hτ
    -- the head is taken twice, and one of the two goes to the others
    have htwice := hR.append (hτ.head_twice path head)
      (hR.refl (τ.all (head.extend path) (children a) ++
        τ.all (head.extend path) ((b :: l).flatMap children)))
    refine hR.trans htwice (hR.trans (hR.of_perm ?_) (hR.append (hR.refl _) ih))
    rw [List.append_assoc, List.append_assoc]
    refine List.Perm.append_left _ ?_
    rw [← List.append_assoc, ← List.append_assoc]
    exact List.Perm.append_right _ List.perm_append_comm

end Fair

/-! ## Words

  The finest of all tallies: every selector, declaration, statement and head with its path. -/

end Tally

/-- A text of a tree, with the part it plays. -/
inductive Word
  | selector (t : Text)
  | declaration (t : Text)
  | statement (t : Text)
  | head (h : Head)
  deriving DecidableEq, Inhabited

namespace Tally

/-- All words with the paths at which they stand. -/
def words : Tally (Path × Word) where
  ofRule path selectors declarations :=
    selectors.map (fun s => (path, .selector s)) ++ declarations.map fun d => (path, .declaration d)
  ofImport path statement := [(path, .statement statement)]
  ofHead path head := [(path, .head head)]

/-- Words may be compared as sets: neither order nor repeats matter to them. -/
theorem fair_words : words.Fair SameElements where
  rule_perm hs hd := fun x => by
    simp only [words, List.mem_append, List.mem_map, hs.mem_iff, hd.mem_iff]
  rule_declarations path ss ds ds' := fun x => by
    simp only [words, List.map_append, List.mem_append]
    grind
  rule_selectors path ss ss' ds := fun x => by
    simp only [words, List.map_append, List.mem_append]
    grind
  head_twice path head := fun x => by simp [words]

end Tally

/-! ## The passes

  Along the induction of each pass, class by class. -/

namespace Sibling

/-- Siblings cut in two by a property, one part after the other. -/
theorem cut_perm (p : Sibling → Bool) (siblings : List Node) :
    (((all siblings).filter p).map Prod.fst ++
      ((all siblings).filter fun m => !p m).map Prod.fst).Perm siblings := by
  have h := (List.filter_append_perm p (all siblings)).map Prod.fst
  rwa [List.map_append, map_fst_all] at h

end Sibling

namespace Tally

variable {β : Type} {τ : Tally β} {path : Path} {R : List β → List β → Prop}

/-- What is counted of numbered siblings. -/
theorem all_map_fst (ms : List Sibling) :
    τ.all path (ms.map Prod.fst) = ms.flatMap fun m => τ.of path m.1 := by
  rw [all_eq_flatMap, List.flatMap_map]

/-- Classes in place of their members: if each counts as its members, they count as the siblings. -/
theorem all_classes {κ : Type} [DecidableEq κ] (hR : Comparison R) {key : Sibling → κ}
    {ms : List Sibling} {fold : Group Sibling → Node}
    (hfold : ∀ g ∈ Group.groups key ms,
      R (τ.of path (fold g)) (g.members.flatMap fun m => τ.of path m.1)) :
    R (τ.all path ((Group.groups key ms).map fold)) (τ.all path (ms.map Prod.fst)) := by
  rw [all_eq_flatMap, List.flatMap_map, all_map_fst]
  refine hR.trans (hR.flatMap hfold) (hR.of_perm ?_)
  rw [← List.flatMap_assoc]
  exact (Group.flatMap_members_perm key ms).flatMap_right _

end Tally

/-- Whether the word, if it is a selector, is one item. -/
def Word.Selective : Word → Prop
  | selector t => Text.Item ',' t
  | declaration _ | statement _ | head _ => True

namespace Node

variable {n : Node} {line reduced : Nat} {origin : List Nat} {head : Head}
  {selectors declarations : List Text} {children : List Node}

/-- Only a rule has the header key of a rule. -/
theorem rule_of_headerKey (h : n.headerKey = (rule line origin selectors declarations).headerKey) :
    ∃ line' origin' selectors' declarations',
      n = rule line' origin' selectors' declarations' ∧
        Text.join ',' (Text.sort selectors') = Text.join ',' (Text.sort selectors) := by
  cases n with
  | rule line' origin' selectors' declarations' =>
    exact ⟨line', origin', selectors', declarations', rfl, congrArg Prod.snd h⟩
  | importStatement line' origin' statement =>
    exact absurd (congrArg Prod.fst h) (by simp [headerKey, kind])
  | block line' origin' head' reduced' children' =>
    have hkind := congrArg Prod.fst h
    rcases head' with _ | ⟨k, _⟩
    · exact absurd hkind (by simp [headerKey, kind])
    · cases k <;> exact absurd hkind (by simp [headerKey, kind, AtKind.toKind])

/-- Only a block of the same head has the header key of a block. -/
theorem block_of_headerKey (h : n.headerKey = (block line origin head reduced children).headerKey) :
    ∃ line' origin' reduced' children', n = block line' origin' head reduced' children' := by
  have hkind := congrArg Prod.fst h
  have htext := congrArg Prod.snd h
  rw [fst_headerKey, fst_headerKey] at hkind
  cases n with
  | rule line' origin' selectors' declarations' =>
    rcases head with _ | ⟨k, _⟩
    · exact absurd hkind (by simp [kind])
    · cases k <;> exact absurd hkind (by simp [kind, AtKind.toKind])
  | importStatement line' origin' statement =>
    rcases head with _ | ⟨k, _⟩
    · exact absurd hkind (by simp [kind])
    · cases k <;> exact absurd hkind (by simp [kind, AtKind.toKind])
  | block line' origin' head' reduced' children' =>
    refine ⟨line', origin', reduced', children', ?_⟩
    rcases head with _ | ⟨k, header⟩
    · rcases head' with _ | ⟨k', _⟩
      · rfl
      · cases k' <;> exact absurd hkind (by simp [kind, AtKind.toKind])
    · rcases head' with _ | ⟨k', header'⟩
      · cases k <;> exact absurd hkind (by simp [kind, AtKind.toKind])
      · obtain rfl : k' = k := AtKind.toKind_injective hkind
        obtain rfl : header' = header := htext
        rfl

/-- A tree counts as before around what the pass made of its children, if that counts as they do. -/
theorem tally_afterPass {β : Type} {τ : Tally β} {R : List β → List β → Prop}
    (hR : Tally.Comparison R) {tree : Node} {p : Pass}
    (h : ∀ path, R (τ.all path p.children) (τ.all path tree.children)) (path : Path) :
    R (τ.of path (tree.afterPass p)) (τ.of path tree) := by
  cases tree with
  | rule line origin selectors declarations =>
    show R (τ.of path ((rule line origin selectors declarations).withOrigin [])) _
    rw [Tally.of_withOrigin]
    exact hR.refl _
  | importStatement line origin statement =>
    show R (τ.of path ((importStatement line origin statement).withOrigin [])) _
    rw [Tally.of_withOrigin]
    exact hR.refl _
  | block line origin head reduced children =>
    show R (τ.of path (.block line [] head p.reduced p.children)) _
    rw [Tally.of_block, Tally.of_block]
    exact hR.append (hR.refl _) (h _)

/-- Selectors can be told from their sorted list when it is joined: an item has no delimiter to cut at. -/
theorem selectors_perm_of_join {ss ts : List Text} (hss : ∀ s ∈ ss, Text.Item ',' s)
    (hts : ∀ t ∈ ts, Text.Item ',' t)
    (h : Text.join ',' (Text.sort ss) = Text.join ',' (Text.sort ts)) : ss.Perm ts := by
  have hs : (Text.sort ss).Perm ss := Text.sortOn_perm id ss
  have ht : (Text.sort ts).Perm ts := Text.sortOn_perm id ts
  have hsort : Text.sort ss = Text.sort ts :=
    Text.join_injective (by decide) (by decide) (fun s hmem => hss s (hs.mem_iff.mp hmem))
      (fun t hmem => hts t (ht.mem_iff.mp hmem)) h
  exact hs.symm.trans (hsort ▸ ht)

end Node

section

variable {β : Type} {τ : Tally β} {R : List β → List β → Prop} {siblings : List Node}
  {g : Group Sibling} {path : Path}

namespace SameHeader

/-- Rules hold nothing, so their union is empty. -/
theorem union_of_rule {line : Nat} {origin : List Nat} {selectors declarations : List Text}
    (hfirst : g.first.1 = .rule line origin selectors declarations)
    (hkey : ∀ m ∈ g.members, m.1.headerKey = g.first.1.headerKey) : union g = [] := by
  refine List.flatMap_eq_nil_iff.mpr fun m hm => ?_
  obtain ⟨l, o, ss, ds, hrule, -⟩ := Node.rule_of_headerKey (hfirst ▸ hkey m hm)
  rw [hrule]
  rfl

/-- A class of rules counts as its members: their selectors are the same up to order. -/
theorem tally_fold_rule (hR : Tally.Comparison R) (hτ : τ.Fair R) {inner : Pass} {line : Nat}
    {origin : List Nat} {selectors declarations : List Text}
    (hfirst : g.first.1 = .rule line origin selectors declarations)
    (hkey : ∀ m ∈ g.members, m.1.headerKey = g.first.1.headerKey)
    (hwords : ∀ m ∈ g.members, ∀ x ∈ Tally.words.of path m.1, x.2.Selective) :
    R (τ.of path (fold g inner)) (g.members.flatMap fun m => τ.of path m.1) := by
  have hitems : ∀ m ∈ g.members, ∀ s ∈ m.1.selectors, Text.Item ',' s := by
    intro m hm s hs
    obtain ⟨l, o, ss, ds, hrule, -⟩ := Node.rule_of_headerKey (hfirst ▸ hkey m hm)
    rw [hrule] at hs
    refine hwords m hm (path, .selector s) ?_
    rw [hrule, Tally.of_rule]
    exact List.mem_append_left _ (List.mem_map.mpr ⟨s, hs, rfl⟩)
  have hmember : ∀ m ∈ g.members, (Text.sort selectors).Perm m.1.selectors ∧
      τ.of path m.1 = τ.ofRule path m.1.selectors m.1.declarations := by
    intro m hm
    obtain ⟨l, o, ss, ds, hrule, hjoin⟩ := Node.rule_of_headerKey (hfirst ▸ hkey m hm)
    have hss := hitems m hm
    have hts := hitems g.first List.mem_cons_self
    rw [hrule] at hss ⊢
    rw [hfirst] at hts
    -- the key joins the sorted selectors, and items can be told from the joined text
    refine ⟨(Text.sortOn_perm id selectors).trans ?_, Tally.of_rule _ _ _ _⟩
    exact (Node.selectors_perm_of_join hss hts hjoin).symm
  have hfold : τ.of path (fold g inner) = τ.ofRule path (Text.sort selectors)
      (g.members.flatMap fun m => m.1.declarations) := by
    rw [fold, hfirst, Tally.of_rule]
  rw [hfold]
  refine hR.trans (hτ.rule_flatMap_declarations hR fun m hm => (hmember m hm).1) ?_
  refine hR.flatMap fun m hm => ?_
  rw [(hmember m hm).2]
  exact hR.refl _

/-- A class of blocks counts as its members, if the merge of their children counts as the children. -/
theorem tally_fold_block (hR : Tally.Comparison R) (hτ : τ.Fair R) {inner : Pass}
    {line reduced : Nat} {origin : List Nat} {head : Head} {children : List Node}
    (hfirst : g.first.1 = .block line origin head reduced children)
    (hkey : ∀ m ∈ g.members, m.1.headerKey = g.first.1.headerKey)
    (hwords : ∀ m ∈ g.members, ∀ x ∈ Tally.words.of path m.1, x.2.Selective)
    (hinner : (∀ x ∈ Tally.words.all (head.extend path) (union g), x.2.Selective) →
      R (τ.all (head.extend path) inner.children) (τ.all (head.extend path) (union g))) :
    R (τ.of path (fold g inner)) (g.members.flatMap fun m => τ.of path m.1) := by
  have hmember : ∀ m ∈ g.members, τ.of path m.1 =
      τ.ofHead path head ++ τ.all (head.extend path) m.1.children := by
    intro m hm
    obtain ⟨l, o, r, cs, hblock⟩ := Node.block_of_headerKey (hfirst ▸ hkey m hm)
    rw [hblock]
    exact Tally.of_block l o head r cs
  have hfold : τ.of path (fold g inner) =
      τ.ofHead path head ++ τ.all (head.extend path) inner.children := by
    rw [fold, hfirst]
    exact Tally.of_block _ _ _ _ _
  have hunion : ∀ x ∈ Tally.words.all (head.extend path) (union g), x.2.Selective := by
    intro x hx
    obtain ⟨child, hchild, hx⟩ := Tally.mem_all.mp hx
    obtain ⟨m, hm, hchild⟩ := List.mem_flatMap.mp hchild
    obtain ⟨l, o, r, cs, hblock⟩ := Node.block_of_headerKey (hfirst ▸ hkey m hm)
    refine hwords m hm x ?_
    rw [hblock] at hchild ⊢
    rw [Tally.of_block]
    exact List.mem_append_right _ (Tally.mem_all.mpr ⟨child, hchild, hx⟩)
  rw [hfold]
  -- the union has all children, and the head of each member counts as the one head
  refine hR.trans (hR.append (hR.refl _) (hinner hunion)) (hR.trans (hτ.head_flatMap hR) ?_)
  refine hR.flatMap fun m hm => ?_
  rw [hmember m hm]
  exact hR.refl _

/-- A class counts as its members, if the merge of their children counts as the children. -/
theorem tally_fold (hR : Tally.Comparison R) (hτ : τ.Fair R) (hg : g ∈ classes siblings)
    {inner : Pass} (hsel : ∀ x ∈ Tally.words.all path siblings, x.2.Selective)
    (hinner : ∀ head, (∀ x ∈ Tally.words.all (Head.extend path head) (union g), x.2.Selective) →
      R (τ.all (head.extend path) inner.children) (τ.all (head.extend path) (union g))) :
    R (τ.of path (fold g inner)) (g.members.flatMap fun m => τ.of path m.1) := by
  have hkey : ∀ m ∈ g.members, m.1.headerKey = g.first.1.headerKey := fun m hm =>
    Group.key_eq hg hm
  have hwords : ∀ m ∈ g.members, ∀ x ∈ Tally.words.of path m.1, x.2.Selective := fun m hm x hx =>
    hsel x (Tally.mem_all.mpr ⟨m.1, Sibling.mem_of_mem_all (mem_all_of_mem_members hg hm), hx⟩)
  cases hfirst : g.first.1 with
  | importStatement line origin statement =>
    have := isImport_of_mem_members hg (List.mem_cons_self (a := g.first))
    rw [hfirst] at this
    exact absurd this (by simp [Node.isImport])
  | rule line origin selectors declarations => exact tally_fold_rule hR hτ hfirst hkey hwords
  | block line origin head reduced children =>
    exact tally_fold_block hR hτ hfirst hkey hwords (hinner head)

/-- Merging by header keeps every fair tally of siblings whose selectors are items. -/
theorem tally_pass (hR : Tally.Comparison R) (hτ : τ.Fair R) (siblings : List Node) :
    ∀ path, (∀ x ∈ Tally.words.all path siblings, x.2.Selective) →
      R (τ.all path (pass siblings).children) (τ.all path siblings) := by
  induction siblings using union_ind with
  | step siblings ih =>
    intro path hsel
    have himports : τ.all path (Sibling.imports siblings) =
        τ.all path (((Sibling.all siblings).filter fun m => m.1.isImport).map Prod.fst) := by
      rw [Sibling.imports, Tally.all_map_fst, Tally.all_eq_flatMap, List.flatMap_map]
      simp only [Tally.of_withOrigin]
    have hclasses : R (τ.all path ((classes siblings).map fun g => fold g (pass (union g))))
        (τ.all path (((Sibling.all siblings).filter fun m => !m.1.isImport).map Prod.fst)) :=
      Tally.all_classes hR fun g hg => tally_fold hR hτ hg hsel fun head => ih g hg _
    refine hR.trans (hR.of_perm (Tally.all_perm (pass_children_perm siblings))) ?_
    rw [Tally.all_append, himports]
    refine hR.trans (hR.append (hR.refl _) hclasses) (hR.of_perm ?_)
    rw [← Tally.all_append]
    exact Tally.all_perm (Sibling.cut_perm _ siblings)

end SameHeader

namespace SameContent

/-- A class of rules counts as its members. -/
theorem tally_fold (hR : Tally.Comparison R) (hτ : τ.Fair R) (hg : g ∈ classes siblings) :
    R (τ.of path (fold g)) (g.members.flatMap fun m => τ.of path m.1) := by
  have hkey : ∀ m ∈ g.members, contentKey m.1 = contentKey g.first.1 := fun m hm =>
    Group.key_eq hg hm
  have hcontent : ∀ n : Node, (contentKey n).Perm n.declarations := fun n =>
    (List.reverse_perm _).trans (Text.sortOn_perm id n.declarations)
  have hrule : ∀ m ∈ g.members, τ.of path m.1 = τ.ofRule path m.1.selectors m.1.declarations := by
    intro m hm
    have hk := kind_of_mem_members hg hm
    cases hn : m.1 with
    | rule line origin selectors declarations => exact Tally.of_rule _ _ _ _
    | importStatement line origin statement =>
      rw [hn] at hk
      exact absurd hk (by simp [Node.kind])
    | block line origin head reduced children =>
      rw [hn] at hk
      exact absurd hk (Node.kind_block_ne_rule line origin head reduced children)
  rw [fold, Tally.of_rule]
  refine hR.trans (hτ.rule_perm (Text.sortOn_perm id _) (List.Perm.refl _)) ?_
  -- Equal keys are equal sorted declarations: every member declares what the folded rule declares.
  have hdeclarations : ∀ m ∈ g.members, (contentKey g.first.1).Perm m.1.declarations := by
    intro m hm
    exact hkey m hm ▸ hcontent m.1
  refine hR.trans (hτ.rule_flatMap_selectors hR hdeclarations) ?_
  · refine hR.flatMap fun m hm => ?_
    rw [hrule m hm]
    exact hR.refl _

/-- A sibling that is no rule counts as before, if the merge of its children counts as they do. -/
theorem tally_kept (hR : Tally.Comparison R) (path : Path) {f : Node → Pass} {ms : List Sibling}
    (h : ∀ m ∈ ms, ∀ path, R (τ.all path (f m.1).children) (τ.all path m.1.children)) :
    R (τ.all path (ms.filterMap fun m => keep m.2 (f m.1) m.1))
      (τ.all path ((ms.filter fun m => !(m.1.kind == .rule)).map Prod.fst)) := by
  rw [filterMap_keep, Tally.all_eq_flatMap, List.flatMap_map, Tally.all_map_fst]
  refine hR.flatMap fun m hm => ?_
  rw [Tally.of_withOrigin]
  exact Node.tally_afterPass hR (h m (List.mem_filter.mp hm).1) path

/-- Merging by content keeps every fair tally. -/
theorem tally_pass (hR : Tally.Comparison R) (hτ : τ.Fair R) (siblings : List Node) :
    ∀ path, R (τ.all path (pass siblings).children) (τ.all path siblings) := by
  induction siblings using children_ind with
  | step siblings ih =>
    intro path
    have hkept : R (τ.all path
          ((Sibling.all siblings).filterMap fun m => keep m.2 (pass m.1.children) m.1))
        (τ.all path (((Sibling.all siblings).filter fun m => !(m.1.kind == .rule)).map Prod.fst)) :=
      tally_kept (f := fun n => pass n.children) hR path fun m hm =>
        ih m.1 (Sibling.mem_of_mem_all hm)
    have hclasses : R (τ.all path ((classes siblings).map fold))
        (τ.all path (((Sibling.all siblings).filter fun m => m.1.kind == .rule).map Prod.fst)) :=
      Tally.all_classes hR fun g hg => tally_fold hR hτ hg
    refine hR.trans (hR.of_perm (Tally.all_perm (pass_children_perm siblings))) ?_
    rw [Tally.all_append]
    refine hR.trans (hR.append hkept hclasses) (hR.of_perm ?_)
    rw [← Tally.all_append]
    exact Tally.all_perm (List.perm_append_comm.trans (Sibling.cut_perm _ siblings))

end SameContent

end

end StyleFold
