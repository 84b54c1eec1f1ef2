/-
  Texts — the words of a tree in the order in which they are read, and what is left of a tree without them.

  A literal may occur in any text of a tree, and a theorem about the content of one literal needs to say
  that all the other texts are untouched.  For this a tree is taken apart into its texts in a row, and
  the rest.

  1. **Texts** — the headers, selectors, declarations and statements of a tree, one after another; an entry
     brings in its own (`texts_eq_flatMap`).
  2. **Outlines** — the tree with every text empty and no lines.  Outline and texts are all there is of a
     tree, lines apart (`seen_unlined_iff`).
  3. **Answers** — the texts of the tree that a reading gives are those of its entries and its statements;
     readings of which the entries agree give trees of one outline.
-/
import StyleFold.Proofs.Lookahead.Entries
import StyleFold.Proofs.Merge.Facts

namespace StyleFold

/-! ## Texts

  In the order of the listing, which is that of the source for all but statements. -/

/-- The text of a word; the sheet has none. -/
def Word.text? : Word → Option Text
  | selector t | declaration t | statement t => some t
  | head .sheet => none
  | head (.atRule _ header) => some header

namespace Node

variable {line reduced : Nat} {origin : List Nat} {head : Head} {selectors declarations : List Text}
  {statement : Text} {children : List Node} {a b : Node}

/-- The texts of a tree: its headers, selectors, declarations and statements from first to last. -/
def texts (n : Node) : List Text := n.words.filterMap fun x => x.2.text?

theorem texts_rule :
    (rule line origin selectors declarations).texts = selectors ++ declarations := by
  rw [texts, words, Tally.of_rule]
  simp [Tally.words, List.filterMap_map, Word.text?]

theorem texts_importStatement : (importStatement line origin statement).texts = [statement] := by
  rw [texts, words, Tally.of]
  rfl

/-- Wherever a node stands, its texts are the same. -/
theorem texts_eq_of_path (path : Path) (n : Node) :
    (Tally.words.of path n).filterMap (fun x => x.2.text?) = n.texts := by
  have h := congrArg (List.filterMap Word.text?) (map_snd_words n path [])
  rw [List.filterMap_map, List.filterMap_map] at h
  exact h

/-- The texts of a block: its header, then those of its children. -/
theorem texts_block : (block line origin head reduced children).texts =
    (Word.head head).text?.toList ++ children.flatMap texts := by
  have hhead : (Tally.words.ofHead [] head).filterMap (fun x => x.2.text?) =
      (Word.head head).text?.toList := by cases head <;> rfl
  rw [texts, words, Tally.of_block, List.filterMap_append, Tally.all_eq_flatMap, List.filterMap_flatMap,
    hhead, List.flatMap_congr fun c _ => texts_eq_of_path (head.extend []) c]

end Node

/-- The texts of a block that begins. -/
theorem Blocks.texts_nodeOf (header : Text) (line : Nat) : (nodeOf header line).texts =
    match AtKind.ofHeader? header with
    | some _ => [header]
    | none => Text.items ',' header := by
  unfold nodeOf
  cases AtKind.ofHeader? header with
  | none => exact Node.texts_rule.trans (List.append_nil _)
  | some kind => exact Node.texts_block

/-- The texts that an entry brings in. -/
def Entry.texts : Entry → List Text
  | opened node => node.texts
  | closed declarations => declarations

namespace Node

/-- The texts of a tree are those of its entries. -/
theorem texts_eq_flatMap (n : Node) : n.texts = n.entries.flatMap Entry.texts := by
  induction n using Node.ind with
  | rule line origin selectors declarations =>
    rw [entries, texts_rule]
    simp [Entry.texts, texts_rule]
  | importStatement line origin statement =>
    rw [entries]
    simp [Entry.texts]
  | block line origin head reduced children ih =>
    rw [entries, texts_block, entriesAll_eq_flatMap, List.flatMap_cons, List.flatMap_append,
      List.flatMap_assoc, List.flatMap_congr ih]
    simp [Entry.texts, texts_block]

/-- The texts of siblings are those of their entries. -/
theorem flatMap_texts (ns : List Node) : ns.flatMap texts = (entriesAll ns).flatMap Entry.texts := by
  rw [entriesAll_eq_flatMap, List.flatMap_assoc]
  exact List.flatMap_congr fun n _ => texts_eq_flatMap n

/-- Lines are not among the texts. -/
theorem texts_seen_unlined (n : Node) : (n.seen .unlined).texts = n.texts := by
  induction n using Node.ind with
  | rule line origin selectors declarations =>
    rw [seen_rule, texts_rule, texts_rule]
    exact congr (congrArg _ (List.map_id _)) (List.map_id _)
  | importStatement line origin statement =>
    rw [seen_importStatement, texts_importStatement, texts_importStatement]
  | block line origin head reduced children ih =>
    have hhead : seenHead .unlined head = head := by cases head <;> rfl
    rw [seen_block, texts_block, texts_block, hhead, List.flatMap_map, List.flatMap_congr ih]

/-! ## Outlines

  Two trees of one outline have the same texts in the same places, so a list of texts fills it. -/

end Node

/-- Neither lines nor texts are seen. -/
def View.wordless : View := ⟨fun _ => 0, fun _ => []⟩

namespace Node

mutual

/-- The tree without lines, with every text empty. -/
def outline : Node → Node
  | rule _ origin selectors declarations =>
    rule 0 origin (selectors.map fun _ => []) (declarations.map fun _ => [])
  | importStatement _ origin _ => importStatement 0 origin []
  | block _ origin head reduced children =>
    block 0 origin (seenHead .wordless head) reduced (outlineAll children)

/-- The siblings without lines, with every text empty. -/
def outlineAll : List Node → List Node
  | [] => []
  | n :: ns => n.outline :: outlineAll ns

end

variable {line reduced : Nat} {origin : List Nat} {head : Head} {selectors declarations : List Text}
  {statement : Text} {children ms ns : List Node} {a b : Node}

/-- Siblings are outlined one by one. -/
theorem outlineAll_eq_map : ∀ ns, outlineAll ns = ns.map outline
  | [] => by rw [outlineAll]; rfl
  | n :: ns => by rw [outlineAll, outlineAll_eq_map ns]; rfl

theorem outline_rule : (rule line origin selectors declarations).outline =
    rule 0 origin (selectors.map fun _ => []) (declarations.map fun _ => []) := by rw [outline]

theorem outline_importStatement :
    (importStatement line origin statement).outline = importStatement 0 origin [] := by rw [outline]

theorem outline_block : (block line origin head reduced children).outline =
    block 0 origin (seenHead .wordless head) reduced (children.map outline) := by
  rw [outline, outlineAll_eq_map]

/-- What is seen of a tree has the outline of the tree. -/
theorem outline_seen (w : View) (n : Node) : (n.seen w).outline = n.outline := by
  induction n using Node.ind with
  | rule line origin selectors declarations =>
    rw [seen_rule, outline_rule, outline_rule, List.map_map, List.map_map]
    rfl
  | importStatement line origin statement =>
    rw [seen_importStatement, outline_importStatement, outline_importStatement]
  | block line origin head reduced children ih =>
    have hchildren : (children.map (seen w)).map outline = children.map outline := by
      rw [List.map_map]
      exact List.map_congr_left ih
    rw [seen_block, outline_block, outline_block, hchildren]
    cases head <;> rfl

/-- Siblings that are seen alike have the same outlines. -/
theorem map_outline_of_seen {w : View} (h : ms.map (seen w) = ns.map (seen w)) :
    ms.map outline = ns.map outline := by
  have h := congrArg (List.map outline) h
  simpa only [List.map_map, Function.comp_def, outline_seen] using h

/-- The outline tells how many texts there are. -/
theorem length_texts_outline (n : Node) : n.outline.texts.length = n.texts.length := by
  induction n using Node.ind with
  | rule line origin selectors declarations =>
    rw [outline_rule, texts_rule, texts_rule]
    simp
  | importStatement line origin statement =>
    rw [outline_importStatement, texts_importStatement, texts_importStatement]
    rfl
  | block line origin head reduced children ih =>
    have hhead : (Word.head (seenHead .wordless head)).text?.toList.length =
        (Word.head head).text?.toList.length := by cases head <;> rfl
    have hchildren : (children.map outline).map (fun c => c.texts.length) =
        children.map fun c => c.texts.length := by
      rw [List.map_map]
      exact List.map_congr_left ih
    rw [outline_block, texts_block, texts_block, List.length_append, List.length_append, hhead,
      List.length_flatMap, List.length_flatMap, hchildren]

/-- Trees of one outline have as many texts as each other. -/
theorem length_texts_eq (h : a.outline = b.outline) : a.texts.length = b.texts.length := by
  rw [← length_texts_outline a, h, length_texts_outline b]

/-- Siblings with the same outlines and the same texts, of which each node is told by these. -/
theorem map_seen_of_texts : ∀ {ms ns : List Node},
    (∀ m ∈ ms, ∀ n : Node, m.outline = n.outline → m.texts = n.texts →
      m.seen .unlined = n.seen .unlined) →
    ms.map outline = ns.map outline → ms.flatMap texts = ns.flatMap texts →
      ms.map (seen .unlined) = ns.map (seen .unlined)
  | [], [], _, _, _ => rfl
  | [], _ :: _, _, houtline, _ => absurd houtline (by simp)
  | _ :: _, [], _, houtline, _ => absurd houtline (by simp)
  | m :: ms, n :: ns, h, houtline, htexts => by
    obtain ⟨hfirst, hrest⟩ := List.cons.inj houtline
    rw [List.flatMap_cons, List.flatMap_cons] at htexts
    -- equal outlines have as many texts, so the texts are cut at the same place
    obtain ⟨hm, hms⟩ := List.append_inj htexts (length_texts_eq hfirst)
    rw [List.map_cons, List.map_cons, h m List.mem_cons_self n hfirst hm,
      map_seen_of_texts (fun m' hm' => h m' (List.mem_cons_of_mem m hm')) hrest hms]

/-- The head of a block is told by its outline and the first of the texts. -/
theorem head_of_texts {head head' : Head} {s t : List Text}
    (houtline : seenHead .wordless head = seenHead .wordless head')
    (htexts : (Word.head head).text?.toList ++ s = (Word.head head').text?.toList ++ t) :
    head = head' ∧ s = t := by
  cases head with
  | sheet =>
    cases head' with
    | sheet => exact ⟨rfl, htexts⟩
    | atRule kind' header' => exact absurd houtline (by simp [seenHead])
  | atRule kind header =>
    cases head' with
    | sheet => exact absurd houtline (by simp [seenHead])
    | atRule kind' header' =>
      obtain rfl : kind = kind' := by injection houtline
      obtain ⟨rfl, hrest⟩ := List.cons.inj htexts
      exact ⟨rfl, hrest⟩

/-- Trees with the same outline and the same texts are the same, lines apart. -/
theorem seen_unlined_of_texts (a : Node) : ∀ b : Node, a.outline = b.outline → a.texts = b.texts →
    a.seen .unlined = b.seen .unlined := by
  induction a using Node.ind with
  | rule line origin selectors declarations =>
    intro b houtline htexts
    cases b with
    | rule line' origin' selectors' declarations' =>
      rw [outline_rule, outline_rule] at houtline
      injection houtline with _ horigin hselectors
      -- The texts are the selectors and then the declarations; the outline says where to cut them.
      have hlength : selectors.length = selectors'.length := by
        simpa using congrArg List.length hselectors
      rw [texts_rule, texts_rule] at htexts
      obtain ⟨rfl, rfl⟩ := List.append_inj htexts hlength
      rw [seen_rule, seen_rule, horigin]
      rfl
    | importStatement => exact absurd houtline (by simp [outline_rule, outline_importStatement])
    | block => exact absurd houtline (by simp [outline_rule, outline_block])
  | importStatement line origin statement =>
    intro b houtline htexts
    cases b with
    | rule => exact absurd houtline (by simp [outline_rule, outline_importStatement])
    | importStatement line' origin' statement' =>
      rw [outline_importStatement, outline_importStatement] at houtline
      injection houtline with _ horigin
      rw [texts_importStatement, texts_importStatement] at htexts
      rw [seen_importStatement, seen_importStatement, horigin, List.singleton_inj.mp htexts]
      rfl
    | block => exact absurd houtline (by simp [outline_importStatement, outline_block])
  | block line origin head reduced children ih =>
    intro b houtline htexts
    cases b with
    | rule => exact absurd houtline (by simp [outline_rule, outline_block])
    | importStatement => exact absurd houtline (by simp [outline_importStatement, outline_block])
    | block line' origin' head' reduced' children' =>
      rw [outline_block, outline_block] at houtline
      injection houtline with _ horigin hhead hreduced hchildren
      rw [texts_block, texts_block] at htexts
      -- The header is the first text of the block, the others are those of the children.
      obtain ⟨rfl, hnodes⟩ := head_of_texts hhead htexts
      rw [seen_block, seen_block, horigin, hreduced, map_seen_of_texts ih hchildren hnodes]
      rfl

/-- Outline and texts are all there is of a tree, lines apart. -/
theorem seen_unlined_iff :
    a.seen .unlined = b.seen .unlined ↔ a.outline = b.outline ∧ a.texts = b.texts := by
  constructor
  · intro h
    have houtline := congrArg outline h
    have htexts := congrArg texts h
    rw [outline_seen, outline_seen] at houtline
    rw [texts_seen_unlined, texts_seen_unlined] at htexts
    exact ⟨houtline, htexts⟩
  · rintro ⟨houtline, htexts⟩
    exact seen_unlined_of_texts a b houtline htexts

end Node

/-! ## Answers

  Texts and outline of the tree that a reading gives, without building the tree. -/

/-- Lines are not among the texts of an entry. -/
theorem Entry.texts_seen_unlined : ∀ e : Entry, (e.seen .unlined).texts = e.texts
  | opened node => node.texts_seen_unlined
  | closed declarations => List.map_id declarations

/-- Entries that differ in lines only bring in the same texts. -/
theorem flatMap_texts_of_seen {es es' : List Entry}
    (h : es.map (Entry.seen .unlined) = es'.map (Entry.seen .unlined)) :
    es.flatMap Entry.texts = es'.flatMap Entry.texts := by
  have h := congrArg (List.flatMap Entry.texts) h
  simpa only [List.flatMap_map, Entry.texts_seen_unlined] using h

namespace Lookahead.Reading

variable {input input' : Text} {r r' : Reading} {a : Assembly} {tree : Node}

/-- Records bring in their statements. -/
theorem flatMap_texts_node (records : List ImportRecord) :
    (records.map ImportRecord.node).flatMap Node.texts = records.map ImportRecord.statement := by
  rw [List.flatMap_map, ← List.flatMap_singleton' (records.map ImportRecord.statement), List.flatMap_map]
  exact List.flatMap_congr fun r _ => Node.texts_importStatement

/-- Lines apart, it does not count where a text is read. -/
theorem correspondence_unlined : Correspondence .unlined .unlined (fun _ _ => True) Eq where
  past _ _ := trivial
  of _ _ := trivial
  nil := rfl
  append t h := congrArg (· ++ t) h
  entry := by
    rintro p p' u _ inRule opens - rfl
    cases opens with
    | false => rfl
    | true =>
      have hnode := Blocks.seen_nodeOf .unlined u.tidy
      exact congrArg Entry.opened ((hnode p.line).trans (hnode p'.line).symm)

/-- The texts of what is read behind a brace or a comment do not depend on the place. -/
theorem texts_of_place (inRule : Bool) (u : Text) (ls : List Lexeme) (p p' : Position) :
    (entries inRule (Reading.of p u ls).segments).flatMap Entry.texts =
      (entries inRule (Reading.of p' u ls).segments).flatMap Entry.texts :=
  flatMap_texts_of_seen (correspondence_unlined.agree ls inRule trivial rfl).entries

/-- The import statements of a reading do not depend on the place, nor on what is pending. -/
theorem statements_of_place (ls : List Lexeme) (u u' : Text) (p p' : Position) :
    (Reading.of p u ls).statements.map ImportRecord.statement =
      (Reading.of p' u' ls).statements.map ImportRecord.statement := by
  rw [← List.forall₂_eq_eq_eq, List.forall₂_map_left_iff, List.forall₂_map_right_iff]
  exact (correspondence_unlined.statements ls u u' trivial).imp fun _ _ h => h.1

/-- The texts of a tree: those of its entries, and behind them its import statements. -/
theorem texts_of_answer (ha : a.Proper) (h : r.answer input a = .ok tree) :
    tree.texts = a.listing.flatMap Entry.texts ++ (entries a.inRule r.segments).flatMap Entry.texts ++
      r.statements.map ImportRecord.statement := by
  rw [Reading.answer] at h
  split at h
  · rename_i b hbuild
    have hlisting := Assembly.listing_build ha hbuild
    obtain ⟨stack, sheet⟩ := b
    obtain ⟨cs, rfl, -⟩ := (ha.build hbuild).sheet
    unfold Reading.conclude at h
    split at h
    · exact absurd h (by simp)
    · exact absurd h (by simp)
    · exact absurd h (by simp)
    · rename_i hstack
      obtain rfl : stack = [] := hstack
      obtain rfl := Except.ok.inj h
      rw [Assembly.listing_nil] at hlisting
      rw [withStatements_block, Node.texts_block, List.flatMap_append, flatMap_texts_node,
        Node.flatMap_texts, ← List.flatMap_append, ← hlisting]
      rfl
  · exact absurd h (by simp)

/-- Readings that agree in all but lines and words, with as many import statements, give trees with the
same outline. -/
theorem Agree.outline (h : Agree .wordless .wordless (fun _ _ => True) a.inRule r r')
    (hstatements : r.statements.length = r'.statements.length) (ha : a.Proper)
    (hok : r.answer input a = .ok tree) :
    ∃ tree', r'.answer input' a = .ok tree' ∧ tree'.outline = tree.outline := by
  obtain ⟨cs, hsheet, -⟩ := ha.sheet
  have hmatched : Assembly.Matched .wordless .wordless [] a a := ⟨rfl, cs, cs, hsheet, hsheet, rfl⟩
  rcases h.answer input input' hmatched ha ha with
    ⟨cs, cs', htree, htree', -, hcs⟩ | ⟨fault, q, q', -, herror, -⟩
  · have hrecords : (r'.statements.map ImportRecord.node).map Node.outline =
        (r.statements.map ImportRecord.node).map Node.outline := by
      have hblank : Node.outline ∘ ImportRecord.node = fun _ => .importStatement 0 [] [] :=
        funext fun r => Node.outline_importStatement
      rw [List.map_map, List.map_map, hblank, List.map_const', List.map_const', hstatements]
    refine ⟨_, htree', ?_⟩
    rw [← Except.ok.inj (htree.symm.trans hok), Node.outline_block, Node.outline_block, List.nil_append,
      List.map_append, List.map_append, hrecords, Node.map_outline_of_seen hcs]
  · exact absurd (herror.symm.trans hok) (by simp)

end Lookahead.Reading

end StyleFold
