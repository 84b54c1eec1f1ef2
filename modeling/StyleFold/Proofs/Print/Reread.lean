/-
  Reread — printed lines are read as the nodes that they were printed for.

  Reading is about one text from front to end, and printing about one node at a time.  `ReadsAs` lies
  between the two: it says of a piece of text what it adds, whatever was read before it and whatever
  follows, so that pieces may be put together as the printer puts lines together.

  1. **Filler** — the characters before and behind a printed line: blank, and without meaning.
  2. **Lines** — without colour a line stands between a margin and a line end, both filler.
  3. **Braces** — a passive text and a brace are one segment (`Reading.of_brace`).
  4. **Printed texts** — `ReadsAs`: wherever a text stands between printed lines, its segments attach
     nodes of given shapes to whatever is being built.
  5. **Nodes** — a legible tree whose words show no mark reads as its `Node.reread`.
-/
import StyleFold.Print.Sheet
import StyleFold.Proofs.Print.Shapes

namespace StyleFold

open Text

/-! ## Filler

  Margins and line ends are all that a layout adds. -/

namespace Text

variable {s t : Text}

/-- Whether the text may stand around a printed line. -/
def Filler (t : Text) : Prop := ∀ c ∈ t, Idle c ∧ isBlank c = true

theorem filler_nil : Filler [] := fun _ h => absurd h List.not_mem_nil

theorem Filler.append (hs : s.Filler) (ht : t.Filler) : (s ++ t).Filler := fun c hc =>
  (List.mem_append.mp hc).elim (hs c) (ht c)

/-- Filler is blank. -/
theorem Filler.blank (h : t.Filler) : t.Blank := fun c hc => (h c hc).2

/-- Filler is passive. -/
theorem Filler.passive (h : t.Filler) : Passive t := passive_of_idle fun c hc => (h c hc).1

/-- No mark begins in filler. -/
theorem Filler.unbridged (h : s.Filler) : Unbridged s t := by
  rintro mark hmark a b rfl hb hp
  obtain ⟨c, b, rfl⟩ := List.exists_cons_of_ne_nil hb
  exact absurd hp ((h c (List.mem_append_right a List.mem_cons_self)).1.begins_no_mark hmark)

end Text

/-! ## Lines -/

namespace Layout

variable {layout : Layout}

/-- The text before a line of this depth. -/
def margin (layout : Layout) (depth : Nat) : Text := (List.replicate depth layout.indent.unit).flatten

/-- The text behind a line. -/
def lineEnd (layout : Layout) : Text := if layout.indent.isMultiline then ['\n'] else []

/-- Margins are made of spaces and tabs. -/
theorem mem_margin {depth : Nat} {c : Char} (h : c ∈ layout.margin depth) : c = ' ' ∨ c = '\t' := by
  obtain ⟨t, ht, hc⟩ := List.mem_flatten.mp h
  rw [List.eq_of_mem_replicate ht] at hc
  cases hindent : layout.indent with
  | none => exact absurd (hindent ▸ hc) List.not_mem_nil
  | spaces width =>
    rw [hindent] at hc
    exact .inl (List.eq_of_mem_replicate hc)
  | tabs =>
    rw [hindent] at hc
    exact .inr (List.mem_singleton.mp hc)

/-- A margin is filler. -/
theorem filler_margin (layout : Layout) (depth : Nat) : Filler (layout.margin depth) := by
  intro c hc
  rcases mem_margin hc with rfl | rfl <;> decide

/-- A line end is filler. -/
theorem filler_lineEnd (layout : Layout) : Filler layout.lineEnd := by
  unfold lineEnd
  split
  · exact fun c hc => List.mem_singleton.mp hc ▸ by decide
  · exact filler_nil

end Layout

/-- Without colour a line is printed with nothing but margin and line end around it. -/
theorem Line.render_eq {layout : Layout} (hcolor : layout.color = false) (l : Line) :
    l.render layout = layout.margin l.depth ++ l.text ++ layout.lineEnd := by
  have hplain : l.colored layout = l.text := by simp [Line.colored, hcolor]
  unfold Line.render Layout.margin Layout.lineEnd
  rw [hplain]
  cases layout.indent <;> simp [Indent.isMultiline, Indent.unit]

/-- Nodes pushed one after another stand behind the children. -/
theorem Node.foldl_push (line : Nat) (origin : List Nat) (head : Head) (reduced : Nat) :
    ∀ (nodes children : List Node), nodes.foldl push (block line origin head reduced children) =
      block line origin head reduced (children ++ nodes)
  | [], children => by rw [List.append_nil]; rfl
  | n :: nodes, children => by
    have h := foldl_push line origin head reduced nodes (children ++ [n])
    rw [List.append_assoc] at h
    exact h

namespace Lookahead

variable {s t u body header : Text} {ms ns : List Node} {selectors declarations : List Text}

/-! ## Braces

  In the printed text a brace is the last character of every line but those of imports. -/

namespace Reading

/-- The reading with further segments before it. -/
def behind (segments : List Segment) (r : Reading) : Reading :=
  { r with segments := segments ++ r.segments }

theorem behind_behind (ss ts : List Segment) (r : Reading) :
    (r.behind ts).behind ss = r.behind (ss ++ ts) := by
  rw [behind, behind, behind, List.append_assoc]

/-- A passive text with a brace behind it is one segment, and nothing is pending behind it. -/
theorem of_brace (ht : Passive t) (opens : Bool) (p : Position) (u rest : Text) : ∃ p',
    of p u (Lexeme.all (t ++ (if opens then '{' else '}') :: rest)) =
      (of p' [] (Lexeme.all rest)).behind [⟨u ++ t, opens, p.past t⟩] := by
  have hu : Unbridged t ((if opens then '{' else '}') :: rest) := unbridged_of_head fun c hc => by
    obtain rfl : (if opens then '{' else '}') = c := by simpa using hc
    cases opens <;> decide
  refine ⟨(p.past t).past (Lexeme.brace opens).text, ?_⟩
  rw [of_append ht hu, Lexeme.all_brace]
  rfl

end Reading

namespace Assembly

/-- Nodes that are attached do not keep a block from opening. -/
theorem mayOpen_foldl_attach : ∀ (nodes : List Node) {a : Assembly}, mayOpen a.stack = true →
    mayOpen (nodes.foldl attach a).stack = true
  | [], _, h => h
  | n :: nodes, a, h => by
    refine mayOpen_foldl_attach nodes (a := a.attach n) ?_
    rcases a with ⟨_ | ⟨parent, outer⟩, sheet⟩
    · exact h
    · show ((parent.push n).kind != .rule) = true
      rw [Node.kind_push]
      exact h

/-- Nodes that are attached inside of an open block become its children. -/
theorem foldl_attach_cons (n : Node) (outer : List Node) (sheet : Node) (nodes : List Node) :
    nodes.foldl attach ⟨n :: outer, sheet⟩ = ⟨nodes.foldl Node.push n :: outer, sheet⟩ :=
  List.foldl_hom (fun n => (⟨n :: outer, sheet⟩ : Assembly)) fun _ _ => rfl

/-- Nodes that are attached outside of all blocks become children of the sheet. -/
theorem foldl_attach_nil (sheet : Node) (nodes : List Node) :
    nodes.foldl attach ⟨[], sheet⟩ = ⟨[], nodes.foldl Node.push sheet⟩ :=
  List.foldl_hom (fun n => (⟨[], n⟩ : Assembly)) fun _ _ => rfl

/-- Building goes on inside of a block that opens. -/
theorem build_open {a : Assembly} (h : mayOpen a.stack = true) (input pending : Text)
    (place : Position) (more : List Segment) :
    a.build input (⟨pending, true, place⟩ :: more) =
      Assembly.build input ⟨Blocks.nodeOf pending.tidy place.line :: a.stack, a.sheet⟩ more := by
  rw [Assembly.build, take_opens, if_pos h]

/-- Building goes on outside of a block that closes, which is attached there. -/
theorem build_close (n : Node) (outer : List Node) (sheet : Node) (input pending : Text)
    (place : Position) (more : List Segment) :
    Assembly.build input ⟨n :: outer, sheet⟩ (⟨pending, false, place⟩ :: more) =
      Assembly.build input (attach ⟨outer, sheet⟩ (closed pending n)) more := by
  rw [Assembly.build]
  rfl

end Assembly

/-! ## Printed texts

  The statement quantifies over the open blocks, since a line may stand at any depth. -/

/-- `ReadsAs t shapes` — wherever `t` stands between printed lines, its segments attach nodes of these
shapes, and only filler is pending behind it. -/
def ReadsAs (t : Text) (shapes : List Node) : Prop :=
  ∀ (p : Position) (u rest : Text), Filler u →
    ∃ (segments : List Segment) (p' : Position) (u' : Text) (nodes : List Node),
    Filler u' ∧ nodes.map Node.shape = shapes ∧
    Reading.of p u (Lexeme.all (t ++ rest)) =
      (Reading.of p' u' (Lexeme.all rest)).behind segments ∧
    ∀ (input : Text) (a : Assembly) (more : List Segment), Assembly.mayOpen a.stack = true →
      a.build input (segments ++ more) = (nodes.foldl Assembly.attach a).build input more

/-- Filler reads as no node. -/
theorem readsAs_filler (h : t.Filler) : ReadsAs t [] := by
  intro p u rest hu
  refine ⟨[], p.past t, u ++ t, [], hu.append h, rfl, ?_, fun _ _ _ _ => rfl⟩
  exact Reading.of_append h.passive h.unbridged p u

/-- What two texts read as is read one after the other. -/
theorem ReadsAs.append (hs : ReadsAs s ms) (ht : ReadsAs t ns) : ReadsAs (s ++ t) (ms ++ ns) := by
  intro p u rest hu
  obtain ⟨ss, p1, u1, as, hu1, rfl, hread1, hbuild1⟩ := hs p u (t ++ rest) hu
  obtain ⟨ts, p2, u2, bs, hu2, rfl, hread2, hbuild2⟩ := ht p1 u1 rest hu1
  refine ⟨ss ++ ts, p2, u2, as ++ bs, hu2, List.map_append, ?_, ?_⟩
  · rw [List.append_assoc, hread1, hread2, Reading.behind_behind]
  · intro input a more ha
    rw [List.append_assoc, hbuild1 input a _ ha, List.foldl_append,
      hbuild2 input _ more (Assembly.mayOpen_foldl_attach as ha)]

/-- A header in front of its brace, with filler before it, is tidied to itself. -/
theorem tidy_header (hu : Filler u) (ht : Tidied header) : (u ++ (header ++ [' '])).tidy = header := by
  have hspace : Blank [' '] := fun c hc => List.mem_singleton.mp hc ▸ rfl
  rw [← List.append_assoc]
  exact ht.tidy_append hu.blank hspace

/-- A space has no meaning to a reader. -/
theorem idle_space : Idle ' ' := by decide

/-- An at-rule around a text reads as a block around what the text reads as. -/
theorem ReadsAs.atRule {kind : AtKind} (hkind : AtKind.ofHeader? header = some kind)
    (htidied : Tidied header) (hpassive : Passive header) (hbody : ReadsAs body ns) :
    ReadsAs (Node.openingText header ++ body ++ Node.closingText)
      [.block 0 [] (.atRule kind header) 0 ns] := by
  intro p u rest hu
  have hcut : Node.openingText header ++ body ++ Node.closingText ++ rest =
      (header ++ [' ']) ++ '{' :: (body ++ '}' :: rest) := by
    simp [Node.openingText, Node.closingText]
  obtain ⟨p1, hopen⟩ := Reading.of_brace (hpassive.concat idle_space) true p u (body ++ '}' :: rest)
  obtain ⟨ss, p2, u2, nodes, hu2, rfl, hread, hbuild⟩ := hbody p1 [] ('}' :: rest) filler_nil
  obtain ⟨p3, hclose⟩ := Reading.of_brace passive_nil false p2 u2 rest
  -- the segment of the opening brace, those of the body, and that of the closing brace
  refine ⟨[⟨u ++ (header ++ [' ']), true, p.past (header ++ [' '])⟩] ++
      (ss ++ [⟨u2 ++ [], false, p2.past []⟩]), p3, [],
    [.block (p.past (header ++ [' '])).line [] (.atRule kind header) 0 nodes], filler_nil, ?_, ?_, ?_⟩
  · rw [List.map_singleton, Node.shape_block]
  · rw [hcut]
    have hclose : Reading.of p2 u2 (Lexeme.all ('}' :: rest)) = _ := hclose
    refine hopen.trans ?_
    rw [hread, hclose, Reading.behind_behind, Reading.behind_behind, List.append_assoc]
  · intro input a more ha
    have hnode : ∀ line, Blocks.nodeOf header line = .block line [] (.atRule kind header) 0 [] :=
      fun line => by rw [Blocks.nodeOf, hkind]
    rw [List.append_assoc, List.singleton_append, Assembly.build_open ha, tidy_header hu htidied,
      hnode, List.append_assoc, hbuild input _ _ (by cases kind <;> rfl), Assembly.foldl_attach_cons,
      Node.foldl_push, List.singleton_append, Assembly.build_close]
    rfl

/-- What a printed rule becomes in the assembly has the shape of its second reading. -/
theorem shape_closed_nodeOf (hss : ∀ s ∈ selectors, Item ',' s) (hds : ∀ d ∈ declarations, Item ';' d)
    (line : Nat) (line' : Nat) (origin : List Nat) :
    (Assembly.closed (' ' :: join ';' declarations ++ [' '])
      (Blocks.nodeOf (join ',' selectors) line)).shape =
        (Node.rule line' origin selectors declarations).reread := by
  have hspace : Blank [' '] := fun c hc => List.mem_singleton.mp hc ▸ rfl
  have hselectors : items ',' (join ',' selectors) = selectors := by
    have h := items_join (by decide) (by decide) blank_nil blank_nil hss
    rwa [List.nil_append, List.append_nil] at h
  have hdeclarations : items ';' (' ' :: join ';' declarations ++ [' ']) = declarations :=
    items_join (by decide) (by decide) hspace hspace hds
  rw [Node.reread, Blocks.nodeOf]
  cases AtKind.ofHeader? (join ',' selectors) with
  | some kind =>
    -- the declarations are the pending text before the end of an at-rule, which is dropped
    rw [Assembly.closed, Node.shape_block]
    rfl
  | none => rw [Assembly.closed, Node.shape, hselectors, hdeclarations]

/-- A printed rule reads as the rule, or as an empty at-rule if its selectors begin with the word of
one. -/
theorem ReadsAs.rule (hss : ∀ s ∈ selectors, Item ',' s ∧ Passive s)
    (hds : ∀ d ∈ declarations, Item ';' d ∧ Passive d) (line : Nat) (origin : List Nat) :
    ReadsAs (Node.ruleText selectors declarations)
      [(Node.rule line origin selectors declarations).reread] := by
  have hheader : Passive (join ',' selectors) := passive_join (by decide) fun s hs => (hss s hs).2
  have htidied : Tidied (join ',' selectors) :=
    tidied_join (by decide) fun s hs => (hss s hs).1.tidied
  have hbody : Passive (' ' :: join ';' declarations ++ [' ']) :=
    ((passive_join (by decide) fun d hd => (hds d hd).2).cons idle_space).concat idle_space
  intro p u rest hu
  -- The text of a rule has two braces: the header in front of the first, the declarations in front
  -- of the second.
  have hcut : Node.ruleText selectors declarations ++ rest = (join ',' selectors ++ [' ']) ++
      '{' :: ((' ' :: join ';' declarations ++ [' ']) ++ '}' :: rest) := by
    simp [Node.ruleText]
  obtain ⟨p1, hopen⟩ := Reading.of_brace (hheader.concat idle_space) true p u
    ((' ' :: join ';' declarations ++ [' ']) ++ '}' :: rest)
  obtain ⟨p2, hclose⟩ := Reading.of_brace hbody false p1 [] rest
  refine ⟨[⟨u ++ (join ',' selectors ++ [' ']), true, p.past (join ',' selectors ++ [' '])⟩,
      ⟨[] ++ (' ' :: join ';' declarations ++ [' ']), false,
        p1.past (' ' :: join ';' declarations ++ [' '])⟩], p2, [],
    [Assembly.closed (' ' :: join ';' declarations ++ [' '])
      (Blocks.nodeOf (join ',' selectors) (p.past (join ',' selectors ++ [' '])).line)],
    filler_nil, ?_, ?_, ?_⟩
  · rw [List.map_singleton, shape_closed_nodeOf (fun s hs => (hss s hs).1) (fun d hd => (hds d hd).1)]
  · have hclose : Reading.of p1 [] (Lexeme.all
        ((' ' :: join ';' declarations ++ [' ']) ++ '}' :: rest)) = _ := hclose
    rw [hcut]
    refine hopen.trans ?_
    rw [hclose, Reading.behind_behind]
    rfl
  · intro input a more ha
    rw [List.cons_append, Assembly.build_open ha, tidy_header hu htidied, List.singleton_append,
      Assembly.build_close]
    rfl

/-! ## Nodes

  By induction on the node; each level indents by one more margin, which is filler again. -/

variable {layout : Layout}

/-- Filler around a text is not read. -/
theorem ReadsAs.pad {a b : Text} (ha : Filler a) (h : ReadsAs t ns) (hb : Filler b) :
    ReadsAs (a ++ t ++ b) ns := by
  have := ((readsAs_filler ha).append h).append (readsAs_filler hb)
  rwa [List.nil_append, List.append_nil] at this

/-- A line without colour reads as its text. -/
theorem ReadsAs.line (hcolor : layout.color = false) {l : Line} (h : ReadsAs l.text ns) :
    ReadsAs (l.render layout) ns := by
  rw [Line.render_eq hcolor]
  exact h.pad (Layout.filler_margin layout l.depth) (Layout.filler_lineEnd layout)

end Lookahead

namespace Node

open Lookahead

variable {layout : Layout}

/-- The other lines are those of the nodes that are no imports. -/
theorem otherLines_eq (depth : Nat) : ∀ ns : List Node,
    otherLines depth ns = (ns.filter fun n => !n.isImport).flatMap (lines depth)
  | [] => by rw [otherLines]; rfl
  | .importStatement .. :: ns => by rw [otherLines, otherLines_eq depth ns]; rfl
  | .rule .. :: ns => by
    rw [otherLines, otherLines_eq depth ns, List.filter_cons_of_pos rfl, List.flatMap_cons]
    simp
  | .block .. :: ns => by
    rw [otherLines, otherLines_eq depth ns, List.filter_cons_of_pos rfl, List.flatMap_cons]
    simp

/-- A legible node is no import statement. -/
theorem isImport_of_legible {n : Node} (h : n.Within Word.Legible) : n.isImport = false := by
  cases n with
  | importStatement line origin statement => exact (within_importStatement_iff.mp h).elim
  | rule line origin selectors declarations => rfl
  | block line origin head reduced children => rfl

/-- What is printed for legible siblings reads as one node for each. -/
theorem readsAs_otherLines (depth : Nat) : ∀ {ns : List Node},
    (∀ n ∈ ns, ReadsAs ((n.lines depth).flatMap (Line.render layout)) [n.reread]) →
    ReadsAs ((ns.flatMap (lines depth)).flatMap (Line.render layout)) (ns.map reread)
  | [], _ => readsAs_filler filler_nil
  | n :: ns, h => by
    rw [List.flatMap_cons, List.flatMap_append]
    exact (h n List.mem_cons_self).append
      (readsAs_otherLines depth fun m hm => h m (List.mem_cons_of_mem n hm))

/-- Legible nodes are no imports, so all of them are among the others. -/
theorem others_of_legible {ns : List Node} (h : ∀ n ∈ ns, n.Within Word.Legible) :
    (ns.filter fun n => !n.isImport) = ns :=
  List.filter_eq_self.mpr fun n hn => by rw [isImport_of_legible (h n hn)]; rfl

/-- Legible nodes have no statement. -/
theorem statements_of_legible {ns : List Node} (h : ∀ n ∈ ns, n.Within Word.Legible) :
    ns.filterMap statement? = [] := by
  rw [List.filterMap_eq_nil_iff]
  intro n hn
  have hother := isImport_of_legible (h n hn)
  cases n with
  | importStatement line origin statement => exact absurd hother (by simp [isImport])
  | rule line origin selectors declarations => rfl
  | block line origin head reduced children => rfl

/-- Of legible siblings all lines are printed, in order. -/
theorem siblingLines_of_legible (depth : Nat) {ns : List Node} (h : ∀ n ∈ ns, n.Within Word.Legible) :
    importLines depth ns ++ otherLines depth ns = ns.flatMap (lines depth) := by
  rw [importLines, statements_of_legible h, otherLines_eq, others_of_legible h]
  rfl

/-- What is printed for a legible tree without marks reads as that tree, but for the rules that open
at-rules. -/
theorem readsAs_lines (hcolor : layout.color = false) (n : Node) : n.Within Word.Legible →
    n.Within Word.Inert → ∀ depth, ReadsAs ((n.lines depth).flatMap (Line.render layout)) [n.reread] := by
  induction n using Node.ind with
  | rule line origin selectors declarations =>
    intro hlegible hinert depth
    obtain ⟨hss, hds⟩ := within_rule_iff.mp hlegible
    obtain ⟨hss', hds'⟩ := within_rule_iff.mp hinert
    rw [lines, List.flatMap_singleton]
    refine ReadsAs.line hcolor (ReadsAs.rule ?_ ?_ line origin)
    · exact fun s hs => ⟨(hss s hs).1, (hss s hs).2, hss' s hs⟩
    · exact fun d hd => ⟨(hds d hd).1, (hds d hd).2, hds' d hd⟩
  | importStatement line origin statement =>
    intro hlegible
    exact (within_importStatement_iff.mp hlegible).elim
  | block line origin head reduced children ih =>
    intro hlegible hinert depth
    obtain ⟨⟨kind, header, rfl, hkind, htidied, hneat⟩, hchildren⟩ := within_block_iff.mp hlegible
    obtain ⟨hheader, hchildren'⟩ := within_block_iff.mp hinert
    have hmargin := Layout.filler_margin layout depth
    have hend := Layout.filler_lineEnd layout
    have hbody : ReadsAs ((children.flatMap (lines (depth + 1))).flatMap (Line.render layout))
        (children.map reread) :=
      readsAs_otherLines (depth + 1) fun c hc => ih c hc (hchildren c hc) (hchildren' c hc) (depth + 1)
    -- the filler inside of the braces belongs to the body
    have h := ((hbody.pad hend hmargin).atRule hkind htidied ⟨hneat, hheader⟩).pad hmargin hend
    rw [lines, siblingLines_of_legible _ hchildren, List.flatMap_append, List.flatMap_cons,
      List.flatMap_singleton, Line.render_eq hcolor, Line.render_eq hcolor, reread_block]
    simpa only [List.append_assoc] using h

end Node

end StyleFold
