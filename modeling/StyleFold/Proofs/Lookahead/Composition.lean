/-
  Composition — a text in two parts, and what the first part means for the second.

  A state at rest is outside of literals, comments and statements, with nothing but blanks pending, and
  so with nothing of a mark behind it.  From such a state a text is scanned as from the start of a text,
  except that blocks may be open and that characters and lines have been counted; so what a comment or a
  whole sheet in front changes is told by what it leaves of the state.

  1. **Moved readings** — lexemes that are read from another place, with fewer blank characters pending,
     give the same entries on lines as much further down.
  2. **States at rest** — behind a text that ends outside of literals and filters, with nothing but
     blanks pending, reading goes on with the lexemes of the rest, whatever that is.
  3. **Comments** — so a comment there is seen in the lines of the tree only (`Node.parse_comment`).
  4. **Blocks** — behind a closed block of the sheet nothing is left of the text before, so the tree of the
     whole is put together from the trees of the parts (`Node.parse_append`).
-/
import StyleFold.Proofs.Lookahead.NormalForm
import StyleFold.Proofs.Lookahead.Reachable

namespace StyleFold

/-! ## Moved readings

  Characters and lines that were counted before move all places of a reading, and nothing else. -/

namespace Lookahead

variable {p : Position} {b u t : Text} {count lines : Nat}

/-- The place behind that many more characters and lines. -/
def Position.moved (count lines : Nat) (p : Position) : Position := ⟨p.index + count, p.line + lines⟩

/-- A place behind a text is moved with the place in front of it. -/
theorem Position.past_moved (p : Position) (t : Text) (count lines : Nat) :
    (p.moved count lines).past t = (p.past t).moved count lines := by
  simp only [past, moved, Nat.add_right_comm]

/-- The place of a character is moved with the place in front of it. -/
theorem Position.of_moved (p : Position) (c : Char) :
    (p.moved count lines).of c = (p.of c).moved count lines := by
  simp only [of, moved, Nat.add_right_comm]

/-- The place behind a text is moved by its characters and line feeds. -/
theorem Position.past_eq_moved (p : Position) (t : Text) :
    p.past t = p.moved t.length (t.count '\n') := rfl

/-- A block that opens some lines further down is the block, raised by as many lines. -/
theorem seen_nodeOf_moved (header : Text) (line : Nat) :
    (Blocks.nodeOf header line).seen (.raised lines) = Blocks.nodeOf header (line + lines) := by
  unfold Blocks.nodeOf
  split
  · rw [Node.seen_block]
    rfl
  · rw [Node.seen_rule]
    exact congrArg (Node.rule _ _ · _) (List.map_id _)

/-- The same brace behind the same text makes the same entry, lines apart. -/
theorem Segment.entry_moved (hb : b.Blank) (inRule opens : Bool) (p : Position) :
    (Segment.entry inRule ⟨b ++ u, opens, p⟩).seen (.raised lines) =
      (Segment.entry inRule ⟨u, opens, p.moved count lines⟩).seen .plain := by
  cases opens with
  | true =>
    rw [Segment.entry, Segment.entry, hb.tidy_append]
    exact congrArg Entry.opened ((seen_nodeOf_moved _ _).trans (Node.seen_plain _).symm)
  | false =>
    rw [Segment.entry, Segment.entry, hb.items_append (by decide)]
    rfl

namespace Reading

/-- Places moved by as many characters and lines, and pending texts that blank characters lead. -/
theorem correspondence_moved (count lines : Nat) :
    Correspondence (.raised lines) .plain (fun p q => q = p.moved count lines)
      fun u u' => ∃ b : Text, b.Blank ∧ u = b ++ u' where
  past t h := by rw [h, Position.past_moved]
  of c h := by rw [h, Position.of_moved]
  nil := ⟨[], Text.blank_nil, rfl⟩
  append := by
    rintro _ u' t ⟨b, hb, rfl⟩
    exact ⟨b, hb, List.append_assoc b u' t⟩
  entry := by
    rintro p _ _ u' inRule opens rfl ⟨b, hb, rfl⟩
    exact Segment.entry_moved hb inRule opens p

/-- Lexemes that are read from another place. -/
theorem agree_moved (count lines : Nat) (ls : List Lexeme) (p : Position) (inRule : Bool) (hb : b.Blank) :
    Agree (.raised lines) .plain (fun p q => q = p.moved count lines) inRule
      (of p (b ++ u) ls) (of (p.moved count lines) u ls) :=
  (correspondence_moved count lines).agree ls inRule rfl ⟨b, hb, rfl⟩

/-- The import statements of the lexemes are the same, lines apart. -/
theorem statements_moved (count lines : Nat) (ls : List Lexeme) (p : Position) (u u' : Text) :
    ((of p u ls).statements.map ImportRecord.node).map (Node.seen (.raised lines)) =
      (of (p.moved count lines) u' ls).statements.map ImportRecord.node := by
  rw [List.map_map, ← List.forall₂_eq_eq_eq, List.forall₂_map_left_iff, List.forall₂_map_right_iff]
  refine ((correspondence_moved count lines).statements ls u u' rfl).imp ?_
  rintro ⟨_, _⟩ ⟨_, _⟩ ⟨rfl, q, _, rfl, rfl, rfl⟩
  exact Node.seen_importStatement

end Reading

end Lookahead

/-! ## States at rest

  The scan may be taken up in such a state by the reader. -/

namespace Scan.State

open Lookahead

variable {u v : Text} {s s' : State} {o : Outlook} {c : Char}

/-- Whether nothing is open and nothing but blank characters is pending. -/
structure AtRest (s : State) : Prop where
  idle : s.filtering = false
  unquoted : s.cursor.quote = none
  blank : s.cursor.pending.Blank

/-- Behind a state at rest the reader may go on, with any text. -/
theorem AtRest.parse_behind (hrun : run u {} u = .ok s) (hrest : s.AtRest) :
    ∃ a : Assembly, s.blocks = a.blocks ∧ a.Proper ∧
      ∀ v, Node.parse (u ++ v) = ((Reading.of (Position.past {} u) s.cursor.pending
        (Lexeme.all v)).after s.imports.records).answer (u ++ v) a := by
  obtain ⟨o, rfl, hplace, ⟨a, hb, hproper⟩, hbacked⟩ :=
    (reached_start.run hrun).eq_outside hrest.idle hrest.unquoted
  refine ⟨a, hb, hproper, fun v => ?_⟩
  rw [← hplace]
  exact parse_append_of_clear hrun hb hproper.sound (hbacked.clear hrest.blank v)

end Scan.State

/-! ## Comments

  A comment leads from a state at rest to one, with less pending and lines counted. -/

namespace Lookahead

/-- A text that does not hold the end mark of comments ends at the next one. -/
theorem through?_closeMark_append (v : Text) : ∀ {c : Text}, ¬ Comments.closeMark <:+: c →
    through? Comments.closeMark (c ++ (Comments.closeMark ++ v)) = some (c ++ Comments.closeMark, v)
  | [], _ => by simp [through?, Comments.closeMark]
  | d :: c, h => by
    have hc : ¬ Comments.closeMark <:+: c := fun hc => h (List.infix_cons hc)
    have hfront : ¬ Comments.closeMark.isPrefixOf (d :: (c ++ (Comments.closeMark ++ v))) = true := by
      intro hp
      obtain ⟨r, hr⟩ := List.isPrefixOf_iff_prefix.mp hp
      -- the mark would begin with `d`, and its second character is not its first
      cases c with
      | nil => exact absurd hr (by simp [Comments.closeMark])
      | cons e c =>
        obtain ⟨rfl, rfl, -⟩ : '*' = d ∧ '/' = e ∧ r = c ++ (Comments.closeMark ++ v) := by
          simpa [Comments.closeMark] using hr
        exact h (List.prefix_append Comments.closeMark c).isInfix
    rw [List.cons_append, through?, if_neg hfront, through?_closeMark_append v hc]
    rfl

end Lookahead

namespace Node

open Lookahead Scan

variable {u v c : Text} {s : State} {tree tree' tu : Node}

/-- A comment where nothing is pending changes lines only: with it the text has the same tree, lines
apart, or the same fault as without it. -/
theorem parse_comment (hrun : State.run u {} u = .ok s) (hrest : s.AtRest)
    (hc : ¬ Comments.closeMark <:+: c) :
    (∃ tree tree', parse (u ++ (Comments.openMark ++ c ++ Comments.closeMark) ++ v) = .ok tree ∧
        parse (u ++ v) = .ok tree' ∧ tree.seen .unlined = tree'.seen .unlined) ∨
      ∃ failure failure', parse (u ++ (Comments.openMark ++ c ++ Comments.closeMark) ++ v) =
          .error failure ∧ parse (u ++ v) = .error failure' ∧ failure.fault = failure'.fault := by
  obtain ⟨a, -, hproper, hparse⟩ := hrest.parse_behind hrun
  have hcomment := Lexeme.all_comment (through?_closeMark_append v hc)
  have htext : Comments.openMark ++ c ++ Comments.closeMark ++ v =
      Comments.openMark ++ (c ++ (Comments.closeMark ++ v)) := by simp
  rw [List.append_assoc, htext, hparse v, hparse, hcomment]
  -- the comment drops the blanks that are pending and moves the reading of the rest
  let mark := Comments.openMark ++ (c ++ Comments.closeMark)
  have hagree := Reading.agree_moved mark.length (mark.count '\n') (Lexeme.all v)
    (Position.past {} u) (b := s.cursor.pending) (u := []) a.inRule hrest.blank
  have hstatements := Reading.statements_moved mark.length (mark.count '\n') (Lexeme.all v)
    (Position.past {} u) (s.cursor.pending ++ []) []
  rw [← Position.past_eq_moved] at hagree hstatements
  rw [List.append_nil] at hagree hstatements
  obtain ⟨cs, hsheet, -⟩ := hproper.sheet
  have hmatched : Assembly.Matched .unlined .unlined [] a a := ⟨rfl, cs, cs, hsheet, hsheet, rfl⟩
  rcases ((hagree.andThen .unlined).after s.imports.records s.imports.records).answer _ _ hmatched
    hproper hproper with ⟨cs, cs', hok, hok', -, hcs⟩ | ⟨fault, q, q', -, herror, herror'⟩
  · refine .inl ⟨_, _, hok', hok, ?_⟩
    have hnodes : cs.map (seen .unlined) = cs'.map (seen .unlined) := hcs
    have hrecords := congrArg (List.map (seen .unlined)) hstatements
    rw [map_seen_seen] at hrecords
    simp only [seen_block, Reading.after, List.nil_append, List.map_append, hnodes, ← hrecords]
    rfl
  · exact .inr ⟨_, _, herror', herror, rfl⟩

/-- The start of a body, behind an import statement. -/
def startOfBody : Text := "@media p\x7b@import 'b';\n ".toList

/-- Where a scan stands behind that text. -/
def stateInBody : State where
  cursor := { index := 23, line := 2, pending := ['\n', ' '] }
  comments := ⟨false, ['\n', ' ']⟩
  imports := ⟨none, ['\n', ' '], [⟨"@import 'b';".toList, 1⟩]⟩
  blocks := ⟨1, true, [.block 1 [] (.atRule .media "@media p".toList) 0 []], emptySheet⟩

/-- A quote, a brace, the marks that open comments and import statements, and half of the mark that closes
a comment. -/
def marksInComment : Text := "'\x7b/* @import \n\x7d*".toList

/-- A comment at the start of a body, with a quote, braces and marks inside, changes no more than lines. -/
theorem parse_comment_startOfBody : State.run startOfBody {} startOfBody = .ok stateInBody ∧
    stateInBody.AtRest ∧ ¬ Comments.closeMark <:+: marksInComment ∧
    ∃ tree tree', parse (startOfBody ++ (Comments.openMark ++ marksInComment ++ Comments.closeMark) ++
        ".a\x7bx:1\x7d\x7d".toList) = .ok tree ∧ parse (startOfBody ++ ".a\x7bx:1\x7d\x7d".toList) = .ok tree' ∧
      tree.seen .unlined = tree'.seen .unlined := by
  have hrun : State.run startOfBody {} startOfBody = .ok stateInBody := by decide +kernel
  have hrest : stateInBody.AtRest := ⟨rfl, rfl, by unfold Text.Blank; decide⟩
  have hc : ¬ Comments.closeMark <:+: marksInComment := by decide +kernel
  refine ⟨hrun, hrest, hc, (parse_comment hrun hrest hc).resolve_right ?_⟩
  rintro ⟨failure, failure', -, herror, -⟩
  have hok : (parse (startOfBody ++ ".a\x7bx:1\x7d\x7d".toList)).isOk = true := by decide +kernel
  rw [herror] at hok
  exact Bool.false_ne_true hok

end Node

/-! ## Blocks

  A closed block at the top level leaves no block open, so what follows is a sheet of its own. -/

namespace Scan.State

open Lookahead

variable {u v : Text} {s s' : State} {o : Outlook}

/-- Whether the text ends with the brace that closes a block of the sheet. -/
def ClosesBlock (u : Text) : Prop :=
  ∃ before s, u = before ++ ['}'] ∧ run u {} before = .ok s ∧ s.filtering = false ∧
    s.cursor.quote = none ∧ s.blocks.depth = 1

/-- A closing brace is the last character of no mark. -/
theorem quiet_close (o : Outlook) : o.Quiet '}' where
  open_ne h := absurd (Text.getLast?_of_remember (by decide) h) (by decide)
  close_ne h := absurd (Text.getLast?_of_remember (by decide) h) (by decide)
  keyword_ne h := absurd (Text.getLast?_of_remember (by decide) h) (by decide)

/-- Behind the last block of a sheet nothing is open and nothing is pending. -/
theorem ClosesBlock.run (h : ClosesBlock u) : ∃ s, State.run u {} u = .ok s ∧ s.AtRest ∧
    s.cursor.pending = [] ∧ s.blocks.depth = 0 := by
  obtain ⟨before, s, hu, hrun, hidle, hquote, hdepth⟩ := h
  obtain ⟨o, rfl, -, ⟨a, hb, hproper⟩, -⟩ := (reached_start.run hrun).eq_outside hidle hquote
  have hdepth : a.stack.length = 1 := by
    rw [← hdepth]
    exact congrArg Blocks.depth hb.symm
  obtain ⟨n, hstack⟩ := List.length_eq_one_iff.mp hdepth
  obtain ⟨stack, sheet⟩ := a
  obtain rfl : stack = [n] := hstack
  -- the last block is attached to the sheet
  let behind : Outlook := { o.shown '}' with
    pending := [], blocks := (Assembly.attach ⟨[], sheet⟩ (Assembly.closed o.pending n)).blocks }
  have hread : (outside o).read '}' = .ok (outside behind) :=
    read_brace false hb hproper.sound (quiet_close o)
  refine ⟨outside behind, ?_, ⟨rfl, rfl, Text.blank_nil⟩, rfl, rfl⟩
  conv => lhs; arg 3; rw [hu]
  rw [run_append ['}'] hrun]
  exact run_cons_of_ok hread []

end Scan.State

namespace Node

open Lookahead Scan

variable {u v : Text} {tree tu : Node}

/-- A sheet behind a sheet, its nodes `lines` further down; import statements stand behind the rest. -/
def followedBy (lines : Nat) (tree tree' : Node) : Node :=
  .block 0 [] .sheet 0
    (tree.children.filter (fun n => !n.isImport) ++
      (tree'.children.filter fun n => !n.isImport).map (seen (.raised lines)) ++
      (tree.children.filter isImport ++ (tree'.children.filter isImport).map (seen (.raised lines))))

/-- A sheet behind another: the nodes of both, and then the imports of both. -/
theorem followedBy_eq {lines : Nat} {cs ds : List Node} {records records' : List ImportRecord}
    (hcs : ∀ c ∈ cs, c.isImport = false) (hds : ∀ d ∈ ds, d.isImport = false) :
    followedBy lines (.block 0 [] .sheet 0 (cs ++ records.map ImportRecord.node))
        (.block 0 [] .sheet 0 (ds ++ records'.map ImportRecord.node)) =
      .block 0 [] .sheet 0 (cs ++ ds.map (seen (.raised lines)) ++ (records.map ImportRecord.node ++
        (records'.map ImportRecord.node).map (seen (.raised lines)))) := by
  rw [followedBy, children, children, filter_others hcs (isImport_of_mem_records records),
    filter_others hds (isImport_of_mem_records records'),
    filter_imports hcs (isImport_of_mem_records records),
    filter_imports hds (isImport_of_mem_records records')]

/-- Behind a closed block of the sheet the reader goes on with the nodes and the import statements of the
tree of the text before. -/
theorem parse_append_of_closesBlock (hu : parse u = .ok tree) (hclosed : State.ClosesBlock u) :
    ∃ (cs : List Node) (records : List ImportRecord),
      tree = .block 0 [] .sheet 0 (cs ++ records.map ImportRecord.node) ∧
      Assembly.Proper ⟨[], .block 0 [] .sheet 0 cs⟩ ∧
      ∀ v, parse (u ++ v) = ((Reading.of (Position.past {} u) [] (Lexeme.all v)).after records).answer
        (u ++ v) ⟨[], .block 0 [] .sheet 0 cs⟩ := by
  obtain ⟨s, hrun, hrest, hpending, hdepth⟩ := hclosed.run
  obtain ⟨⟨stack, sheet⟩, hb, hproper, hparse⟩ := hrest.parse_behind hrun
  obtain ⟨cs, rfl, -⟩ := hproper.sheet
  obtain rfl : stack = [] :=
    List.length_eq_zero_iff.mp (hdepth ▸ congrArg Blocks.depth hb).symm
  rw [hpending] at hparse
  refine ⟨cs, s.imports.records, ?_, hproper, hparse⟩
  -- What is parsed of the front alone is the case of nothing behind it, and says what its tree is.
  have htree : parse (u ++ []) = .ok (Reading.withStatements (.block 0 [] .sheet 0 cs)
      (s.imports.records ++ [])) := by
    rw [hparse [], Lexeme.all_nil]
    rfl
  rw [List.append_nil, List.append_nil, hu, Reading.withStatements_block] at htree
  exact Except.ok.inj htree

/-- The text behind a closed block is read as if it stood alone, on lines further down. -/
theorem parse_append (hu : parse u = .ok tree) (hclosed : State.ClosesBlock u) (v : Text) :
    (∀ tree', parse v = .ok tree' → parse (u ++ v) = .ok (followedBy (u.count '\n') tree tree')) ∧
      ∀ failure, parse v = .error failure → parse (u ++ v) = .error (.locate failure.fault (u ++ v)
        (failure.index + u.length) (failure.line + u.count '\n')) := by
  obtain ⟨cs, records, rfl, hproper, hparse⟩ := parse_append_of_closesBlock hu hclosed
  have hcs := hproper.isImport_of_sheet rfl
  have hv : parse v = ((Reading.of {} [] (Lexeme.all v)).after []).answer v {} :=
    State.agrees_start v
  have hagree := Reading.agree_moved u.length (u.count '\n') (Lexeme.all v) {} (b := []) (u := [])
    false Text.blank_nil
  have hstatements := Reading.statements_moved u.length (u.count '\n') (Lexeme.all v) {} [] []
  rw [← Position.past_eq_moved] at hagree hstatements
  -- Behind the closed block the scan goes on with a fresh state, but for the statements in front
  -- and the place.
  have hmatched : Assembly.Matched (.raised (u.count '\n')) .plain cs {} ⟨[], .block 0 [] .sheet 0 cs⟩ :=
    ⟨rfl, [], [], rfl, by rw [List.append_nil], rfl⟩
  have hanswers := (hagree.after [] records).answer v (u ++ v) hmatched
    Assembly.proper_start hproper
  rw [List.nil_append, ← hv, ← hparse] at hanswers
  -- Both parts end alike: with the trees side by side, or with one fault at the shifted place.
  rcases hanswers with ⟨ds, ds', hok, hok', hds, hseen⟩ | ⟨fault, q, q', hq, herror, herror'⟩
  · rw [map_seen_plain] at hseen
    refine ⟨fun tree' htree' => ?_, fun failure hfailure => absurd (hok.symm.trans hfailure) (by simp)⟩
    obtain rfl := Except.ok.inj (hok.symm.trans htree')
    rw [hok', ← hseen, followedBy_eq hcs hds]
    simp only [Reading.after, List.nil_append, List.map_append, hstatements]
  · refine ⟨fun tree' htree' => absurd (herror.symm.trans htree') (by simp), fun failure hfailure => ?_⟩
    obtain rfl := Except.error.inj (herror.symm.trans hfailure)
    rw [herror', hq]
    rfl

/-- An import statement and a block. -/
def closedSheet : Text := "@import 'a';\n@media p\x7b.a\x7bx:1\x7d\x7d".toList

/-- The tree of that text. -/
def closedTree : Node :=
  .block 0 [] .sheet 0
    [.block 2 [] (.atRule .media "@media p".toList) 0 [.rule 2 [] [".a".toList] ["x:1".toList]],
     .importStatement 1 [] "@import 'a';".toList]

/-- The sheet ends with a brace that closes a block at the top level. -/
theorem closesBlock_closedSheet : State.ClosesBlock closedSheet := by
  have hrun : (State.run closedSheet {} closedSheet.dropLast).toOption.any (fun s =>
      !s.filtering && s.cursor.quote == none && s.blocks.depth == 1) = true := by decide +kernel
  cases h : State.run closedSheet {} closedSheet.dropLast with
  | error failure => rw [h] at hrun; exact absurd hrun Bool.false_ne_true
  | ok s =>
    rw [h] at hrun
    simp only [Except.toOption, Option.any_some, Bool.and_eq_true, Bool.not_eq_true', beq_iff_eq] at hrun
    exact ⟨closedSheet.dropLast, s, by decide +kernel, h, hrun.1.1, hrun.1.2, hrun.2⟩

/-- A block on a second line, and an import statement. -/
def secondSheet : Text := "\n.b\x7b\x7d@import 'c';".toList

/-- The tree of that text. -/
def secondTree : Node :=
  .block 0 [] .sheet 0 [.rule 2 [] [".b".toList] [], .importStatement 2 [] "@import 'c';".toList]

/-- One text behind another: the trees of both, or the failure of the second some characters and lines
further on. -/
theorem parse_append_closedSheet : parse closedSheet = .ok closedTree ∧
    State.ClosesBlock closedSheet ∧
    parse (closedSheet ++ secondSheet) =
      .ok (followedBy (closedSheet.count '\n') closedTree secondTree) ∧
    parse (closedSheet ++ "\n\x7d".toList) =
      .error (.locate .unmatchedClose (closedSheet ++ "\n\x7d".toList) (1 + closedSheet.length)
        (2 + closedSheet.count '\n')) := by
  have htree : parse closedSheet = .ok closedTree := by decide +kernel
  have hclosed := closesBlock_closedSheet
  have hok := (parse_append htree hclosed secondSheet).1 secondTree (by decide +kernel)
  have herror := (parse_append htree hclosed "\n\x7d".toList).2
    (.locate .unmatchedClose "\n\x7d".toList 1 2) (by decide +kernel)
  exact ⟨htree, hclosed, hok, herror⟩

end Node

end StyleFold
