/-
  Entries — what the braces of a text add to its tree, one after another.

  An opening brace enters a block into the listing of the tree, a closing brace the declarations of the
  block that it ends.  The listing tells the tree, and the tree its listing.

  A tree and the order in which a text builds it are two different recursions: the tree is nested, the
  text goes along with a stack.  The listing is what both have in common, and it is flat.  Comparing two
  texts by their trees becomes comparing two lists of entries, one by one.

  1. **Entries** — the entry of a segment depends on whether a rule is open there; taking in a segment
     is entering its entry (`take_eq_enter`).
  2. **Proper assemblies** — what an assembly of a text is like, whatever was taken in.
  3. **Listings** — the tree that is built lists the entries of the segments (`entries_of_build`).
  4. **Two builds** — from assemblies that match in two views, entries that agree in these views build
     assemblies that match, or both builds fail at the same segment with one fault (`Matched.build`).
  5. **Two answers** — lexemes that are read from places and pending texts that correspond make readings
     that agree (`Correspondence.agree`), and these give sheets that agree, or one fault (`Agree.answer`).
  6. **Two trees** — trees that are seen alike list entries that are seen alike, and readings that agree
     have trees that are seen alike.
-/
import Mathlib.Data.List.Forall2
import StyleFold.Proofs.Lookahead.Legible
import StyleFold.Proofs.Tree.Views

namespace StyleFold

/-! ## Entries

  The only thing that an entry needs from what came before is whether a rule is open, for a rule takes
  the pending text as declarations and any other block drops it. -/

/-- What a brace adds to the listing of a tree. -/
inductive Entry
  /-- A block that begins, with nothing inside. -/
  | opened (node : Node)
  /-- The end of a block, with the declarations of a rule. -/
  | closed (declarations : List Text)
  deriving DecidableEq

/-- The entry in a view. -/
def Entry.seen (w : View) : Entry → Entry
  | opened node => opened (node.seen w)
  | closed declarations => closed (declarations.map w.onText)

/-- Seeing an entry twice is seeing it in both views at once. -/
theorem Entry.seen_seen (w v : View) : ∀ e : Entry, (e.seen w).seen v = e.seen (w.andThen v)
  | opened node => congrArg opened (Node.seen_seen w v node)
  | closed _ => congrArg closed (List.map_map ..)

/-- The block that a header begins, in a view. -/
theorem Blocks.seen_nodeOf (w : View) (header : Text) (line : Nat) :
    (nodeOf header line).seen w = match AtKind.ofHeader? header with
      | some kind => .block (w.onLine line) [] (.atRule kind (w.onText header)) 0 []
      | none => .rule (w.onLine line) [] ((Text.items ',' header).map w.onText) [] := by
  unfold nodeOf
  cases AtKind.ofHeader? header with
  | none => exact Node.seen_rule
  | some kind => exact Node.seen_block

namespace Lookahead

/-- Whether the brace opens a rule. -/
def Segment.opensRule (s : Segment) : Bool := s.opens && (AtKind.ofHeader? s.pending.tidy).isNone

/-- The entry of a segment; the text before a closing brace counts where a rule is open. -/
def Segment.entry (inRule : Bool) (s : Segment) : Entry :=
  if s.opens then .opened (Blocks.nodeOf s.pending.tidy s.place.line)
  else .closed (if inRule then Text.items ';' s.pending else [])

/-- The entries of segments; inside of a rule no block is open, so behind a closing brace no rule is. -/
def entries (inRule : Bool) : List Segment → List Entry
  | [] => []
  | s :: ss => s.entry inRule :: entries s.opensRule ss

namespace Assembly

variable {a a' b b' : Assembly} {s : Segment} {n : Node} {e e' : Entry}

/-- Whether a rule is the innermost open block. -/
def inRule (a : Assembly) : Bool := !mayOpen a.stack

/-- Enter an entry. -/
def enter (a : Assembly) : Entry → Except Fault Assembly
  | .opened node =>
    if mayOpen a.stack then .ok { a with stack := node :: a.stack } else .error .nestedBlock
  | .closed declarations =>
    match a.stack with
    | [] => .error .unmatchedClose
    | node :: outer => .ok (attach { a with stack := outer } (node.withDeclarations declarations))

/-- A segment does to an assembly what its entry does. -/
theorem take_eq_enter (a : Assembly) (s : Segment) : a.take s = a.enter (s.entry a.inRule) := by
  obtain ⟨pending, _ | _, place⟩ := s
  · obtain ⟨_ | ⟨n, outer⟩, sheet⟩ := a
    · rfl
    · cases n <;> rfl
  · exact take_opens a pending place

/-- Inside of an at-rule a block may open, inside of a rule none. -/
theorem mayOpen_nodeOf (header : Text) (line : Nat) (outer : List Node) :
    mayOpen (Blocks.nodeOf header line :: outer) = (AtKind.ofHeader? header).isSome := by
  unfold Blocks.nodeOf mayOpen
  cases AtKind.ofHeader? header with
  | none => rfl
  | some kind => exact bne_iff_ne.mpr (Node.kind_block_ne_rule _ _ _ _ _)

/-- What may open does not depend on the nodes that are attached. -/
theorem mayOpen_attach (a : Assembly) (n : Node) : mayOpen (a.attach n).stack = mayOpen a.stack := by
  rcases a with ⟨_ | ⟨parent, outer⟩, sheet⟩
  · rfl
  · simp [attach, mayOpen, Node.kind_push]

/-- Behind a segment a rule is open if the segment opened one. -/
theorem inRule_of_take (hs : a.Sound) (h : a.take s = .ok a') : a'.inRule = s.opensRule := by
  obtain ⟨pending, opens, place⟩ := s
  cases opens with
  | true =>
    rw [take_opens] at h
    split at h
    · obtain rfl := Except.ok.inj h
      rw [inRule, mayOpen_nodeOf, Option.not_isSome]
      rfl
    · exact absurd h (by simp)
  | false =>
    obtain ⟨_ | ⟨n, outer⟩, sheet⟩ := a
    · exact absurd h (by simp [Assembly.take])
    · obtain rfl : attach ⟨outer, sheet⟩ (closed pending n) = a' := by simpa [Assembly.take] using h
      have hmay : mayOpen outer = true := mayOpen_of_sound hs rfl
      rw [inRule, mayOpen_attach, hmay]
      rfl

end Assembly

/-- Entries that agree open the same kind of block. -/
theorem opensRule_of_entry {s s' : Segment} {w w' : View} {r r' : Bool}
    (h : (s.entry r).seen w = (s'.entry r').seen w') : s.opensRule = s'.opensRule := by
  obtain ⟨pending, opens, place⟩ := s
  obtain ⟨pending', opens', place'⟩ := s'
  cases opens with
  | false =>
    cases opens' with
    | false => rfl
    | true => exact absurd h (by simp [Segment.entry, Entry.seen])
  | true =>
    cases opens' with
    | false => exact absurd h (by simp [Segment.entry, Entry.seen])
    | true =>
      have hnode : (Blocks.nodeOf pending.tidy place.line).seen w =
          (Blocks.nodeOf pending'.tidy place'.line).seen w' := by simpa [Segment.entry, Entry.seen] using h
      have hmay : (AtKind.ofHeader? pending.tidy).isSome = (AtKind.ofHeader? pending'.tidy).isSome := by
        rw [← Assembly.mayOpen_nodeOf _ place.line [], ← Assembly.mayOpen_nodeOf _ place'.line [],
          Assembly.mayOpen, Assembly.mayOpen, ← Node.kind_seen w, hnode, Node.kind_seen]
      rw [Segment.opensRule, Segment.opensRule, ← Option.not_isSome, ← Option.not_isSome, hmay]

end Lookahead

/-! ## Proper assemblies

  Facts about the stack and the sheet that no segment breaks. -/

namespace Lookahead.Assembly

variable {a a' b b' : Assembly} {s : Segment} {n : Node} {e e' : Entry}

/-- What an assembly is like that some segments of a text were taken into. -/
structure Proper (a : Assembly) : Prop where
  sound : a.Sound
  blocks : ∀ n ∈ a.stack, n.isImport = false
  sheet : ∃ cs, a.sheet = .block 0 [] .sheet 0 cs ∧ ∀ c ∈ cs, c.isImport = false

theorem proper_start : Proper {} where
  sound _ h := absurd h List.not_mem_nil
  blocks _ h := absurd h List.not_mem_nil
  sheet := ⟨[], rfl, fun _ h => absurd h List.not_mem_nil⟩

/-- No brace opens an import. -/
theorem isImport_nodeOf (header : Text) (line : Nat) : (Blocks.nodeOf header line).isImport = false := by
  unfold Blocks.nodeOf
  split <;> rfl

theorem isImport_push (n child : Node) : (n.push child).isImport = n.isImport := by cases n <;> rfl

theorem isImport_closed (pending : Text) (n : Node) : (closed pending n).isImport = n.isImport := by
  cases n <;> rfl

/-- A node that is no import may be attached to a proper assembly. -/
theorem Proper.attach (h : a.Proper) (hn : n.isImport = false) : (a.attach n).Proper := by
  obtain ⟨cs, hsheet, hcs⟩ := h.sheet
  obtain ⟨_ | ⟨parent, outer⟩, sheet⟩ := a
  · exact ⟨h.sound, h.blocks, cs ++ [n], congrArg (Node.push · n) hsheet,
      List.forall_mem_append.mpr ⟨hcs, List.forall_mem_singleton.mpr hn⟩⟩
  · refine ⟨h.sound, ?_, cs, hsheet, hcs⟩
    obtain ⟨hparent, houter⟩ := List.forall_mem_cons.mp h.blocks
    exact List.forall_mem_cons.mpr ⟨(isImport_push parent n).trans hparent, houter⟩

/-- Taking in a segment leaves an assembly proper. -/
theorem Proper.take (h : a.Proper) (ht : a.take s = .ok a') : a'.Proper := by
  obtain ⟨pending, opens, place⟩ := s
  cases opens with
  | true =>
    have hsound := h.sound.take ht
    rw [take_opens] at ht
    split at ht
    · obtain rfl := Except.ok.inj ht
      exact ⟨hsound, List.forall_mem_cons.mpr ⟨isImport_nodeOf _ _, h.blocks⟩, h.sheet⟩
    · exact absurd ht (by simp)
  | false =>
    obtain ⟨_ | ⟨n, outer⟩, sheet⟩ := a
    · exact absurd ht (by simp [Assembly.take])
    · obtain rfl : Assembly.attach ⟨outer, sheet⟩ (closed pending n) = a' := by
        simpa [Assembly.take] using ht
      obtain ⟨hn, hblocks⟩ := List.forall_mem_cons.mp h.blocks
      have houter : Proper ⟨outer, sheet⟩ :=
        ⟨fun m hm => h.sound m (List.mem_of_mem_tail hm), hblocks, h.sheet⟩
      exact houter.attach ((isImport_closed pending n).trans hn)

/-- Whatever segments are taken in, the assembly stays proper. -/
theorem Proper.build {input : Text} : ∀ {segments : List Segment} {a a' : Assembly}, a.Proper →
    a.build input segments = .ok a' → a'.Proper
  | [], a, a', h, hb => by
    obtain rfl : a = a' := by simpa [Assembly.build] using hb
    exact h
  | s :: ss, a, a', h, hb => by
    rw [Assembly.build] at hb
    split at hb
    · rename_i next hnext
      exact (h.take hnext).build hb
    · exact absurd hb (by simp)

/-- No node of the sheet is an import statement. -/
theorem Proper.isImport_of_sheet {cs : List Node} (h : a.Proper) (hsheet : a.sheet = .block 0 [] .sheet 0 cs) :
    ∀ c ∈ cs, c.isImport = false := by
  obtain ⟨ds, hds, himports⟩ := h.sheet
  obtain rfl : cs = ds := by injection hsheet.symm.trans hds
  exact himports

/-- An open block with a block inside holds nodes. -/
theorem Proper.parent_eq_block {parent : Node} {outer : List Node} (h : a.Proper)
    (hstack : a.stack = n :: parent :: outer) : ∃ line origin head reduced children,
      parent = .block line origin head reduced children := by
  have hkind : parent.kind ≠ .rule := h.sound parent (by rw [hstack]; exact List.mem_cons_self)
  have himport : parent.isImport = false := h.blocks parent (by simp [hstack])
  cases parent with
  | rule line origin selectors declarations => exact absurd rfl hkind
  | importStatement line origin statement => exact absurd himport (by simp [Node.isImport])
  | block line origin head reduced children => exact ⟨_, _, _, _, _, rfl⟩

end Lookahead.Assembly

/-! ## Listings

  What is open is listed as begun, what is finished with its end; so taking in a segment adds its entry
  at the end of the listing, whatever the stack is. -/

namespace Node

mutual

/-- The entries of a node and of all below it. -/
def entries : Node → List Entry
  | rule line origin selectors declarations =>
    [.opened (rule line origin selectors []), .closed declarations]
  | importStatement line origin statement =>
    [.opened (importStatement line origin statement), .closed []]
  | block line origin head reduced children =>
    .opened (block line origin head reduced []) :: (entriesAll children ++ [.closed []])

/-- The entries of siblings. -/
def entriesAll : List Node → List Entry
  | [] => []
  | n :: ns => n.entries ++ entriesAll ns

end

/-- The entries of a block that is still open. -/
def begun : Node → List Entry
  | rule line origin selectors _ => [.opened (rule line origin selectors [])]
  | importStatement line origin statement => [.opened (importStatement line origin statement)]
  | block line origin head reduced children =>
    .opened (block line origin head reduced []) :: entriesAll children

theorem entriesAll_append (ms ns : List Node) :
    entriesAll (ms ++ ns) = entriesAll ms ++ entriesAll ns := by
  induction ms with
  | nil => rw [entriesAll]; rfl
  | cons m ms ih => rw [List.cons_append, entriesAll, entriesAll, ih, List.append_assoc]

theorem entriesAll_eq_flatMap (ns : List Node) : entriesAll ns = ns.flatMap entries := by
  induction ns with
  | nil => rw [entriesAll]; rfl
  | cons n ns ih => rw [entriesAll, ih]; rfl

/-- A node that is seen lists what is seen of its entries. -/
theorem entries_seen (w : View) (n : Node) : (n.seen w).entries = n.entries.map (Entry.seen w) := by
  induction n using Node.ind with
  | rule line origin selectors declarations =>
    rw [seen_rule, entries, entries]
    simp only [List.map_cons, List.map_nil, Entry.seen, seen_rule]
  | importStatement line origin statement =>
    rw [seen_importStatement, entries, entries]
    simp only [List.map_cons, List.map_nil, Entry.seen, seen_importStatement]
  | block line origin head reduced children ih =>
    have hchildren : (children.map (seen w)).flatMap entries =
        (children.flatMap entries).map (Entry.seen w) := by
      rw [List.flatMap_map, List.map_flatMap]
      exact List.flatMap_congr ih
    rw [seen_block, entries, entries, entriesAll_eq_flatMap, entriesAll_eq_flatMap, hchildren]
    simp only [List.map_cons, List.map_append, List.map_nil, Entry.seen, seen_block]

/-- Siblings that are seen in a view enter what they enter, seen in it. -/
theorem entriesAll_seen (w : View) (ns : List Node) :
    entriesAll (ns.map (seen w)) = (entriesAll ns).map (Entry.seen w) := by
  rw [entriesAll_eq_flatMap, entriesAll_eq_flatMap, List.flatMap_map, List.map_flatMap]
  exact List.flatMap_congr fun n _ => entries_seen w n

theorem entriesAll_singleton (n : Node) : entriesAll [n] = n.entries := by
  rw [entriesAll, entriesAll, List.append_nil]

/-- A block with nothing inside has begun. -/
theorem begun_nodeOf (header : Text) (line : Nat) :
    (Blocks.nodeOf header line).begun = [.opened (Blocks.nodeOf header line)] := by
  unfold Blocks.nodeOf
  split
  · rw [begun, entriesAll]
  · rfl

end Node

namespace Lookahead.Assembly

variable {a a' : Assembly} {s : Segment}

/-- The entries of an assembly: those of the sheet, and of the open blocks from the outside in. -/
def listing (a : Assembly) : List Entry :=
  Node.entriesAll a.sheet.children ++ (a.stack.map Node.begun).reverse.flatten

/-- Outside of all blocks the listing is that of the sheet. -/
theorem listing_nil (sheet : Node) : listing ⟨[], sheet⟩ = Node.entriesAll sheet.children :=
  List.append_nil _

/-- The innermost block is listed last. -/
theorem listing_cons (n : Node) (outer : List Node) (sheet : Node) :
    listing ⟨n :: outer, sheet⟩ = listing ⟨outer, sheet⟩ ++ n.begun := by
  simp [listing]

/-- A finished node adds its entries. -/
theorem listing_attach {n m : Node} {outer : List Node} {sheet : Node}
    (h : Proper ⟨m :: outer, sheet⟩) :
    (attach ⟨outer, sheet⟩ n).listing = listing ⟨outer, sheet⟩ ++ n.entries := by
  cases outer with
  | nil =>
    obtain ⟨cs, hsheet, -⟩ := h.sheet
    obtain rfl : sheet = .block 0 [] .sheet 0 cs := hsheet
    show listing ⟨[], .block 0 [] .sheet 0 (cs ++ [n])⟩ = _
    rw [listing_nil, listing_nil]
    exact (Node.entriesAll_append cs [n]).trans (by rw [Node.entriesAll_singleton]; rfl)
  | cons parent outer =>
    obtain ⟨line, origin, head, reduced, children, rfl⟩ := h.parent_eq_block rfl
    show listing ⟨.block line origin head reduced (children ++ [n]) :: outer, sheet⟩ = _
    rw [listing_cons, listing_cons, Node.begun, Node.begun, Node.entriesAll_append,
      Node.entriesAll_singleton, List.append_assoc, List.cons_append]

/-- A block that ends adds its end to what it has begun; of a rule with the declarations that the pending
text holds. -/
theorem entries_closed {n : Node} (pending : Text) (hn : n.isImport = false) :
    (closed pending n).entries =
      n.begun ++ [.closed (if n.kind = .rule then Text.items ';' pending else [])] := by
  cases n with
  | rule line origin selectors declarations => rw [closed, Node.entries]; rfl
  | importStatement line origin statement => exact absurd hn (by simp [Node.isImport])
  | block line origin head reduced children =>
    rw [if_neg (Node.kind_block_ne_rule line origin head reduced children), closed, Node.entries,
      Node.begun]
    rfl

/-- Taking in a segment adds its entry. -/
theorem listing_take (h : a.Proper) (ht : a.take s = .ok a') :
    a'.listing = a.listing ++ [s.entry a.inRule] := by
  obtain ⟨pending, opens, place⟩ := s
  cases opens with
  | true =>
    rw [take_opens] at ht
    split at ht
    · obtain rfl := Except.ok.inj ht
      rw [listing_cons, Node.begun_nodeOf]
      rfl
    · exact absurd ht (by simp)
  | false =>
    obtain ⟨_ | ⟨n, outer⟩, sheet⟩ := a
    · exact absurd ht (by simp [Assembly.take])
    · obtain rfl : Assembly.attach ⟨outer, sheet⟩ (closed pending n) = a' := by
        simpa [Assembly.take] using ht
      have hn : n.isImport = false := h.blocks n List.mem_cons_self
      have hrule : inRule ⟨n :: outer, sheet⟩ = decide (n.kind = .rule) := Bool.not_not _
      rw [listing_attach h, entries_closed pending hn, listing_cons, List.append_assoc, hrule]
      simp [Segment.entry]

/-- What is built from segments lists their entries. -/
theorem listing_build {input : Text} : ∀ {segments : List Segment} {a a' : Assembly}, a.Proper →
    a.build input segments = .ok a' → a'.listing = a.listing ++ entries a.inRule segments
  | [], a, a', _, hb => by
    obtain rfl : a = a' := by simpa [Assembly.build] using hb
    exact (List.append_nil _).symm
  | s :: ss, a, a', h, hb => by
    rw [Assembly.build] at hb
    split at hb
    · rename_i next hnext
      rw [listing_build (h.take hnext) hb, listing_take h hnext, inRule_of_take h.sound hnext, entries,
        List.append_assoc]
      rfl
    · exact absurd hb (by simp)

/-- The sheet that is built from all segments of a text lists their entries. -/
theorem entries_of_build {input : Text} {segments : List Segment} {sheet : Node}
    (hb : build input {} segments = .ok ⟨[], sheet⟩) :
    Node.entriesAll sheet.children = entries false segments := by
  have h := listing_build proper_start hb
  rw [listing_nil] at h
  rw [h, listing, Node.emptySheet]
  show Node.entriesAll [] ++ [] ++ entries false segments = _
  rw [Node.entriesAll]
  rfl

end Lookahead.Assembly

/-! ## Two builds

  The views may forget lines, blanks or words; what they must not forget is where a rule is open. -/

namespace Lookahead.Assembly

variable {w w' : View} {before : List Node} {a a' : Assembly} {e e' : Entry} {n n' : Node}

/-- The assemblies agree in two views, apart from nodes `before` at the front of the second sheet. -/
structure Matched (w w' : View) (before : List Node) (a a' : Assembly) : Prop where
  stack : a.stack.map (Node.seen w) = a'.stack.map (Node.seen w')
  sheet : ∃ cs cs', a.sheet = .block 0 [] .sheet 0 cs ∧ a'.sheet = .block 0 [] .sheet 0 (before ++ cs') ∧
    cs.map (Node.seen w) = cs'.map (Node.seen w')

/-- Assemblies that match are both inside of a rule or both are not. -/
theorem Matched.inRule (h : Matched w w' before a a') : a.inRule = a'.inRule := by
  have hstack := h.stack
  rcases a with ⟨_ | ⟨n, outer⟩, sheet⟩ <;> rcases a' with ⟨_ | ⟨n', outer'⟩, sheet'⟩
  · rfl
  · exact absurd hstack (by simp)
  · exact absurd hstack (by simp)
  · have hkind : n.kind = n'.kind := by
      rw [← Node.kind_seen w n, ← Node.kind_seen w' n', (List.cons.inj hstack).1]
    simp [Assembly.inRule, mayOpen, hkind]

/-- Nodes that are seen alike may be attached to assemblies that match. -/
theorem Matched.attach (h : Matched w w' before a a') (hn : n.seen w = n'.seen w') :
    Matched w w' before (a.attach n) (a'.attach n') := by
  obtain ⟨hstack, cs, cs', hsheet, hsheet', hcs⟩ := h
  rcases a with ⟨_ | ⟨parent, outer⟩, sheet⟩ <;> rcases a' with ⟨_ | ⟨parent', outer'⟩, sheet'⟩
  · refine ⟨rfl, cs ++ [n], cs' ++ [n'], congrArg (Node.push · n) hsheet, ?_, by simp [hcs, hn]⟩
    rw [← List.append_assoc]
    exact congrArg (Node.push · n') hsheet'
  · exact absurd hstack (by simp)
  · exact absurd hstack (by simp)
  · obtain ⟨hparent, houter⟩ := List.cons.inj hstack
    refine ⟨?_, cs, cs', hsheet, hsheet', hcs⟩
    show (parent.push n).seen w :: outer.map _ = (parent'.push n').seen w' :: outer'.map _
    rw [Node.seen_push, Node.seen_push, hparent, hn, houter]

/-- What may come of two steps: assemblies that match, or one and the same fault. -/
def Both (P : Assembly → Assembly → Prop) : Except Fault Assembly → Except Fault Assembly → Prop
  | .ok a, .ok a' => P a a'
  | .error fault, .error fault' => fault = fault'
  | _, _ => False

/-- Entries that agree keep assemblies matching. -/
theorem Matched.enter (h : Matched w w' before a a') (he : e.seen w = e'.seen w') :
    Both (Matched w w' before) (a.enter e) (a'.enter e') := by
  cases e with
  | opened n =>
    cases e' with
    | closed declarations => exact absurd he (by simp [Entry.seen])
    | opened n' =>
      have hn : n.seen w = n'.seen w' := by simpa [Entry.seen] using he
      have hmay : mayOpen a.stack = mayOpen a'.stack := Bool.not_inj h.inRule
      -- Both assemblies test the same flag, for the flags only see the kinds on the stacks.
      rw [Assembly.enter, Assembly.enter, ← hmay]
      split
      · exact ⟨by simp [hn, h.stack], h.sheet⟩
      · rfl
  | closed declarations =>
    cases e' with
    | opened n => exact absurd he (by simp [Entry.seen])
    | closed declarations' =>
      have hd : declarations.map w.onText = declarations'.map w'.onText := by
        simpa [Entry.seen] using he
      have hstack := h.stack
      rcases a with ⟨_ | ⟨n, outer⟩, sheet⟩ <;> rcases a' with ⟨_ | ⟨n', outer'⟩, sheet'⟩
      · rfl
      · exact absurd hstack (by simp)
      · exact absurd hstack (by simp)
      · obtain ⟨hn, houter⟩ := List.cons.inj hstack
        have hmatched : Matched w w' before ⟨outer, sheet⟩ ⟨outer', sheet'⟩ := ⟨houter, h.sheet⟩
        refine hmatched.attach ?_
        rw [Node.seen_withDeclarations, Node.seen_withDeclarations, hn, hd]

/-- Builds from matching assemblies give matching assemblies, or fail at corresponding segments. -/
theorem Matched.build (input input' : Text) {R : Position → Position → Prop} {ss ss' : List Segment}
    (h : Matched w w' before a a') (hs : a.Sound) (hs' : a'.Sound)
    (hplaces : List.Forall₂ (fun s s' => R s.place s'.place) ss ss')
    (he : (entries a.inRule ss).map (Entry.seen w) = (entries a'.inRule ss').map (Entry.seen w')) :
    (∃ b b', a.build input ss = .ok b ∧ a'.build input' ss' = .ok b' ∧ Matched w w' before b b') ∨
      ∃ fault p p', R p p' ∧ a.build input ss = .error (.locate fault input p.index p.line) ∧
        a'.build input' ss' = .error (.locate fault input' p'.index p'.line) := by
  -- Along the two lists of segments at once: either both assemblies take the front one and go on,
  -- or both fail at it with one fault, at places that are related.
  induction hplaces generalizing a a' with
  | nil => exact .inl ⟨a, a', rfl, rfl, h⟩
  | @cons s s' ss ss' hplace _ ih =>
    obtain ⟨hentry, hrest⟩ := List.cons.inj he
    have hstep := h.enter hentry
    rw [← take_eq_enter, ← take_eq_enter] at hstep
    rw [Assembly.build, Assembly.build]
    cases ht : a.take s with
    | error fault =>
      cases ht' : a'.take s' with
      | error fault' =>
        rw [ht, ht'] at hstep
        obtain rfl : fault = fault' := hstep
        exact .inr ⟨fault, s.place, s'.place, hplace, rfl, rfl⟩
      | ok next' => rw [ht, ht'] at hstep; exact hstep.elim
    | ok next =>
      cases ht' : a'.take s' with
      | error fault' => rw [ht, ht'] at hstep; exact hstep.elim
      | ok next' =>
        rw [ht, ht'] at hstep
        -- The flag the listing carries is the one the assemblies reached.
        rw [← inRule_of_take hs ht, ← inRule_of_take hs' ht'] at hrest
        exact ih hstep (hs.take ht) (hs'.take ht') hrest

end Lookahead.Assembly

/-! ## Two answers

  A reading is a fault or a list of segments with statements, and either may be moved or seen
  differently. -/

namespace Lookahead.Reading

variable {w w' : View} {before : List Node} {R : Position → Position → Prop} {r r' : Reading}

/-- Two readings have entries that agree in two views, at places that correspond, and end alike. -/
structure Agree (w w' : View) (R : Position → Position → Prop) (inRule : Bool) (r r' : Reading) :
    Prop where
  places : List.Forall₂ (fun s s' => R s.place s'.place) r.segments r'.segments
  entries : (entries inRule r.segments).map (Entry.seen w) =
    (Lookahead.entries inRule r'.segments).map (Entry.seen w')
  ending : r.ending = r'.ending
  place : R r.place r'.place

/-- What agrees in two views agrees in all that these views show. -/
theorem Agree.andThen {inRule : Bool} (v : View) (h : Agree w w' R inRule r r') :
    Agree (w.andThen v) (w'.andThen v) R inRule r r' := by
  refine { h with entries := ?_ }
  have hentries := congrArg (List.map (Entry.seen v)) h.entries
  rw [List.map_map, List.map_map] at hentries
  simpa only [Function.comp_def, Entry.seen_seen] using hentries

/-- Import statements found before do not count. -/
theorem Agree.after {inRule : Bool} (h : Agree w w' R inRule r r') (records records' : List ImportRecord) :
    Agree w w' R inRule (r.after records) (r'.after records') :=
  ⟨h.places, h.entries, h.ending, h.place⟩

/-- Places and pending texts from which the same lexemes make entries that agree. -/
structure Correspondence (w w' : View) (R : Position → Position → Prop) (ρ : Text → Text → Prop) :
    Prop where
  past : ∀ {p p' : Position} (t : Text), R p p' → R (p.past t) (p'.past t)
  of : ∀ {p p' : Position} (c : Char), R p p' → R (p.of c) (p'.of c)
  nil : ρ [] []
  append : ∀ {u u' : Text} (t : Text), ρ u u' → ρ (u ++ t) (u' ++ t)
  entry : ∀ {p p' : Position} {u u' : Text} (inRule opens : Bool), R p p' → ρ u u' →
    (Segment.entry inRule ⟨u, opens, p⟩).seen w = (Segment.entry inRule ⟨u', opens, p'⟩).seen w'

/-- Lexemes that are read from places and pending texts that correspond. -/
theorem Correspondence.agree {ρ : Text → Text → Prop} (h : Correspondence w w' R ρ) :
    ∀ (ls : List Lexeme) {p p' : Position} {u u' : Text} (inRule : Bool), R p p' → ρ u u' →
      Agree w w' R inRule (Reading.of p u ls) (Reading.of p' u' ls)
  | [], _, _, _, _, _, hplace, _ => ⟨.nil, rfl, rfl, hplace⟩
  | l :: ls, p, p', u, u', inRule, hplace, hpending => by
    have hpast := h.past l.text hplace
    -- By the front lexeme. Only a brace makes an entry and changes the flag; the others move the
    -- place and the pending text.
    cases l with
    | plain c => exact h.agree ls inRule hpast (h.append [c] hpending)
    | literal t => exact h.agree ls inRule hpast (h.append t hpending)
    | comment t => exact h.agree ls inRule hpast h.nil
    | statement t =>
      have ih := h.agree ls inRule hpast hpending
      exact ⟨ih.places, ih.entries, ih.ending, ih.place⟩
    | brace opens =>
      have hentry := h.entry inRule opens hplace hpending
      have hrule : Segment.opensRule ⟨u, opens, p⟩ = Segment.opensRule ⟨u', opens, p'⟩ :=
        opensRule_of_entry hentry
      have ih := h.agree ls (Segment.opensRule ⟨u, opens, p⟩) hpast h.nil
      refine ⟨.cons hplace ih.places, ?_, ih.ending, ih.place⟩
      show _ :: _ = _ :: (Lookahead.entries (Segment.opensRule ⟨u', opens, p'⟩) _).map _
      rw [hentry, ← hrule]
      exact congrArg _ ih.entries
    | unclosed t => exact ⟨.nil, rfl, rfl, hpast⟩
    | openStatement t => exact ⟨.nil, rfl, rfl, hpast⟩
    | faulty before offending fault => exact ⟨.nil, rfl, rfl, h.of offending hpast⟩

/-- The import statements of lexemes that are read from corresponding places. -/
theorem Correspondence.statements {ρ : Text → Text → Prop} (h : Correspondence w w' R ρ) :
    ∀ (ls : List Lexeme) {p p' : Position} (u u' : Text), R p p' →
      List.Forall₂ (fun r r' => r.statement = r'.statement ∧
          ∃ q q' : Position, R q q' ∧ r.line = q.line ∧ r'.line = q'.line)
        (Reading.of p u ls).statements (Reading.of p' u' ls).statements
  | [], _, _, _, _, _ => .nil
  | l :: ls, p, p', u, u', hplace => by
    have hpast := h.past l.text hplace
    cases l with
    | plain c => exact h.statements ls _ _ hpast
    | literal t => exact h.statements ls _ _ hpast
    | comment t => exact h.statements ls _ _ hpast
    | brace opens => exact h.statements ls _ _ hpast
    | statement t => exact .cons ⟨rfl, p.past t, p'.past t, hpast, rfl, rfl⟩ (h.statements ls u u' hpast)
    | unclosed t => exact .nil
    | openStatement t => exact .nil
    | faulty before offending fault => exact .nil

/-- What two answers are like that agree in two views: sheets with nodes that agree, or one fault at
corresponding places. -/
def Answers (w w' : View) (R : Position → Position → Prop) (before : List Node) (r r' : Reading)
    (input input' : Text) (x x' : Except Failure Node) : Prop :=
  (∃ cs cs', x = .ok (.block 0 [] .sheet 0 (cs ++ r.statements.map ImportRecord.node)) ∧
      x' = .ok (.block 0 [] .sheet 0 (before ++ cs' ++ r'.statements.map ImportRecord.node)) ∧
      (∀ c ∈ cs, c.isImport = false) ∧ cs.map (Node.seen w) = cs'.map (Node.seen w')) ∨
    ∃ fault p p', R p p' ∧ x = .error (.locate fault input p.index p.line) ∧
      x' = .error (.locate fault input' p'.index p'.line)

/-- At the end of the text blocks are open in both assemblies or in none. -/
theorem Agree.conclude {input input' : Text} {a a' : Assembly} {inRule : Bool}
    (h : Agree w w' R inRule r r') (hmatched : Assembly.Matched w w' before a a') (ha : a.Proper) :
    Answers w w' R before r r' input input' (r.conclude input a) (r'.conclude input' a') := by
  obtain ⟨hstack, cs, cs', hsheet, hsheet', hcs⟩ := hmatched
  have himports := ha.isImport_of_sheet hsheet
  have hending := h.ending
  obtain ⟨stack, sheet⟩ := a
  obtain ⟨stack', sheet'⟩ := a'
  obtain rfl : sheet = .block 0 [] .sheet 0 cs := hsheet
  obtain rfl : sheet' = .block 0 [] .sheet 0 (before ++ cs') := hsheet'
  -- Nothing left open: the ending decides. Otherwise only the fault differs, and it is reported
  -- where the readings ended.
  rw [Reading.conclude, Reading.conclude, ← hending]
  cases stack with
  | nil =>
    obtain rfl : stack' = [] := List.map_eq_nil_iff.mp hstack.symm
    cases r.ending with
    | complete =>
      refine .inl ⟨cs, cs', ?_, ?_, himports, hcs⟩
      · exact congrArg Except.ok (withStatements_block r.statements cs)
      · exact congrArg Except.ok (withStatements_block r'.statements (before ++ cs'))
    | openStatement => exact .inr ⟨.missingSemicolon, _, _, h.place, rfl, rfl⟩
    | faulty fault => exact .inr ⟨fault, _, _, h.place, rfl, rfl⟩
  | cons n outer =>
    cases stack' with
    | nil => exact absurd hstack (by simp)
    | cons n' outer' =>
      cases r.ending with
      | complete => exact .inr ⟨.unbalancedBraces, _, _, h.place, rfl, rfl⟩
      | openStatement => exact .inr ⟨.unbalancedBraces, _, _, h.place, rfl, rfl⟩
      | faulty fault => exact .inr ⟨fault, _, _, h.place, rfl, rfl⟩

/-- Readings that agree give answers that agree. -/
theorem Agree.answer (input input' : Text) {a a' : Assembly}
    (h : Agree w w' R a.inRule r r') (hmatched : Assembly.Matched w w' before a a') (ha : a.Proper)
    (ha' : a'.Proper) :
    Answers w w' R before r r' input input' (r.answer input a) (r'.answer input' a') := by
  have hentries := h.entries
  conv at hentries => rhs; rw [hmatched.inRule]
  rcases hmatched.build input input' ha.sound ha'.sound h.places hentries with
    ⟨b, b', hb, hb', hend⟩ | ⟨fault, p, p', hR, hb, hb'⟩
  · rw [Reading.answer, Reading.answer, hb, hb']
    exact h.conclude hend (ha.build hb)
  · rw [Reading.answer, Reading.answer, hb, hb']
    exact .inr ⟨fault, p, p', hR, rfl, rfl⟩

end Lookahead.Reading

/-! ## Two trees

  The other direction: the entries can be recovered from the tree. -/

namespace Node

open Lookahead

variable {text text' : Text} {tree tree' : Node} {w : View}

/-- Trees that are seen alike list entries that are seen alike. -/
theorem entries_of_seen_eq (h : parse text = .ok tree) (h' : parse text' = .ok tree')
    (hstatements : ((Reading.ofText text).statements.map ImportRecord.node).map (seen w) =
      ((Reading.ofText text').statements.map ImportRecord.node).map (seen w))
    (hseen : tree.seen w = tree'.seen w) :
    (Lookahead.entries false (Reading.ofText text).segments).map (Entry.seen w) =
      (Lookahead.entries false (Reading.ofText text').segments).map (Entry.seen w) := by
  obtain ⟨sheet, hbuild, -, rfl⟩ := reading_of_parse h
  obtain ⟨sheet', hbuild', -, rfl⟩ := reading_of_parse h'
  obtain ⟨cs, rfl, -⟩ := (Assembly.proper_start.build hbuild).sheet
  obtain ⟨cs', rfl, -⟩ := (Assembly.proper_start.build hbuild').sheet
  rw [Reading.withStatements_block, Reading.withStatements_block, seen_block, seen_block,
    List.map_append, List.map_append, hstatements] at hseen
  have hnodes : cs.map (seen w) = cs'.map (seen w) := by
    injection hseen with _ _ _ _ hchildren
    exact List.append_cancel_right hchildren
  rw [← Assembly.entries_of_build hbuild, ← Assembly.entries_of_build hbuild', ← entriesAll_seen,
    ← entriesAll_seen]
  exact congrArg entriesAll hnodes

/-- If one text has a tree, a text whose reading agrees has a tree that is seen alike. -/
theorem seen_eq_of_agree (h : parse text = .ok tree)
    (hagree : Reading.Agree w w (fun _ _ => True) false (Reading.ofText text) (Reading.ofText text'))
    (hstatements : ((Reading.ofText text).statements.map ImportRecord.node).map (seen w) =
      ((Reading.ofText text').statements.map ImportRecord.node).map (seen w)) :
    ∃ tree', parse text' = .ok tree' ∧ tree.seen w = tree'.seen w := by
  have hmatched : Assembly.Matched w w [] {} {} := ⟨rfl, [], [], rfl, rfl, rfl⟩
  have hanswers := hagree.answer text text' hmatched Assembly.proper_start Assembly.proper_start
  have hread : parse text = (Reading.ofText text).answer text {} := Scan.State.agrees_start text
  have hread' : parse text' = (Reading.ofText text').answer text' {} := Scan.State.agrees_start text'
  rw [← hread, ← hread'] at hanswers
  rcases hanswers with ⟨cs, cs', hok, hok', -, hcs⟩ | ⟨fault, q, q', -, herror, -⟩
  · rw [List.nil_append] at hok'
    refine ⟨_, hok', ?_⟩
    rw [← Except.ok.inj (hok.symm.trans h), seen_block, seen_block, List.map_append, List.map_append,
      hstatements, hcs]
  · exact absurd (herror.symm.trans h) (by simp)

end Node

end StyleFold
