/-
  Stack — the open blocks never lose a node.

  The stack of open blocks, its depth and the flag that lets a block open tell the same thing and are
  written in different places.  A rule or an import takes no child, and `push` leaves it as it is without
  a word: were the three to fall out of step, a whole subtree would be dropped and no fault raised.

  1. **At-rules** — what a block begins as.
  2. **In step** — `Blocks.InStep`: the three agree, and only the innermost open block can be a rule.
     Either brace keeps it, and so the node that a closed block is appended to always takes it.
  3. **Population** — the nodes below the sheet and on the stack.  An opening brace adds one, a closing
     brace adds and drops none.
  4. **Every scan** — the blocks are in step at every stage, and the finished tree has a node for every
     block that was opened and for every import statement.
-/
import StyleFold.Proofs.Scan.Stages

namespace StyleFold

/-! ## At-rules

  A header opens an at-rule or a rule, and nothing else is ever on the stack. -/

namespace Node

variable {n : Node}

/-- Whether the node is an at-rule block. -/
def IsAtRule (n : Node) : Prop := ∃ kind : AtKind, n.kind = kind.toKind

theorem IsAtRule.isContainer (h : n.IsAtRule) : n.kind.isContainer = true := by
  obtain ⟨kind, hkind⟩ := h
  rw [hkind]
  cases kind <;> rfl

theorem IsAtRule.kind_ne_rule (h : n.IsAtRule) : n.kind ≠ .rule := by
  obtain ⟨kind, hkind⟩ := h
  rw [hkind]
  cases kind <;> decide

/-- A child does not make an at-rule anything else. -/
theorem IsAtRule.push (h : n.IsAtRule) (child : Node) : (n.push child).IsAtRule := by
  obtain ⟨kind, hkind⟩ := h
  exact ⟨kind, (kind_push n child).trans hkind⟩

end Node

namespace Blocks

variable {b b' : Blocks} {pending : Text} {line : Nat} {n : Node} {outer : List Node}

/-- A block begins as an at-rule or as a rule. -/
theorem nodeOf_cases (header : Text) (line : Nat) :
    (nodeOf header line).IsAtRule ∨ (nodeOf header line).kind = .rule := by
  unfold nodeOf
  split
  · rename_i kind _
    exact .inl ⟨kind, rfl⟩
  · exact .inr rfl

/-- A block begins with nothing below it. -/
theorem descendants_nodeOf (header : Text) (line : Nat) : (nodeOf header line).descendants = 0 := by
  unfold nodeOf
  split <;> simp [Node.descendants]

/-! ## In step

  Three fields for one fact, and how each brace moves them together. -/

/-- The stack, its depth and the flag that lets a block open agree. -/
structure InStep (b : Blocks) : Prop where
  /-- The depth is the number of open blocks. -/
  depth_eq : b.depth = b.stack.length
  /-- Every open block but the innermost is an at-rule. -/
  outer : ∀ n ∈ b.stack.tail, n.IsAtRule
  /-- The innermost is an at-rule or a rule. -/
  innermost : ∀ n, b.stack.head? = some n → n.IsAtRule ∨ n.kind = .rule
  /-- No block may open exactly while a rule is innermost. -/
  allowed : b.blockAllowed = false ↔ ∃ n, b.stack.head? = some n ∧ n.kind = .rule
  /-- What the outermost block is appended to is the sheet. -/
  sheet : b.sheet.kind = .root

/-- What a closing brace appends the closed block to: the block around it, or the sheet. -/
def receiver (b : Blocks) : Node := b.stack.tail.headD b.sheet

/-- At the start nothing is open, and a block may open. -/
theorem inStep_start : InStep {} where
  depth_eq := rfl
  outer _ h := absurd h List.not_mem_nil
  innermost _ h := absurd h (by simp)
  allowed := by simp
  sheet := rfl

/-- An opening brace that is no fault pushes what the pending text begins. -/
theorem openBlock_eq_ok (h : b.openBlock pending line = .ok b') : b.blockAllowed = true ∧
    b' = { b with
      depth := b.depth + 1
      blockAllowed := (nodeOf pending.tidy line).kind != .rule
      stack := nodeOf pending.tidy line :: b.stack } := by
  unfold openBlock at h
  split at h
  · rename_i hallowed
    exact ⟨hallowed, (Except.ok.inj h).symm⟩
  · exact absurd h (by simp)

/-- The blocks without the innermost: behind a rule a block may open again. -/
def pop (b : Blocks) (n : Node) (outer : List Node) : Blocks :=
  { b with depth := b.depth - 1, blockAllowed := n.kind == .rule || b.blockAllowed, stack := outer }

/-- A closing brace that is no fault takes the innermost block off the stack and attaches it. -/
theorem closeBlock_eq_ok (h : b.closeBlock pending = .ok b') : ∃ n outer, b.stack = n :: outer ∧
    b' = (b.pop n outer).attach (Lookahead.Assembly.closed pending n) := by
  unfold closeBlock at h
  split at h
  · exact absurd h (by simp)
  · rename_i line origin selectors declarations outer hstack
    exact ⟨_, outer, hstack, (Except.ok.inj h).symm⟩
  · rename_i n outer hrule hstack
    have hn : n.kind ≠ .rule := fun hkind => by
      obtain ⟨line, origin, selectors, declarations, rfl⟩ := Node.exists_rule hkind
      exact hrule line origin selectors declarations rfl
    have hclosed : Lookahead.Assembly.closed pending n = n := by
      cases n with
      | rule line origin selectors declarations => exact absurd rfl hn
      | importStatement line origin statement => rfl
      | block line origin head reduced children => rfl
    refine ⟨n, outer, hstack, ?_⟩
    rw [hclosed, pop, beq_eq_false_iff_ne.mpr hn, Bool.false_or]
    exact (Except.ok.inj h).symm

/-- The receiver takes the closed block as a further child. -/
theorem receiver_of_closeBlock (h : b.closeBlock pending = .ok b') : ∃ n, b.stack.head? = some n ∧
    b'.stack.headD b'.sheet = b.receiver.push (Lookahead.Assembly.closed pending n) := by
  obtain ⟨n, outer, hstack, rfl⟩ := closeBlock_eq_ok h
  refine ⟨n, by simp [hstack], ?_⟩
  rw [receiver, hstack]
  cases outer <;> rfl

namespace InStep

/-- Where a block may open, every open block is an at-rule. -/
theorem all_isAtRule (h : b.InStep) (hallowed : b.blockAllowed = true) :
    ∀ n ∈ b.stack, n.IsAtRule := by
  intro n hn
  cases hstack : b.stack with
  | nil => exact absurd hn (by simp [hstack])
  | cons m outer =>
    have hm : m.IsAtRule := (h.innermost m (by simp [hstack])).resolve_right fun hrule => by
      have := h.allowed.mpr ⟨m, by simp [hstack], hrule⟩
      simp [hallowed] at this
    rw [hstack] at hn
    rcases List.mem_cons.mp hn with rfl | hn
    · exact hm
    · exact h.outer n (by simpa [hstack] using hn)

/-- An opening brace keeps the blocks in step: a block opens only where none of the open ones is a
rule. -/
theorem openBlock (h : b.InStep) (hb : b.openBlock pending line = .ok b') : b'.InStep := by
  obtain ⟨hallowed, rfl⟩ := openBlock_eq_ok hb
  exact
    { depth_eq := congrArg (· + 1) h.depth_eq
      outer := h.all_isAtRule hallowed
      innermost := by
        rintro n ⟨⟩
        exact nodeOf_cases _ _
      allowed := by simp
      sheet := h.sheet }

/-- Behind a block that is taken off the stack, the innermost is an at-rule. -/
theorem pop (h : b.InStep) (hstack : b.stack = n :: outer) : (b.pop n outer).InStep := by
  have houter : ∀ m ∈ outer, m.IsAtRule := fun m hm => h.outer m (by simpa [hstack] using hm)
  have hhead : ∀ m, outer.head? = some m → m.IsAtRule := fun m hm =>
    houter m (List.mem_of_mem_head? hm)
  -- Closing a rule allows blocks again; closing anything else, they were allowed before.
  have hallowed : (b.pop n outer).blockAllowed = true := by
    by_cases hrule : n.kind = .rule
    · simp [Blocks.pop, hrule]
    · have : b.blockAllowed ≠ false := fun hfalse => by
        obtain ⟨m, hm, hkind⟩ := h.allowed.mp hfalse
        obtain rfl : n = m := by simpa [hstack] using hm
        exact hrule hkind
      exact Bool.or_eq_true_iff.mpr (.inr (Bool.ne_false_iff.mp this))
  exact
    { depth_eq := by simp [Blocks.pop, h.depth_eq, hstack]
      outer := fun m hm => houter m (List.mem_of_mem_tail hm)
      innermost := fun m hm => .inl (hhead m hm)
      allowed := by
        rw [hallowed]
        refine ⟨fun hfalse => absurd hfalse (by decide), ?_⟩
        rintro ⟨m, hm, hkind⟩
        exact absurd hkind (hhead m hm).kind_ne_rule
      sheet := h.sheet }

/-- Attaching a node changes no kind. -/
theorem attach (h : b.InStep) (node : Node) : (b.attach node).InStep := by
  obtain ⟨depth, blockAllowed, _ | ⟨parent, outer⟩, sheet⟩ := b
  · exact
      { depth_eq := h.depth_eq
        outer := h.outer
        innermost := h.innermost
        allowed := h.allowed
        sheet := (Node.kind_push sheet node).trans h.sheet }
  · have hparent := h.innermost parent rfl
    exact
      { depth_eq := h.depth_eq
        outer := h.outer
        innermost := by
          rintro n ⟨⟩
          exact hparent.imp (fun hp => hp.push node) (Node.kind_push parent node).trans
        allowed := by simpa [Blocks.attach, Node.kind_push] using h.allowed
        sheet := h.sheet }

/-- A closing brace keeps them in step: what is innermost behind it is an at-rule, or nothing. -/
theorem closeBlock (h : b.InStep) (hb : b.closeBlock pending = .ok b') : b'.InStep := by
  obtain ⟨n, outer, hstack, rfl⟩ := closeBlock_eq_ok hb
  exact (h.pop hstack).attach _

/-- A closed block is appended to a node that holds nodes. -/
theorem isContainer_receiver (h : b.InStep) : b.receiver.kind.isContainer = true := by
  rw [receiver]
  cases htail : b.stack.tail with
  | nil =>
    rw [List.headD_nil, h.sheet]
    rfl
  | cons parent outer =>
    rw [List.headD_cons]
    exact (h.outer parent (by simp [htail])).isContainer

/-- The depth that a closing brace lowers is not 0. -/
theorem depth_of_closeBlock (h : b.InStep) (hb : b.closeBlock pending = .ok b') :
    b.depth = b'.depth + 1 := by
  have h' := h.closeBlock hb
  obtain ⟨n, outer, hstack, rfl⟩ := closeBlock_eq_ok hb
  have hlength : ((b.pop n outer).attach (Lookahead.Assembly.closed pending n)).stack.length =
      outer.length := by
    cases outer <;> rfl
  rw [h.depth_eq, h'.depth_eq, hlength, hstack, List.length_cons]

end InStep

/-! ## Population

  What `push` may lose is counted: it loses nothing if the receiver holds nodes. -/

/-- Number of nodes below the sheet and on the stack. -/
def population (b : Blocks) : Nat := b.sheet.descendants + Node.population b.stack

/-- An opening brace adds one node. -/
theorem population_of_openBlock (hb : b.openBlock pending line = .ok b') :
    b'.population = b.population + 1 := by
  obtain ⟨-, rfl⟩ := openBlock_eq_ok hb
  simp only [population, Node.population_cons, descendants_nodeOf]
  omega

/-- An attached node is not lost if the innermost open block, or else the sheet, holds nodes. -/
theorem population_attach (h : (b.stack.headD b.sheet).kind.isContainer = true) (node : Node) :
    (b.attach node).population = b.population + (1 + node.descendants) := by
  obtain ⟨depth, blockAllowed, _ | ⟨parent, outer⟩, sheet⟩ := b
  · have hpush := Node.descendants_push (n := sheet) h node
    simp only [attach, population, hpush]
    omega
  · have hpush := Node.descendants_push (n := parent) h node
    simp only [attach, population, Node.population_cons, hpush]
    omega

/-- A block has as many nodes when it ends as it had before. -/
theorem descendants_closed (pending : Text) (n : Node) :
    (Lookahead.Assembly.closed pending n).descendants = n.descendants := by
  cases n <;> simp [Lookahead.Assembly.closed, Node.descendants]

/-- A closing brace moves a node from the stack into the node around it. -/
theorem InStep.population_of_closeBlock (h : b.InStep) (hb : b.closeBlock pending = .ok b') :
    b'.population = b.population := by
  obtain ⟨n, outer, hstack, rfl⟩ := closeBlock_eq_ok hb
  have hreceiver : (outer.headD b.sheet).kind.isContainer = true := by
    simpa [receiver, hstack] using h.isContainer_receiver
  rw [population_attach hreceiver, descendants_closed]
  show b.sheet.descendants + Node.population outer + (1 + n.descendants) = _
  rw [population, hstack, Node.population_cons]
  omega

end Blocks

/-! ## Every scan -/

namespace Scan.State

open Lookahead

variable {text t input : Text} {s s' : State} {c : Char}

/-- Only a brace that is handled changes the blocks. -/
theorem kept_inStep : Kept fun s => s.blocks.InStep where
  look _ h := h
  pollComments hpoll h := by
    obtain ⟨cursor, -, -, rfl⟩ := pollComments_eq_ok hpoll
    exact h
  pollImports hpoll h := by
    obtain ⟨cursor, -, -, rfl⟩ := pollImports_eq_ok hpoll
    exact h
  handle hhandle h := by
    cases handled_of_handle hhandle with
    | swallowed _ => exact h
    | pushed _ _ => exact h
    | opened _ hb => exact h.openBlock hb
    | closed hb => exact h.closeBlock hb
  settle _ _ h := h

/-- Whether reading the character opens a block. -/
def opens (s : State) (c : Char) : Bool :=
  match s.poll c with
  | .ok shown => shown.1.opensBlock c
  | .error _ => false

/-- Number of opening braces that open a block while a text is read. -/
def blocksOpened (s : State) : Text → Nat
  | [] => 0
  | c :: t =>
    match s.read c with
    | .ok next => (s.opens c).toNat + blocksOpened next t
    | .error _ => 0

/-- The filters leave the blocks alone. -/
theorem blocks_of_poll {shown : State × Bool × Bool} (h : s.poll c = .ok shown) :
    shown.1.blocks = s.blocks := by
  obtain ⟨marked, hcomments, himports⟩ := poll_eq_ok h
  obtain ⟨cursor, -, -, rfl⟩ := pollComments_eq_ok hcomments
  obtain ⟨cursor', -, -, hworded⟩ := pollImports_eq_ok himports
  rw [hworded]
  rfl

/-- One character adds a node exactly if it opens a block. -/
theorem population_of_read (h : s.blocks.InStep) (hread : s.read c = .ok s') :
    s'.blocks.population = s.blocks.population + (s.opens c).toNat := by
  obtain ⟨⟨worded, ends⟩, handled, hpoll, hhandle, rfl⟩ := read_eq_ok hread
  have hblocks : worded.blocks = s.blocks := blocks_of_poll hpoll
  have hopens : s.opens c = worded.opensBlock c := by rw [opens, hpoll]
  rw [hopens, ← hblocks]
  rw [← hblocks] at h
  show handled.blocks.population = _
  -- A node is pushed by an opening brace only; a closing one moves a node from the stack into its
  -- parent.
  cases handled_of_handle hhandle with
  | swallowed hfilter => simp [opensBlock, hfilter]
  | pushed hidle hc =>
    have hnot : worded.opensBlock c = false := by
      rcases hc with hquoted | ⟨hopen, -⟩
      · simp [opensBlock, hquoted]
      · simp [opensBlock, hopen]
    rw [hnot]
    rfl
  | opened hopen hb =>
    rw [hopen, Blocks.population_of_openBlock hb]
    rfl
  | closed hb => simp [opensBlock, h.population_of_closeBlock hb]

/-- A text adds a node for every block that it opens. -/
theorem population_of_run : ∀ {t : Text} {s s' : State}, s.blocks.InStep → run input s t = .ok s' →
    s'.blocks.population = s.blocks.population + s.blocksOpened t
  | [], s, s', _, hrun => by
    obtain rfl : s = s' := Except.ok.inj hrun
    rfl
  | c :: t, s, s', h, hrun => by
    obtain ⟨next, hread, hrest⟩ := run_cons_eq_ok hrun
    rw [population_of_run (kept_inStep.read hread h) hrest, population_of_read h hread,
      blocksOpened, hread]
    exact Nat.add_assoc _ _ _

/-- Statements do not change the kind of a sheet. -/
theorem kind_withStatements (sheet : Node) (records : List ImportRecord) :
    (Reading.withStatements sheet records).kind = sheet.kind := by
  induction records generalizing sheet with
  | nil => rfl
  | cons r records ih => exact (ih _).trans (Node.kind_push _ _)

/-- Every statement is a node of its own. -/
theorem descendants_withStatements {sheet : Node} (h : sheet.kind.isContainer = true)
    (records : List ImportRecord) :
    (Reading.withStatements sheet records).descendants = sheet.descendants + records.length := by
  induction records generalizing sheet with
  | nil => rfl
  | cons r records ih =>
    have hpush : (sheet.push (.importStatement r.line [] r.statement)).kind.isContainer = true := by
      rwa [Node.kind_push]
    show (Reading.withStatements (sheet.push _) records).descendants = _
    rw [ih hpush, Node.descendants_push h, List.length_cons]
    simp only [Node.descendants]
    omega

/-- The open blocks never lose a node.  At every stage of every scan the depth, the flag and the stack are
in step; a closing brace then lowers a depth that is not 0, appends the block to a node that holds
nodes, and drops none.  Once the scan is complete the statements are appended to the sheet one after
another, and the tree has a node for every block that was opened and for every statement. -/
theorem blocks_lose_no_node (text : Text) :
    (∀ stage s, Passes text stage s → s.blocks.InStep ∧
      s.blocks.receiver.kind.isContainer = true ∧
      ∀ pending b, s.blocks.closeBlock pending = .ok b →
        s.blocks.depth = b.depth + 1 ∧ b.population = s.blocks.population ∧
        ∃ n, s.blocks.stack.head? = some n ∧
          b.stack.headD b.sheet = s.blocks.receiver.push (Assembly.closed pending n)) ∧
    ∀ tree, Node.parse text = .ok tree → ∃ s, run text {} text = .ok s ∧
      (∀ k, (Reading.withStatements s.blocks.sheet
        (s.imports.records.take k)).kind.isContainer = true) ∧
      tree.descendants = blocksOpened {} text + s.imports.records.length := by
  constructor
  · intro stage s hpasses
    have h : s.blocks.InStep := kept_inStep.passes Blocks.inStep_start hpasses
    exact ⟨h, h.isContainer_receiver, fun pending b hb =>
      ⟨h.depth_of_closeBlock hb, h.population_of_closeBlock hb, Blocks.receiver_of_closeBlock hb⟩⟩
  · intro tree htree
    obtain ⟨s, hrun, hdepth, rfl⟩ := parse_eq_ok htree
    have h : s.blocks.InStep := kept_inStep.run hrun Blocks.inStep_start
    have hsheet : s.blocks.sheet.kind.isContainer = true := by
      rw [h.sheet]
      rfl
    refine ⟨s, hrun, fun k => by rwa [kind_withStatements], ?_⟩
    -- no block is open, so all nodes are below the sheet
    have hstack : s.blocks.stack = [] := List.eq_nil_of_length_eq_zero (h.depth_eq ▸ hdepth)
    have hpopulation := population_of_run Blocks.inStep_start hrun
    rw [Blocks.population, hstack, Node.population_nil, Nat.add_zero] at hpopulation
    have hstart : Blocks.population {} = 0 := by decide
    rw [descendants_withStatements hsheet, hpopulation, hstart, Nat.zero_add]

/-- A sheet with a rule in an at-rule, and an import statement behind it. -/
def nestedSheet : Text := "@media a\x7b.b\x7bx:1\x7d\x7d@import 'c';".toList

/-- Its tree. -/
def nestedTree : Node :=
  .block 0 [] .sheet 0
    [.block 1 [] (.atRule .media "@media a".toList) 0 [.rule 1 [] [".b".toList] ["x:1".toList]],
     .importStatement 1 [] "@import 'c';".toList]

/-- The scan before the rule is closed. -/
def stateInRule : State where
  cursor := ⟨15, 1, none, "x:1".toList⟩
  comments := ⟨false, ":1".toList⟩
  imports := ⟨none, "\x7b.b\x7bx:1".toList, []⟩
  blocks := ⟨2, false,
    [.rule 1 [] [".b".toList] [], .block 1 [] (.atRule .media "@media a".toList) 0 []], .emptySheet⟩

/-- Closing the rule of the nested sheet loses no node, and the tree has one for each block and one for
the import. -/
theorem nestedSheet_loses_no_node :
    (∃ b, stateInRule.blocks.closeBlock stateInRule.cursor.pending = .ok b ∧
      stateInRule.blocks.depth = b.depth + 1 ∧ b.population = stateInRule.blocks.population) ∧
    Node.parse nestedSheet = .ok nestedTree ∧ nestedTree.descendants = 3 := by
  have hfront : nestedSheet.take 15 <+: nestedSheet := List.take_prefix 15 nestedSheet
  have hrun : run nestedSheet {} (nestedSheet.take 15) = .ok stateInRule := by decide +kernel
  have hparse : Node.parse nestedSheet = .ok nestedTree := by decide +kernel
  obtain ⟨hstages, htree⟩ := blocks_lose_no_node nestedSheet
  obtain ⟨-, -, hclose⟩ := hstages .rest stateInRule (.rest hfront hrun)
  obtain ⟨s, hs, -, hdescendants⟩ := htree nestedTree hparse
  obtain ⟨hdepth, hpopulation, -⟩ := hclose stateInRule.cursor.pending _ rfl
  refine ⟨⟨_, rfl, hdepth, hpopulation⟩, hparse, ?_⟩
  have hrecords : (run nestedSheet {} nestedSheet).toOption.any
      (fun s => s.imports.records.length == 1) = true := by decide +kernel
  have hopened : blocksOpened {} nestedSheet = 2 := by decide +kernel
  rw [hs] at hrecords
  rw [hdescendants, hopened, beq_iff_eq.mp hrecords]

end Scan.State

end StyleFold
