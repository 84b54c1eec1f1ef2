/-
  Places — where a text is read, and what that says about the lines of its tree.

  Lines are counted by the scan in the order of the text, and the tree has them in the order of its
  nodes. What rises along the text rises along the tree as well, since a block is attached only behind
  everything that was finished before it opened.

  1. **Rising lines** — line numbers between two bounds that never fall.
  2. **Readings** — the braces of a reading rise from the line where it begins to the line where it ends,
     and so do its import statements (`Reading.rises`); a complete reading ends behind the whole text.
  3. **Ordered nodes** — nodes that no pass has touched, each on a line not before its block and not
     before its elder siblings.
  4. **Assemblies** — what is finished inside of an open block was finished before the next block inside
     of it opened.  Every segment keeps this (`Ordered.take`), so what is built is ordered.
-/
import StyleFold.Proofs.Lookahead.Legible
import StyleFold.Proofs.Tree.Levels

namespace StyleFold

/-! ## Rising lines

  Lists of lines between two bounds, to be put together at a line that is not behind the one and not
  before the other. -/

/-- Whether the lines never fall and stay between two bounds. -/
structure Rising (low high : Nat) (lines : List Nat) : Prop where
  sorted : lines.Pairwise (· ≤ ·)
  bounds : ∀ l ∈ lines, low ≤ l ∧ l ≤ high

namespace Rising

variable {low high l : Nat} {lines : List Nat}

theorem nil : Rising low high [] := ⟨List.Pairwise.nil, fun _ h => absurd h List.not_mem_nil⟩

theorem lower (h : Rising l high lines) (hlow : low ≤ l) : Rising low high lines :=
  ⟨h.sorted, fun m hm => ⟨hlow.trans (h.bounds m hm).1, (h.bounds m hm).2⟩⟩

theorem cons (hlow : low ≤ l) (hhigh : l ≤ high) (h : Rising l high lines) :
    Rising low high (l :: lines) where
  sorted := List.pairwise_cons.mpr ⟨fun m hm => (h.bounds m hm).1, h.sorted⟩
  bounds := List.forall_mem_cons.mpr ⟨⟨hlow, hhigh⟩, (h.lower hlow).bounds⟩

end Rising

/-! ## Readings

  Stage 1 of the reader counts lines forwards and never back. -/

namespace Lookahead

variable {p q : Position} {t body rest : Text}

/-- Reading on does not go back to an earlier line. -/
theorem Position.line_le_past (p : Position) (t : Text) : p.line ≤ (p.past t).line :=
  Nat.le_add_right _ _

namespace Reading

/-- Whether all lines of the reading lie between the line of a place and the line where it ends. -/
structure Rises (p : Position) (r : Reading) : Prop where
  place : p.line ≤ r.place.line
  segments : Rising p.line r.place.line (r.segments.map fun s => s.place.line)
  statements : Rising p.line r.place.line (r.statements.map ImportRecord.line)

/-- A reading that rises from a place rises from any place on a line before. -/
theorem Rises.lower {r : Reading} (h : r.Rises q) (hpq : p.line ≤ q.line) : r.Rises p :=
  ⟨hpq.trans h.place, h.segments.lower hpq, h.statements.lower hpq⟩

/-- A reading that finds nothing rises if it ends behind its place. -/
theorem rises_of_nothing {ending : Ending} (h : p.line ≤ q.line) : Rises p { ending, place := q } :=
  ⟨h, Rising.nil, Rising.nil⟩

/-- A reading goes forward through the text. -/
theorem rises : ∀ (ls : List Lexeme) (p : Position) (u : Text), (of p u ls).Rises p
  | [], p, _ => rises_of_nothing (Nat.le_refl p.line)
  | l :: ls, p, u => by
    have hpast := p.line_le_past l.text
    cases l with
    | plain c => exact (rises ls _ _).lower hpast
    | literal t => exact (rises ls _ _).lower hpast
    | comment t => exact (rises ls _ _).lower hpast
    | statement t =>
      have ih := rises ls (p.past t) u
      have hlower := ih.lower hpast
      exact ⟨hlower.place, hlower.segments, ih.statements.cons hpast ih.place⟩
    | brace opens =>
      have ih := (rises ls (p.past (Lexeme.brace opens).text) []).lower hpast
      exact ⟨ih.place, ih.segments.cons (Nat.le_refl p.line) ih.place, ih.statements⟩
    | unclosed t => exact rises_of_nothing hpast
    | openStatement t => exact rises_of_nothing hpast
    | faulty before offending fault =>
      exact rises_of_nothing (hpast.trans (Nat.le_add_right _ _))

/-- A reading that is complete ends behind the text. -/
theorem place_of_complete (t : Text) : ∀ {p : Position} {u : Text},
    (of p u (Lexeme.all t)).ending = .complete → (of p u (Lexeme.all t)).place = p.past t := by
  -- Lexeme by lexeme: those that end the reading otherwise are excluded, and every other one moves
  -- the place past its text.
  induction t using Lexeme.all_ind with
  | nil =>
    intro p u _
    rw [Lexeme.all_nil, Position.past_nil]
    rfl
  | @comment t body rest h ih =>
    intro p u hend
    rw [Lexeme.all_comment h] at hend ⊢
    refine (ih hend).trans ?_
    rw [Position.past_past, Lexeme.text, List.append_assoc, through?_append h]
  | @openComment t h =>
    intro p u _
    rw [Lexeme.all_openComment h]
    rfl
  | closeMark t =>
    intro p u hend
    rw [Lexeme.all_closeMark] at hend
    exact absurd hend (by simp [of])
  | @statement t body rest h ih =>
    intro p u hend
    rw [Lexeme.all_statement h] at hend ⊢
    refine (ih hend).trans ?_
    rw [Position.past_past, Lexeme.text, List.append_assoc, StatementEnd.append_of_closed h]
  | brokenStatement h =>
    intro p u hend
    rw [Lexeme.all_brokenStatement h] at hend
    exact absurd hend (by simp [of])
  | openStatement h =>
    intro p u hend
    rw [Lexeme.all_openStatement h] at hend
    exact absurd hend (by simp [of])
  | @literal c t body rest hm hq h ih =>
    intro p u hend
    rw [Lexeme.all_literal hm hq h] at hend ⊢
    refine (ih hend).trans ?_
    rw [Position.past_past, Lexeme.text, List.cons_append, through?_append h]
  | openLiteral hm hq h =>
    intro p u _
    rw [Lexeme.all_openLiteral hm hq h]
    rfl
  | brace opens t ih =>
    intro p u hend
    rw [Lexeme.all_brace] at hend ⊢
    refine (ih hend).trans ?_
    rw [Position.past_past]
    cases opens <;> rfl
  | @plain c t hm hq hopen hclose ih =>
    intro p u hend
    rw [Lexeme.all_plain hm hq hopen hclose] at hend ⊢
    refine (ih hend).trans ?_
    rw [Position.past_past]
    rfl

end Reading

end Lookahead

/-! ## Ordered nodes

  The tree side of the same: a node is not on a line before its block, nor before its elder siblings. -/

namespace Node

variable {n m : Node} {k high : Nat}

/-- Whether the node, and what it holds directly, may come out of a text with `high` lines: no pass has
touched it, and the lines rise. -/
structure InPlace (high : Nat) (n : Node) : Prop where
  origin : n.origin = []
  reduced : n.reduced = 0
  positive : 1 ≤ n.line
  bounded : n.line ≤ high
  below : ∀ c ∈ n.children, n.line ≤ c.line
  sorted : (n.children.map line).Pairwise (· ≤ ·)

/-- Whether the node and all below it are in their places. -/
def Ordered (high : Nat) (n : Node) : Prop := ∀ m ∈ n.preorder, m.InPlace high

theorem InPlace.mono (h : n.InPlace k) (hk : k ≤ high) : n.InPlace high :=
  { h with bounded := h.bounded.trans hk }

theorem Ordered.mono (h : n.Ordered k) (hk : k ≤ high) : n.Ordered high := fun m hm =>
  (h m hm).mono hk

/-- An ordered node is in its place. -/
theorem Ordered.inPlace (h : n.Ordered high) : n.InPlace high :=
  h n (preorder_eq n ▸ List.mem_cons_self)

/-- A rule that no pass has touched is ordered on any line of the text. -/
theorem ordered_rule {line : Nat} {selectors declarations : List Text} (hlow : 1 ≤ line)
    (hhigh : line ≤ high) : (rule line [] selectors declarations).Ordered high := by
  rw [Ordered, preorder, List.forall_mem_singleton]
  exact ⟨rfl, rfl, hlow, hhigh, fun _ hc => absurd hc List.not_mem_nil, List.Pairwise.nil⟩

/-- A block is ordered if it is in its place and its children are ordered. -/
theorem ordered_block_iff {line reduced : Nat} {origin : List Nat} {head : Head}
    {children : List Node} : (block line origin head reduced children).Ordered high ↔
      (block line origin head reduced children).InPlace high ∧ ∀ c ∈ children, c.Ordered high :=
  forall_mem_preorder_block

/-- The children of an ordered node are ordered. -/
theorem Ordered.child (h : n.Ordered high) (hm : m ∈ n.children) : m.Ordered high := by
  intro d hd
  refine h d ?_
  rw [preorder_eq]
  exact List.mem_cons_of_mem n (mem_preorderAll.mpr ⟨m, hm, hd⟩)

/-- Siblings of which the last stands on a later line than the others. -/
theorem pairwise_line_append {cs : List Node} (hcs : (cs.map line).Pairwise (· ≤ ·))
    (hn : ∀ c ∈ cs, c.line ≤ n.line) : ((cs ++ [n]).map line).Pairwise (· ≤ ·) := by
  rw [List.map_append, List.map_singleton, List.pairwise_append]
  refine ⟨hcs, List.pairwise_singleton _ _, fun l hl m hm => ?_⟩
  obtain ⟨c, hc, rfl⟩ := List.mem_map.mp hl
  exact List.mem_singleton.mp hm ▸ hn c hc

/-- A node whose lines are not behind the line of `m` may hold `m` as well. -/
theorem Ordered.push (h : n.Ordered k) (hm : m.Ordered high) (hk : k ≤ m.line) :
    (n.push m).Ordered high := by
  have hmono := h.mono (hk.trans hm.inPlace.bounded)
  cases n with
  | rule line origin selectors declarations => exact hmono
  | importStatement line origin statement => exact hmono
  | block line origin head reduced children =>
    have hplace := hmono.inPlace
    have hbelow : ∀ c ∈ children, c.line ≤ m.line := fun c hc =>
      (h.child hc).inPlace.bounded.trans hk
    have hline : line ≤ m.line := h.inPlace.bounded.trans hk
    rw [Node.push, ordered_block_iff]
    refine ⟨{ hplace with
      below := List.forall_mem_append.mpr ⟨hplace.below, List.forall_mem_singleton.mpr hline⟩
      sorted := pairwise_line_append hplace.sorted hbelow }, ?_⟩
    exact List.forall_mem_append.mpr
      ⟨(ordered_block_iff.mp hmono).2, List.forall_mem_singleton.mpr hm⟩

end Node

/-- The node that a block begins as is in its place where the block begins. -/
theorem Blocks.ordered_nodeOf {line high : Nat} (header : Text) (hlow : 1 ≤ line)
    (hhigh : line ≤ high) : (nodeOf header line).Ordered high := by
  unfold nodeOf
  split
  · refine Node.ordered_block_iff.mpr ⟨?_, fun _ hc => absurd hc List.not_mem_nil⟩
    exact ⟨rfl, rfl, hlow, hhigh, fun _ hc => absurd hc List.not_mem_nil, List.Pairwise.nil⟩
  · exact Node.ordered_rule hlow hhigh

/-- A block begins on the line of its brace. -/
theorem Blocks.line_nodeOf (header : Text) (line : Nat) : (nodeOf header line).line = line := by
  unfold nodeOf
  split <;> rfl

/-! ## Assemblies

  While blocks are open, the bound for what may still be attached is the line of the block inside. -/

namespace Lookahead.Assembly

variable {a a' : Assembly} {n : Node} {cs : List Node} {k high : Nat}

/-- Whether the open blocks, and the finished blocks `cs` outside of them, are ordered up to a line:
what stands around an open block is ordered up to the line where that block opened. -/
def StackOrdered (cs : List Node) : Nat → List Node → Prop
  | high, [] => (∀ c ∈ cs, c.Ordered high) ∧ (cs.map Node.line).Pairwise (· ≤ ·)
  | high, n :: outer => n.Ordered high ∧ StackOrdered cs n.line outer

/-- Whether all that was built so far is ordered up to a line. -/
def Ordered (high : Nat) (a : Assembly) : Prop :=
  ∃ cs, a.sheet = .block 0 [] .sheet 0 cs ∧ StackOrdered cs high a.stack

/-- Before anything was taken in, all is ordered. -/
theorem ordered_start : Ordered high {} :=
  ⟨[], rfl, fun _ h => absurd h List.not_mem_nil, List.Pairwise.nil⟩

/-- What is ordered up to a line is so up to a later one. -/
theorem StackOrdered.mono {stack : List Node} (h : StackOrdered cs k stack) (hk : k ≤ high) :
    StackOrdered cs high stack := by
  cases stack with
  | nil => exact ⟨fun c hc => (h.1 c hc).mono hk, h.2⟩
  | cons n outer => exact ⟨h.1.mono hk, h.2⟩

/-- A block is attached to what was finished before it opened. -/
theorem Ordered.attach (h : a.Ordered k) (hn : n.Ordered high) (hk : k ≤ n.line) :
    (a.attach n).Ordered high := by
  obtain ⟨stack, sheet⟩ := a
  obtain ⟨cs, hsheet, hstack⟩ := h
  cases stack with
  | nil =>
    refine ⟨cs ++ [n], congrArg (Node.push · n) hsheet, ?_, ?_⟩
    · have hhigh := hk.trans hn.inPlace.bounded
      exact List.forall_mem_append.mpr
        ⟨fun c hc => (hstack.1 c hc).mono hhigh, List.forall_mem_singleton.mpr hn⟩
    · exact Node.pairwise_line_append hstack.2 fun c hc => (hstack.1 c hc).inPlace.bounded.trans hk
  | cons parent outer =>
    have hline : (parent.push n).line = parent.line := by cases parent <;> rfl
    exact ⟨cs, hsheet, hstack.1.push hn hk, hline.symm ▸ hstack.2⟩

/-- A block keeps its line when it ends. -/
theorem line_closed (pending : Text) (n : Node) : (closed pending n).line = n.line := by
  cases n <;> rfl

/-- The declarations of a rule do not count for its place. -/
theorem ordered_closed (pending : Text) (h : n.Ordered high) : (closed pending n).Ordered high := by
  cases n with
  | rule line origin selectors declarations =>
    have hplace := h.inPlace
    obtain rfl : origin = [] := hplace.origin
    exact Node.ordered_rule hplace.positive hplace.bounded
  | importStatement line origin statement => exact h
  | block line origin head reduced children => exact h

/-- A segment behind all that was built keeps it ordered, up to the line of its brace. -/
theorem Ordered.take {s : Segment} (h : a.Ordered k) (hlow : 1 ≤ s.place.line)
    (hk : k ≤ s.place.line) (ht : a.take s = .ok a') : a'.Ordered s.place.line := by
  obtain ⟨pending, opens, place⟩ := s
  obtain ⟨cs, hsheet, hstack⟩ := h
  -- An opened block is behind what is open; a closed one goes into the next outer, whose own line
  -- is lower.
  cases opens with
  | true =>
    rw [take_opens] at ht
    split at ht
    · obtain rfl := Except.ok.inj ht
      refine ⟨cs, hsheet, Blocks.ordered_nodeOf _ hlow (Nat.le_refl place.line), ?_⟩
      rw [Blocks.line_nodeOf]
      exact hstack.mono hk
    · exact absurd ht (by simp)
  | false =>
    obtain ⟨stack, sheet⟩ := a
    cases stack with
    | nil => exact absurd ht (by simp [Assembly.take])
    | cons n outer =>
      obtain rfl : Assembly.attach ⟨outer, sheet⟩ (closed pending n) = a' := by
        simpa [Assembly.take] using ht
      have houter : Ordered n.line ⟨outer, sheet⟩ := ⟨cs, hsheet, hstack.2⟩
      have hn := ordered_closed pending (hstack.1.mono hk)
      exact houter.attach hn (line_closed pending n).ge

/-- What rising segments build is ordered. -/
theorem Ordered.build {input : Text} : ∀ {segments : List Segment} {a a' : Assembly} {k : Nat},
    a.Ordered k → 1 ≤ k → k ≤ high → Rising k high (segments.map fun s => s.place.line) →
      a.build input segments = .ok a' → a'.Ordered high
  | [], a, a', k, h, _, hk, _, hb => by
    obtain rfl : a = a' := by simpa [Assembly.build] using hb
    obtain ⟨cs, hsheet, hstack⟩ := h
    exact ⟨cs, hsheet, hstack.mono hk⟩
  | s :: ss, a, a', k, h, hpos, _, hrising, hb => by
    rw [Assembly.build] at hb
    split at hb
    · rename_i next hnext
      obtain ⟨hlow, hhigh⟩ := hrising.bounds s.place.line List.mem_cons_self
      obtain ⟨hfirst, hrest⟩ := List.pairwise_cons.mp hrising.sorted
      refine Ordered.build (h.take (hpos.trans hlow) hlow hnext) (hpos.trans hlow) hhigh ?_ hb
      exact ⟨hrest, fun l hl => ⟨hfirst l hl, (hrising.bounds l (List.mem_cons_of_mem _ hl)).2⟩⟩
    · exact absurd hb (by simp)

end Lookahead.Assembly

end StyleFold
