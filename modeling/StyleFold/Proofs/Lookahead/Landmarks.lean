/-
  Landmarks — the characters of a text that its nodes stand for.

  Lines of a tree are written when a block is opened, and when a statement ends, and the tree then puts
  its nodes into another order than the text has them.  A landmark is the character that the line of a
  node was counted at.

  1. **Headings** — what a node begins with; the listing of a tree enters the headings of its nodes in
     preorder (`headings_eq`).
  2. **Landmarks** — an opening brace outside of comments, literals and statements begins a block, and the
     semicolon of a statement ends it.  A place of the text is a landmark by the state in which the scan
     comes there.
  3. **One character** — a move adds the block that its character opens to the listing of the open blocks,
     and the statement that it ends to the records.
  4. **Whole texts** — the nodes of a tree are those of the landmarks of its text, in order, each on the
     line of its landmark.
-/
import StyleFold.Proofs.Lookahead.Moves
import StyleFold.Proofs.Lookahead.NormalForm

namespace StyleFold

/-! ## Headings

  A node is told by what it begins with, and the listing of a tree has the headings in the order of the
  walk. -/

/-- The node that an entry begins. -/
def Entry.node? : Entry → Option Node
  | .opened node => some node
  | .closed _ => none

namespace Node

/-- The node as it begins, with nothing inside. -/
def heading : Node → Node
  | rule line origin selectors _ => rule line origin selectors []
  | n@(importStatement ..) => n
  | block line origin head reduced _ => block line origin head reduced []

/-- A heading has the line of its node. -/
@[simp] theorem line_heading (n : Node) : n.heading.line = n.line := by cases n <;> rfl

/-- The nodes that the listing of a node begins are the headings in preorder. -/
theorem filterMap_entries (n : Node) : n.entries.filterMap Entry.node? = n.preorder.map heading := by
  induction n using Node.ind with
  | rule line origin selectors declarations => rw [entries, preorder]; rfl
  | importStatement line origin statement => rw [entries, preorder]; rfl
  | block line origin head reduced children ih =>
    have hchildren : (children.flatMap entries).filterMap Entry.node? =
        (children.flatMap preorder).map heading := by
      rw [List.filterMap_flatMap, List.map_flatMap]
      exact List.flatMap_congr ih
    rw [entries, preorder, entriesAll_eq_flatMap, preorderAll_eq_flatMap, List.filterMap_cons,
      List.filterMap_append, hchildren, List.map_cons]
    exact congrArg _ (List.append_nil _)

/-- The blocks and statements that a listing enters are the headings of the tree in preorder. -/
theorem headings_eq (ns : List Node) :
    (entriesAll ns).filterMap Entry.node? = (preorderAll ns).map heading := by
  rw [entriesAll_eq_flatMap, preorderAll_eq_flatMap, List.filterMap_flatMap, List.map_flatMap]
  exact List.flatMap_congr fun n _ => filterMap_entries n

end Node

/-! ## Landmarks

  One function of the state and the character tells whether a node begins there. -/

/-- A place of a text and the node that begins or ends with the character there. -/
structure Landmark where
  index : Nat
  node : Node
  deriving DecidableEq

namespace Scan.State

open Lookahead

variable {input t u : Text} {s s' : State} {c mark : Char} {l : Landmark}
  {look : State → Char → Option Node}

/-- The block that a character opens. -/
def opened? (s : State) (c : Char) : Option Node :=
  if s.filtering = false ∧ s.cursor.quote = none ∧ c = '{' then
    some (Blocks.nodeOf s.cursor.pending.tidy s.cursor.line)
  else none

/-- The import statement that a character ends. -/
def ended? (s : State) (c : Char) : Option Node :=
  match s.imports.statement with
  | some begun =>
    if c = ';' ∧ s.cursor.quote.next c = none then
      some (.importStatement s.cursor.line [] (begun ++ [c]))
    else none
  | none => none

/-- The landmark at a place, by the state of the scan behind the text before. -/
def landmark? (look : State → Char → Option Node) (t : Text) (index : Nat) : Option Landmark := do
  let s ← (run (t.take index) {} (t.take index)).toOption
  let c ← t[index]?
  let node ← look s c
  return ⟨index, node⟩

/-- The landmarks of a text, from its first place to its last. -/
def found (look : State → Char → Option Node) (t : Text) : List Landmark :=
  (List.range t.length).filterMap (landmark? look t)

/-- A landmark is one by the state in which the scan comes to its character. -/
theorem landmark?_eq_some {index : Nat} (h : landmark? look t index = some l) :
    l.index = index ∧ ∃ s c, run (t.take index) {} (t.take index) = .ok s ∧ t[index]? = some c ∧
      look s c = some l.node := by
  simp only [landmark?, bind, Option.bind_eq_some_iff] at h
  obtain ⟨s, hs, c, hc, node, hnode, he⟩ := h
  obtain rfl : ⟨index, node⟩ = l := Option.some.inj he
  refine ⟨rfl, s, c, ?_, hc, hnode⟩
  cases hrun : run (t.take index) {} (t.take index) with
  | error f => rw [hrun] at hs; exact absurd hs (by simp [Except.toOption])
  | ok s' => rw [hrun] at hs; exact congrArg Except.ok (Option.some.inj hs)

/-- Places before the last character are landmarks without it. -/
theorem landmark?_concat {index : Nat} (h : index < u.length) :
    landmark? look (u ++ [c]) index = landmark? look u index := by
  rw [landmark?, landmark?, List.take_append_of_le_length (Nat.le_of_lt h),
    List.getElem?_append_left h]

/-- The last character adds what stands for it. -/
theorem found_concat (hrun : run input {} u = .ok s) : found look (u ++ [c]) =
    found look u ++ (look s c).toList.map (Landmark.mk u.length) := by
  have hlast : landmark? look (u ++ [c]) u.length = (look s c).map (Landmark.mk u.length) := by
    have hbehind : run u {} u = .ok s := run_of_input hrun
    rw [landmark?, List.take_left, hbehind, List.getElem?_concat_length]
    cases h : look s c <;> simp [Except.toOption, h]
  have hfront : (List.range u.length).filterMap (landmark? look (u ++ [c])) = found look u :=
    List.filterMap_congr fun i hi => landmark?_concat (List.mem_range.mp hi)
  rw [found, List.length_append, List.length_singleton, List.range_succ, List.filterMap_append, hfront,
    List.filterMap_cons, hlast]
  cases look s c <;> rfl

/-- A landmark stands where its mark stands, and its node is on the line of the mark. -/
theorem place_of_mem_found (hlook : ∀ s c n, look s c = some n → c = mark ∧ n.line = s.cursor.line)
    (h : l ∈ found look t) :
    t[l.index]? = some mark ∧ l.node.line = 1 + (t.take l.index).count '\n' := by
  obtain ⟨i, -, hi⟩ := List.mem_filterMap.mp h
  obtain ⟨rfl, s, c, hrun, hat, hnode⟩ := landmark?_eq_some hi
  obtain ⟨rfl, hline⟩ := hlook s c _ hnode
  exact ⟨hat, hline.trans (reached_start.run hrun).cursor.2⟩

/-- A block opens with a brace, on the line of the brace. -/
theorem opened?_eq_some (s : State) (c : Char) (n : Node) (h : s.opened? c = some n) :
    c = '{' ∧ n.line = s.cursor.line := by
  rw [opened?] at h
  split at h
  · rename_i hopens
    obtain rfl := Option.some.inj h
    exact ⟨hopens.2.2, Blocks.line_nodeOf _ _⟩
  · exact absurd h (by simp)

/-- A statement ends with a semicolon, on the line of the semicolon. -/
theorem ended?_eq_some (s : State) (c : Char) (n : Node) (h : s.ended? c = some n) :
    c = ';' ∧ n.line = s.cursor.line := by
  rw [ended?] at h
  split at h
  · split at h
    · rename_i hends
      obtain rfl := Option.some.inj h
      exact ⟨hends.1, rfl⟩
    · exact absurd h (by simp)
  · exact absurd h (by simp)

/-! ## One character

  The two lists that landmarks are gathered in, of blocks and of statements, each grow by their own
  characters. -/

/-- The headings of all blocks begun so far. -/
def blockHeadings (s : State) : List Node :=
  (Assembly.listing ⟨s.blocks.stack, s.blocks.sheet⟩).filterMap Entry.node?

/-- The nodes of all statements ended so far. -/
def statements (s : State) : List Node := s.imports.records.map ImportRecord.node

/-- No other character opens a block. -/
theorem opened?_of_ne (s : State) (hc : c ≠ '{') : s.opened? c = none :=
  if_neg fun h => hc h.2.2

/-- A move lists the block that it opens, and no other. -/
theorem Move.blockHeadings (h : Move s c (.ok s')) :
    s'.blockHeadings = s.blockHeadings ++ (s.opened? c).toList := by
  -- apart from a brace outside, no move opens a block or touches one
  have hkeep (hblocks : s'.blocks = s.blocks) (hnone : s.opened? c = none) :
      s'.blockHeadings = s.blockHeadings ++ (s.opened? c).toList := by
    rw [State.blockHeadings, State.blockHeadings, hblocks, hnone]
    exact (List.append_nil _).symm
  cases h with
  | @brace o a a' opens hb ha ht =>
    have hbefore : (outside o).blockHeadings = a.listing.filterMap Entry.node? := by
      rw [State.blockHeadings, show (outside o).blocks = a.blocks from hb]
      rfl
    show a'.listing.filterMap Entry.node? = _
    rw [Assembly.listing_take ha ht, List.filterMap_append, hbefore]
    cases opens <;> rfl
  | openComment _ => exact hkeep rfl (opened?_of_ne _ (by decide))
  | openStatement _ => exact hkeep rfl (opened?_of_ne _ (by decide))
  | openLiteral hq => exact hkeep rfl (opened?_of_ne _ (by rintro rfl; exact absurd hq (by decide)))
  | plain hopen _ _ => exact hkeep rfl (opened?_of_ne _ hopen)
  | literal _ | closeLiteral => exact hkeep rfl (if_neg fun h => absurd h.2.1 (by simp [inLiteral, Outlook.cursor]))
  | comment | closeComment => exact hkeep rfl (if_neg fun h => absurd h.1 (by simp [inComment, filtering]))
  | statement _ | closeStatement _ =>
    exact hkeep rfl (if_neg fun h => absurd h.1 (by simp [inStatement, filtering, Imports.active]))

/-- A move records the statement that it ends, and no other. -/
theorem Move.statements (h : Move s c (.ok s')) :
    s'.statements = s.statements ++ (s.ended? c).toList := by
  cases h with
  | @closeStatement begun q o hq =>
    have hends : (inStatement begun q o).ended? ';' =
        some (ImportRecord.node ⟨begun ++ [';'], o.position.line⟩) := if_pos ⟨rfl, hq⟩
    rw [hends, State.statements]
    exact List.map_append
  | @statement begun q o c hinside =>
    have hnone : (inStatement begun q o).ended? c = none := if_neg hinside
    rw [hnone]
    exact (List.append_nil _).symm
  | openComment _ | openStatement _ | openLiteral _ | brace _ _ _ _ | plain _ _ _ | literal _ | closeLiteral
  | comment | closeComment => exact (List.append_nil _).symm

/-! ## Whole texts

  Statements stand behind all blocks in a tree, so both lists together are the nodes in the order of a
  walk. -/

/-- What every move adds to by what it finds at its character is, behind a text, what is found in it. -/
theorem eq_found {collect : State → List Node} (start : collect {} = [])
    (move : ∀ {s c s'}, Move s c (.ok s') → collect s' = collect s ++ (look s c).toList)
    (h : run input {} t = .ok s) : collect s = (found look t).map Landmark.node := by
  refine run_ind (motive := fun u s => collect s = (found look u).map Landmark.node) start ?_ h
  intro u s c s' hrun hmove ih
  rw [move hmove, ih, found_concat hrun, List.map_append, List.map_map]
  exact congrArg _ (List.map_id _).symm

/-- The landmarks of a text: braces that open blocks, then semicolons that end statements. -/
def landmarks (t : Text) : List Landmark := found opened? t ++ found ended? t

/-- A landmark is a brace or a semicolon, and its node stands on the line of that character. -/
theorem place_of_mem_landmarks (h : l ∈ landmarks t) :
    (t[l.index]? = some '{' ∨ t[l.index]? = some ';') ∧
      l.node.line = 1 + (t.take l.index).count '\n' := by
  rcases List.mem_append.mp h with h | h
  · have hplace := place_of_mem_found opened?_eq_some h
    exact ⟨.inl hplace.1, hplace.2⟩
  · have hplace := place_of_mem_found ended?_eq_some h
    exact ⟨.inr hplace.1, hplace.2⟩

/-- Founded blocks of depth 0 are a sheet. -/
theorem sheet_of_founded (hfounded : s.blocks.Founded) (hdepth : s.blocks.depth = 0) :
    ∃ cs, s.blocks = Assembly.blocks ⟨[], .block 0 [] .sheet 0 cs⟩ := by
  obtain ⟨⟨stack, sheet⟩, hb, hproper⟩ := hfounded
  obtain ⟨cs, rfl, -⟩ := hproper.sheet
  rw [hb] at hdepth
  obtain rfl : stack = [] := List.length_eq_zero_iff.mp hdepth
  exact ⟨cs, hb⟩

/-- The nodes of a tree are those of the landmarks of its text. -/
theorem landmarks_of_parse {tree : Node} (h : Node.parse t = .ok tree) :
    (Node.preorderAll tree.children).map Node.heading = (landmarks t).map Landmark.node := by
  obtain ⟨s, hrun, hdepth, rfl⟩ := parse_eq_ok h
  obtain ⟨cs, hb⟩ := sheet_of_founded (reached_start.run hrun).founded hdepth
  have hblocks : s.blockHeadings = (Node.preorderAll cs).map Node.heading := by
    rw [State.blockHeadings, hb, ← Node.headings_eq]
    exact congrArg _ (Assembly.listing_nil _)
  have hstatements : (Node.preorderAll s.statements).map Node.heading = s.statements := by
    rw [State.statements, Node.preorderAll_imports, List.map_map]
    rfl
  have hsheet : s.blocks.sheet = .block 0 [] .sheet 0 cs := congrArg Blocks.sheet hb
  rw [hsheet, Reading.withStatements_block, Node.children, Node.preorderAll_append, List.map_append,
    landmarks, List.map_append, ← eq_found rfl Move.blockHeadings hrun, hblocks,
    ← eq_found rfl Move.statements hrun]
  exact congrArg _ hstatements

end Scan.State

end StyleFold
