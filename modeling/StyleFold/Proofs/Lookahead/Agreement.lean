/-
  Agreement — the scan and the reader with lookahead give the same answer for every text.

  This is the theorem that all others about texts rest on.  The scan decides late and takes back, with
  windows, filters and a depth; the reader decides early and keeps none of these.  What a text is parsed
  to is from here on a question about lexemes, segments and entries, and no proof has to follow the scan
  again unless it is about the scan.

  1. **Blocks** — the open blocks of a scan are an assembly whose depth is the height of its stack, and
     which lets a block open unless a rule is innermost (`Assembly.blocks`).  A brace does to them what
     taking in a segment does.
  2. **One lexeme** — if scan and reader agree on the text behind the first lexeme, they agree on the
     text (`Agrees`); one theorem for each kind of lexeme.
  3. **A whole text** — by induction on its length they agree on every text, and so
     `Node.parse text = Node.read text`, faults and their places included.
-/
import StyleFold.Proofs.Lookahead.Runs

namespace StyleFold

/-! ## Blocks

  The scan keeps the open blocks, their number and a flag; the reader keeps the blocks only.  In an
  assembly that a text led to, the number and the flag can be read off. -/

namespace Lookahead.Assembly

/-- Whether a block may open: not if a rule is innermost. -/
def mayOpen : List Node → Bool
  | [] => true
  | n :: _ => n.kind != .rule

/-- The assembly as the scan keeps it. -/
def blocks (a : Assembly) : Blocks := ⟨a.stack.length, mayOpen a.stack, a.stack, a.sheet⟩

/-- Only the innermost open block can be a rule. -/
def Sound (a : Assembly) : Prop := ∀ n ∈ a.stack.tail, n.kind ≠ .rule

variable {a a' : Assembly} {pending : Text} {place : Position}

/-- Around an innermost block another may open, since only the innermost can be a rule. -/
theorem mayOpen_of_sound {n : Node} {outer : List Node} (h : a.Sound)
    (hstack : a.stack = n :: outer) : mayOpen outer = true := by
  cases outer with
  | nil => rfl
  | cons m outer =>
    have : m.kind ≠ .rule := h m (by rw [hstack]; exact List.mem_cons_self)
    simpa [mayOpen] using this

/-- Attaching a node changes no kind on the stack. -/
theorem blocks_attach (a : Assembly) (node : Node) :
    (a.attach node).blocks = a.blocks.attach node := by
  rcases a with ⟨_ | ⟨parent, outer⟩, sheet⟩
  · rfl
  · simp [attach, blocks, Blocks.attach, mayOpen, Node.kind_push]

/-- An opening brace, with the test that the scan makes. -/
theorem take_opens (a : Assembly) (pending : Text) (place : Position) :
    a.take ⟨pending, true, place⟩ =
      if mayOpen a.stack then
        .ok { a with stack := Blocks.nodeOf pending.tidy place.line :: a.stack }
      else .error .nestedBlock := by
  rcases a with ⟨_ | ⟨n, outer⟩, sheet⟩
  · rfl
  · cases n with
    | rule line origin selectors declarations => rfl
    | importStatement line origin statement => rfl
    | block line origin head reduced children =>
      have hmay : mayOpen (.block line origin head reduced children :: outer) = true := by
        rw [mayOpen, bne_iff_ne]
        exact Node.kind_block_ne_rule line origin head reduced children
      rw [hmay]
      rfl

/-- An opening brace does to the open blocks of a scan what its segment does to the assembly. -/
theorem openBlock_blocks (a : Assembly) (pending : Text) (place : Position) :
    a.blocks.openBlock pending place.line = (a.take ⟨pending, true, place⟩).map blocks := by
  rw [take_opens, blocks, Blocks.openBlock]
  split <;> rfl

/-- So does a closing brace. -/
theorem closeBlock_blocks (h : a.Sound) (pending : Text) (place : Position) :
    a.blocks.closeBlock pending = (a.take ⟨pending, false, place⟩).map blocks := by
  rcases a with ⟨_ | ⟨n, outer⟩, sheet⟩
  · rfl
  · have hmay : mayOpen outer = true := mayOpen_of_sound h rfl
    show _ = Except.ok (attach ⟨outer, sheet⟩ (closed pending n)).blocks
    rw [blocks_attach, blocks, blocks, hmay]
    -- Only a rule forbids what is opened next, and it is gone once it is closed.
    cases n with
    | rule line origin selectors declarations => rfl
    | importStatement line origin statement => rfl
    | block line origin head reduced children =>
      have hself : mayOpen (.block line origin head reduced children :: outer) = true := by
        rw [mayOpen, bne_iff_ne]
        exact Node.kind_block_ne_rule line origin head reduced children
      rw [hself]
      rfl

/-- Attaching a node leaves at most the innermost block a rule. -/
theorem sound_attach {node : Node} (h : a.Sound) : (a.attach node).Sound := by
  rcases a with ⟨_ | ⟨parent, outer⟩, sheet⟩
  · exact h
  · exact h

/-- A rule opens only where no rule is open, so it stays the only one. -/
theorem Sound.take {s : Segment} (h : a.Sound) (ht : a.take s = .ok a') : a'.Sound := by
  rcases s with ⟨pending, _ | _, place⟩
  · rcases a with ⟨_ | ⟨n, outer⟩, sheet⟩
    · exact absurd ht (by simp [Assembly.take])
    · obtain rfl : attach ⟨outer, sheet⟩ (closed pending n) = a' := by
        simpa [Assembly.take] using ht
      exact sound_attach fun m hm => h m (List.mem_of_mem_tail hm)
  · rw [take_opens] at ht
    split at ht
    · rename_i hmay
      obtain rfl := Except.ok.inj ht
      rcases a with ⟨_ | ⟨n, outer⟩, sheet⟩
      · exact fun m hm => absurd hm List.not_mem_nil
      · rintro m hm
        rcases List.mem_cons.mp hm with rfl | hm
        · exact bne_iff_ne.mp hmay
        · exact h m hm
    · exact absurd ht (by simp)

end Lookahead.Assembly

namespace Scan.State

open Lookahead

variable {input t rest body : Text} {c : Char}

/-! ## The end of the text

  Scan and reader have the same things to complain of there, and in the same order. -/

/-- Where the text ends outside of a statement. -/
theorem finish_eq_conclude {s : State} {r : Reading} {a : Assembly} (hb : s.blocks = a.blocks)
    (hindex : s.cursor.index = r.place.index) (hline : s.cursor.line = r.place.line)
    (hidle : s.imports.active = false) (hrecords : s.imports.records = r.statements)
    (hend : r.ending = .complete) : finish input s = r.conclude input a := by
  rcases a with ⟨_ | ⟨n, outer⟩, sheet⟩
  · simp [finish, hb, Assembly.blocks, Imports.fault?, hidle, hrecords, Reading.conclude, hend,
      Reading.withStatements]
  · simp [finish, hb, Assembly.blocks, Cursor.failure, hindex, hline, Reading.conclude, hend]

/-- Where the text ends inside a statement. -/
theorem finish_eq_conclude_of_active {s : State} {r : Reading} {a : Assembly}
    (hb : s.blocks = a.blocks) (hindex : s.cursor.index = r.place.index)
    (hline : s.cursor.line = r.place.line) (hactive : s.imports.active = true)
    (hend : r.ending = .openStatement) : finish input s = r.conclude input a := by
  rcases a with ⟨_ | ⟨n, outer⟩, sheet⟩
  · simp [finish, hb, Assembly.blocks, Imports.fault?, hactive, Cursor.failure, hindex, hline,
      Reading.conclude, hend]
  · simp [finish, hb, Assembly.blocks, Cursor.failure, hindex, hline, Reading.conclude, hend]

/-! ## One lexeme

  In each case the scan has come to the first character of the lexeme, outside of everything and with
  clear windows; running it over the lexeme leads to such a state again, or to the fault that the reader
  sees. -/

/-- Scan and reader give the same answer for a text with nothing straddling its start. -/
def Agrees (input t : Text) : Prop :=
  ∀ (o : Outlook) (a : Assembly), o.blocks = a.blocks → a.Sound → Clear o.marks o.words t →
    (run input (outside o) t).bind (finish input) =
      ((Reading.of o.position o.pending (Lexeme.all t)).after o.records).answer input a

theorem agrees_nil : Agrees input [] := by
  intro o a hb _ _
  rw [Lexeme.all_nil]
  exact finish_eq_conclude hb rfl rfl rfl (by simp [Reading.after, Reading.of, outside]) rfl

/-- A comment drops what is pending. -/
theorem agrees_comment (h : through? Comments.closeMark t = some (body, rest))
    (ih : Agrees input rest) : Agrees input (Comments.openMark ++ t) := by
  intro o a hb hs hc
  obtain ⟨words, hopen⟩ := run_outside_openMark input hc
  obtain ⟨marks, words, hclear, hrun⟩ := run_inComment_of_closed input
    (o := { o with position := o.position.past Comments.openMark, marks := [], words }) h
    (Text.not_straddles_nil _ _)
  rw [hopen, hrun, Lexeme.all_comment h, Position.past_past]
  exact ih { o with
    position := o.position.past (Comments.openMark ++ body)
    pending := [], marks, words } a hb hs (hclear rest)

/-- They agree on a comment that is never closed: the rest of the text is inside of it. -/
theorem agrees_openComment (h : through? Comments.closeMark t = none) :
    Agrees input (Comments.openMark ++ t) := by
  intro o a hb _ hc
  obtain ⟨words, hopen⟩ := run_outside_openMark input hc
  obtain ⟨o', hp, hb', hr, hrun⟩ := run_inComment_of_unclosed input
    (o := { o with position := o.position.past Comments.openMark, marks := [], words }) h
    (Text.not_straddles_nil _ _)
  have hp' : o'.position = o.position.past (Comments.openMark ++ t) := by simpa using hp
  rw [hopen, hrun, Lexeme.all_openComment h]
  exact finish_eq_conclude (hb'.trans hb) (congrArg Position.index hp') (congrArg Position.line hp')
    rfl (by simpa [Reading.after, Reading.of, inComment, outside] using hr) rfl

/-- They agree that the end of a comment is out of place where none is open. -/
theorem agrees_closeMark : Agrees input (Comments.closeMark ++ t) := by
  intro o a _ _ hc
  have hstar : (outside o).read '*' = .ok (outside (o.push '*')) :=
    read_outside_plain hc.quiet (by decide) (by decide) (by decide)
  have hmark : (o.push '*').marks.remember 2 '/' = Comments.closeMark :=
    Text.remember_foldl_eq (t := ['*']) rfl o.marks
  show (run input (outside o) ('*' :: '/' :: t)).bind _ = _
  rw [run_cons_of_ok hstar, run_cons_of_error (read_outside_closeMark hmark), look_outside, Lexeme.all_closeMark]
  rfl

/-- A statement leaves pending what is pending. -/
theorem agrees_statement (h : StatementEnd.of none t = .closed body rest)
    (ih : Agrees input rest) : Agrees input (Imports.keyword ++ t) := by
  intro o a hb hs hc
  obtain ⟨marks, hopen⟩ := run_outside_keyword input o t
  obtain ⟨marks, words, hclear, hrun⟩ := run_inStatement_of_closed input Imports.keyword
    (o := { o with position := o.position.past Imports.keyword, marks, words := [] }) h
    (Text.not_straddles_nil _ _)
  rw [hopen, hrun, Lexeme.all_statement h, Position.past_past]
  refine (ih { o with
    position := o.position.past (Imports.keyword ++ body)
    records := o.records ++
      [⟨Imports.keyword ++ body, (o.position.past (Imports.keyword ++ body)).line⟩]
    marks, words } a hb hs (hclear rest)).trans ?_
  simp [Reading.of, Reading.after, Lexeme.text]

/-- They agree on a statement that breaks, and on the character that breaks it. -/
theorem agrees_brokenStatement {before : Text} {d : Char}
    (h : StatementEnd.of none t = .broken before d) : Agrees input (Imports.keyword ++ t) := by
  intro o a _ _ _
  obtain ⟨marks, hopen⟩ := run_outside_keyword input o t
  rw [hopen, run_inStatement_of_broken h (Text.not_straddles_nil _ _), Lexeme.all_brokenStatement h, Position.past_past]
  rfl

/-- They agree on a statement that never ends. -/
theorem agrees_openStatement (h : StatementEnd.of none t = .unfinished) :
    Agrees input (Imports.keyword ++ t) := by
  intro o a hb _ _
  obtain ⟨marks, hopen⟩ := run_outside_keyword input o t
  obtain ⟨begun, q, o', hp, hb', hrun⟩ := run_inStatement_of_unfinished input Imports.keyword
    (o := { o with position := o.position.past Imports.keyword, marks, words := [] }) h
    (Text.not_straddles_nil _ _)
  have hp' : o'.position = o.position.past (Imports.keyword ++ t) := by simpa using hp
  rw [hopen, hrun, Lexeme.all_openStatement h]
  exact finish_eq_conclude_of_active (hb'.trans hb) (congrArg Position.index hp')
    (congrArg Position.line hp') rfl rfl

/-- A literal is pending with its quotes. -/
theorem agrees_literal (hm : ¬ MarkAhead (c :: t)) (hq : isQuote c = true)
    (h : through? [c] t = some (body, rest)) (ih : Agrees input rest) :
    Agrees input (c :: t) := by
  intro o a hb hs hc
  obtain ⟨marks, words, hclear, hrun⟩ := run_inLiteral_of_closed input hq
    (o := o.push c) h
  have hplace : (o.push c).position.past body = o.position.past (c :: body) :=
    Position.past_past o.position [c] body
  have hpending : (o.push c).pending ++ body = o.pending ++ c :: body :=
    List.append_cons o.pending c body |>.symm
  rw [run_cons_of_ok (read_outside_quote hc.quiet hq), hrun, hplace, hpending, Lexeme.all_literal hm hq h]
  exact ih { o with
    position := o.position.past (c :: body)
    pending := o.pending ++ c :: body
    marks, words } a hb hs (hclear rest)

/-- They agree on a literal that is never closed. -/
theorem agrees_openLiteral (hm : ¬ MarkAhead (c :: t)) (hq : isQuote c = true)
    (h : through? [c] t = none) : Agrees input (c :: t) := by
  intro o a hb _ hc
  obtain ⟨o', hp, hb', hr, hrun⟩ := run_inLiteral_of_unclosed input (o := o.push c) h
  have hp' : o'.position = o.position.past (c :: t) := by
    rw [hp]
    simp [Outlook.push, Outlook.shown]
  rw [run_cons_of_ok (read_outside_quote hc.quiet hq), hrun, Lexeme.all_openLiteral hm hq h]
  refine finish_eq_conclude (hb'.trans hb) (congrArg Position.index hp')
    (congrArg Position.line hp') rfl ?_ rfl
  show o'.records = o.records ++ []
  rw [hr, List.append_nil]
  rfl

/-- A brace does to the open blocks what its segment does to the assembly. -/
theorem read_brace {o : Outlook} {a : Assembly} (opens : Bool) (hb : o.blocks = a.blocks)
    (hs : a.Sound) (hquiet : o.Quiet (if opens then '{' else '}')) :
    (outside o).read (if opens then '{' else '}') =
      (a.take ⟨o.pending, opens, o.position⟩).map fun a' =>
        outside { o.shown (if opens then '{' else '}') with pending := [], blocks := a'.blocks } := by
  cases opens with
  | true =>
    have hread := read_outside_open hquiet
    rw [hb, Assembly.openBlock_blocks] at hread
    refine hread.trans ?_
    cases a.take ⟨o.pending, true, o.position⟩ <;> rfl
  | false =>
    have hread := read_outside_close hquiet
    rw [hb, Assembly.closeBlock_blocks hs] at hread
    refine hread.trans ?_
    cases a.take ⟨o.pending, false, o.position⟩ <;> rfl

/-- They agree on a brace if they do on the text behind it: it takes in the pending text as a segment. -/
theorem agrees_brace (opens : Bool) (t : Text) (ih : Agrees input t) :
    Agrees input ((if opens then '{' else '}') :: t) := by
  intro o a hb hs hc
  have hmark : inMarks (if opens then '{' else '}') = false := by cases opens <;> decide
  have htext : (Lexeme.brace opens).text = [if opens then '{' else '}'] := by cases opens <;> rfl
  have hread := read_brace opens hb hs hc.quiet
  rw [Lexeme.all_brace]
  -- The assembly refuses the brace exactly where the scan does; taken, both go on behind it with
  -- nothing pending.
  cases ht : a.take ⟨o.pending, opens, o.position⟩ with
  | error fault =>
    rw [ht] at hread
    have hline : (if opens then '{' else '}') ≠ '\n' := by cases opens <;> decide
    rw [run_cons_of_error hread, look_outside]
    simp [Reading.of, Reading.after, Reading.answer, Assembly.build, ht, Except.bind,
      Cursor.failure, Outlook.cursorOn, Position.past, hline]
  | ok a' =>
    rw [ht] at hread
    rw [run_cons_of_ok hread]
    refine (ih { o.shown (if opens then '{' else '}') with
      pending := [], blocks := a'.blocks } a' rfl (hs.take ht)
      (clear_of_not_inMarks hmark o.marks o.words t)).trans ?_
    simp only [Reading.of, Reading.after, Reading.answer, Assembly.build, ht, htext, Outlook.shown]
    rfl

/-- Any other character is pending. -/
theorem agrees_plain (hm : ¬ MarkAhead (c :: t)) (hq : isQuote c = false) (hopen : c ≠ '{')
    (hclose : c ≠ '}') (ih : Agrees input t) : Agrees input (c :: t) := by
  intro o a hb hs hc
  rw [run_cons_of_ok (read_outside_plain hc.quiet hq hopen hclose), Lexeme.all_plain hm hq hopen hclose]
  exact ih (o.push c) a hb hs (hc.remember hm)

/-! ## A whole text

  The beginning of a text is such a state, so the agreement on one lexeme after another is one on the
  whole. -/

/-- Scan and reader agree on every text, by induction on its lexemes. -/
theorem agrees (input t : Text) : Agrees input t := by
  induction t using Lexeme.all_ind with
  | nil => exact agrees_nil
  | comment h ih => exact agrees_comment h ih
  | openComment h => exact agrees_openComment h
  | closeMark t => exact agrees_closeMark
  | statement h ih => exact agrees_statement h ih
  | brokenStatement h => exact agrees_brokenStatement h
  | openStatement h => exact agrees_openStatement h
  | literal hm hq h ih => exact agrees_literal hm hq h ih
  | openLiteral hm hq h => exact agrees_openLiteral hm hq h
  | brace opens t ih => exact agrees_brace opens t ih
  | plain hm hq hopen hclose ih => exact agrees_plain hm hq hopen hclose ih

/-- Nothing is open and nothing straddles where a text begins. -/
theorem agrees_start (input : Text) :
    (run input {} input).bind (finish input) = (Reading.ofText input).answer input {} := by
  have h := agrees input input ⟨{}, [], {}, [], [], []⟩ {} rfl
    (fun n hn => absurd hn List.not_mem_nil) (Clear.nil input)
  exact h

end Scan.State

namespace Node

variable {text : Text} {tree : Node}

/-- The scan gives the tree, or the first fault with its place, that the reader with lookahead gives. -/
theorem parse_eq_read (text : Text) : parse text = read text :=
  Scan.State.agrees_start text

/-- What a text with a tree reads as: all its blocks are closed and none of it is at fault. -/
theorem reading_of_parse (h : parse text = .ok tree) : ∃ sheet,
    Lookahead.Assembly.build text {} (Lookahead.Reading.ofText text).segments = .ok ⟨[], sheet⟩ ∧
      (Lookahead.Reading.ofText text).ending = .complete ∧
      tree = Lookahead.Reading.withStatements sheet (Lookahead.Reading.ofText text).statements := by
  have h := (Scan.State.agrees_start text).symm.trans h
  unfold Lookahead.Reading.answer at h
  split at h
  · rename_i a hbuild
    rcases a with ⟨stack, sheet⟩
    unfold Lookahead.Reading.conclude at h
    split at h
    · exact absurd h (by simp)
    · exact absurd h (by simp)
    · exact absurd h (by simp)
    · rename_i hend hstack
      obtain rfl : stack = [] := hstack
      exact ⟨sheet, hbuild, hend, (Except.ok.inj h).symm⟩
  · exact absurd h (by simp)

/-- A text that reads so has a tree. -/
theorem parse_of_reading {sheet : Node}
    (hbuild : Lookahead.Assembly.build text {} (Lookahead.Reading.ofText text).segments =
      .ok ⟨[], sheet⟩)
    (hend : (Lookahead.Reading.ofText text).ending = .complete) :
    parse text = .ok (Lookahead.Reading.withStatements sheet
      (Lookahead.Reading.ofText text).statements) := by
  refine (Scan.State.agrees_start text).trans ?_
  rw [Lookahead.Reading.answer, hbuild]
  show Lookahead.Reading.conclude text _ _ = _
  rw [Lookahead.Reading.conclude, hend]

end Node

end StyleFold
