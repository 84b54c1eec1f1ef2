/-
  Modes — the scan in its four modes, one character at a time.

  Between two characters the scan is outside of everything, inside a string literal, inside a comment
  or inside an import statement.  In each mode the two filters and the quote are fixed, and what is
  left of the state is an `Outlook`: where the scan stands, what is pending, the blocks, the finished
  statements and the two windows.

  A state of the scan has four parts with a dozen fields, and only few combinations occur.  Naming them
  makes every step of the scan an equation between named states, and what all the proofs about the scan
  unfold is unfolded here once.

  1. **Filters** — what either filter does with a character, by what its window then holds.
  2. **Modes** — the four states over an outlook.
  3. **Outside** — what each kind of character does there, one theorem a kind.
  4. **In a literal**, 5. **in a comment**, 6. **in a statement** — the same inside.
-/
import StyleFold.Proofs.Lookahead.Reader
import StyleFold.Proofs.Lookahead.Windows

namespace StyleFold

/-! ## Filters

  The windows are compared with the marks before anything else is looked at, so that is how the cases
  are split. -/

namespace Comments

variable {f : Comments} {g : Glance}

/-- A filter that is shown no mark goes on as it is. -/
theorem step_quiet (ho : f.recent.remember 2 g.char ≠ openMark)
    (hc : f.recent.remember 2 g.char ≠ closeMark) :
    f.step g = (⟨f.active, f.recent.remember 2 g.char⟩, .none) := by
  simp [step, ho, hc]

/-- An idle filter that may not become active ignores marks. -/
theorem step_idle (hf : f.active = false) (hg : g.free = false) :
    f.step g = (⟨false, f.recent.remember 2 g.char⟩, .none) := by
  simp [step, hf, hg]

/-- The opening mark opens a comment where one may open, and asks for the front of the mark back. -/
theorem step_opened (h : f.recent.remember 2 g.char = openMark) (hf : f.active = false)
    (hg : g.free = true) : f.step g = (⟨true, []⟩, .opened ['/']) := by
  simp [step, h, hf, hg]

/-- A closing mark is stray where a comment might open. -/
theorem step_stray (h : f.recent.remember 2 g.char = closeMark) (hf : f.active = false)
    (hg : g.free = true) :
    f.step g = (⟨false, closeMark⟩, .failed .unmatchedCommentClose) := by
  have hne : closeMark ≠ openMark := by decide
  simp [step, h, hf, hg, hne]

/-- An active filter waits for the closing mark alone. -/
theorem step_inside (hf : f.active = true) (h : f.recent.remember 2 g.char ≠ closeMark) :
    f.step g = (⟨true, f.recent.remember 2 g.char⟩, .none) := by
  simp [step, h, hf]

/-- A closing mark ends the comment that is open. -/
theorem step_ending (hf : f.active = true) (h : f.recent.remember 2 g.char = closeMark) :
    f.step g = (⟨true, []⟩, .ending true) := by
  simp [step, h, hf]

end Comments

namespace Imports

variable {f : Imports} {g : Glance}

/-- A filter that is shown no keyword, or may not become active, stays idle. -/
theorem step_idle (hf : f.statement = none)
    (h : f.recent.remember 7 g.char ≠ keyword ∨ g.free = false) :
    f.step g = (⟨none, f.recent.remember 7 g.char, f.records⟩, .none) := by
  rcases h with h | h <;> simp [step, active, hf, h]

/-- The keyword opens a statement where one may open, and asks for the front of the keyword back. -/
theorem step_opened (hf : f.statement = none) (h : f.recent.remember 7 g.char = keyword)
    (hg : g.free = true) : f.step g = (⟨some keyword, [], f.records⟩, .opened keywordStart) := by
  simp [step, active, hf, h, hg]

/-- An active filter collects what may stand in a statement. -/
theorem step_inside {begun : Text} (hf : f.statement = some begun)
    (h : f.recent.remember 7 g.char ≠ keyword) (hn : g.char ≠ '\n')
    (hs : ¬ (g.char = ';' ∧ g.quoted = false)) :
    f.step g = (⟨some (begun ++ [g.char]), f.recent.remember 7 g.char, f.records⟩, .none) := by
  simp only [step, if_neg h, hf, if_neg hs, if_neg hn]

/-- A semicolon outside of literals ends the statement and records it. -/
theorem step_ending {begun : Text} (hf : f.statement = some begun) (hg : g.char = ';')
    (hq : g.quoted = false) :
    f.step g = (⟨some [], [], f.records ++ [⟨begun ++ [';'], g.line⟩]⟩, .ending false) := by
  have h : f.recent.remember 7 ';' ≠ keyword :=
    Text.remember_ne_of_getLast? (by decide) (by decide)
  simp only [step, hg, if_neg h, hf, hq, and_self, if_true]

/-- A line feed or a second keyword breaks a statement; the filter stays active. -/
theorem step_broken {begun : Text} (hf : f.statement = some begun)
    (h : g.char = '\n' ∨ f.recent.remember 7 g.char = keyword) :
    ∃ f', f.step g = (f', .failed .missingSemicolon) ∧ f'.active = true := by
  have ha : f.active = true := by simp [active, hf]
  by_cases hk : f.recent.remember 7 g.char = keyword
  · exact ⟨{ f with recent := keyword }, by simp [step, hk, ha], ha⟩
  · have hn : g.char = '\n' := h.resolve_right hk
    have hs : ¬ (g.char = ';' ∧ g.quoted = false) := by simp [hn]
    exact ⟨⟨some (begun ++ [g.char]), f.recent.remember 7 g.char, f.records⟩, by
      simp only [step, if_neg hk, hf, if_neg hs, if_pos hn], rfl⟩

end Imports

namespace Scan.State

open Lookahead

/-! ## Modes

  What differs from mode to mode is fixed, and the rest is the outlook. -/

/-- What the four modes of a scan have in common. -/
structure Outlook where
  position : Position
  pending : Text
  blocks : Blocks
  records : List ImportRecord
  /-- The window of the comment filter. -/
  marks : Text
  /-- The window of the import filter. -/
  words : Text

namespace Outlook

/-- The cursor with literal `q` open. -/
def cursor (o : Outlook) (q : Quote) : Cursor := ⟨o.position.index, o.position.line, q, o.pending⟩

/-- The cursor on `c`, with literal `q` open. -/
def cursorOn (o : Outlook) (c : Char) (q : Quote) : Cursor :=
  ⟨o.position.index, (o.position.past [c]).line, q, o.pending⟩

/-- The outlook when both filters were shown `c`. -/
def shown (o : Outlook) (c : Char) : Outlook :=
  { o with
    position := o.position.past [c]
    marks := o.marks.remember 2 c
    words := o.words.remember 7 c }

/-- The outlook when `c` was shown and is pending. -/
def push (o : Outlook) (c : Char) : Outlook := { o.shown c with pending := o.pending ++ [c] }

end Outlook

/-- Outside of literals, comments and statements. -/
def outside (o : Outlook) : State where
  cursor := o.cursor none
  comments := ⟨false, o.marks⟩
  imports := ⟨none, o.words, o.records⟩
  blocks := o.blocks

/-- Inside the literal that `q` opened. -/
def inLiteral (q : Char) (o : Outlook) : State := { outside o with cursor := o.cursor (some q) }

/-- Inside a comment. -/
def inComment (o : Outlook) : State := { outside o with comments := ⟨true, o.marks⟩ }

/-- Inside a statement that begins with `begun`, with literal `q` open. -/
def inStatement (begun : Text) (q : Quote) (o : Outlook) : State :=
  { outside o with cursor := o.cursor q, imports := ⟨some begun, o.words, o.records⟩ }

/-! ## One character

  Reading is the five steps of the scan in a row; this is where they are taken apart. -/

section

variable {s : State} {c : Char} {comments : Comments} {imports : Imports} {first second : Reaction}
  {looked cursor cursor' : Cursor} {fault : Fault}

/-- What the comment filter makes of a character. -/
theorem pollComments_eq (hl : (s.look c).cursor = looked)
    (hc : s.comments.step (looked.glance c s.imports.active) = (comments, first))
    (hk : looked.heed first = .ok cursor) :
    (s.look c).pollComments c = .ok (⟨cursor, comments, s.imports, s.blocks⟩, first.isEnding) := by
  subst hl
  have hpoll : (s.look c).cursor.poll (s.look c).comments.step c (s.look c).imports.active =
      .ok (comments, cursor, first.isEnding) := Cursor.poll_eq_ok_iff.mpr ⟨first, hc, hk, rfl⟩
  rw [pollComments, hpoll]
  rfl

/-- Reading a character when both filters are content with it. -/
theorem read_eq_handle (hl : (s.look c).cursor = looked)
    (hc : s.comments.step (looked.glance c s.imports.active) = (comments, first))
    (hk : looked.heed first = .ok cursor)
    (hi : s.imports.step (cursor.glance c comments.active) = (imports, second))
    (hk' : cursor.heed second = .ok cursor') :
    s.read c = (handle ⟨cursor', comments, imports, s.blocks⟩ c).map fun s =>
      s.settle first.isEnding second.isEnding := by
  have h2 : pollImports ⟨cursor, comments, s.imports, s.blocks⟩ c =
      .ok (⟨cursor', comments, imports, s.blocks⟩, second.isEnding) := by
    have hpoll : cursor.poll s.imports.step c comments.active = .ok (imports, cursor', second.isEnding) :=
      Cursor.poll_eq_ok_iff.mpr ⟨second, hi, hk', rfl⟩
    rw [pollImports, hpoll]
    rfl
  simp only [read, bind, Except.bind, pollComments_eq hl hc hk, h2]
  cases handle ⟨cursor', comments, imports, s.blocks⟩ c <;> rfl

/-- Reading a character that the comment filter refuses. -/
theorem read_eq_error_of_comments (hl : (s.look c).cursor = looked)
    (hc : s.comments.step (looked.glance c s.imports.active) = (comments, .failed fault)) :
    s.read c = .error fault := by
  subst hl
  have hc' : (s.look c).comments.step ((s.look c).cursor.glance c (s.look c).imports.active) =
      (comments, .failed fault) := hc
  simp only [read, bind, Except.bind, pollComments, Cursor.poll, hc', Cursor.heed]

/-- Reading a character that the import filter refuses. -/
theorem read_eq_error_of_imports (hl : (s.look c).cursor = looked)
    (hc : s.comments.step (looked.glance c s.imports.active) = (comments, first))
    (hk : looked.heed first = .ok cursor)
    (hi : s.imports.step (cursor.glance c comments.active) = (imports, .failed fault)) :
    s.read c = .error fault := by
  simp only [read, bind, Except.bind, pollComments_eq hl hc hk, pollImports, Cursor.poll, hi, Cursor.heed]

end

/-- Outside of comments, looking at a character counts its line and follows literals. -/
theorem look_cursor {s : State} {o : Outlook} {q : Quote} (hs : s.cursor = o.cursor q)
    (hc : s.comments.active = false) (c : Char) :
    (s.look c).cursor = o.cursorOn c (q.next c) := by
  by_cases hn : c = '\n' <;>
    simp [look, hs, hc, Outlook.cursor, Outlook.cursorOn, Position.past, Cursor.countLine,
      Cursor.trackQuote, hn]

theorem look_outside (o : Outlook) (c : Char) :
    ((outside o).look c).cursor = o.cursorOn c (Quote.next none c) :=
  look_cursor (show (outside o).cursor = o.cursor none from rfl) rfl c

theorem look_inLiteral (q : Char) (o : Outlook) (c : Char) :
    ((inLiteral q o).look c).cursor = o.cursorOn c (Quote.next (some q) c) :=
  look_cursor (show (inLiteral q o).cursor = o.cursor (some q) from rfl) rfl c

theorem look_inStatement (begun : Text) (q : Quote) (o : Outlook) (c : Char) :
    ((inStatement begun q o).look c).cursor = o.cursorOn c (q.next c) :=
  look_cursor (show (inStatement begun q o).cursor = o.cursor q from rfl) rfl c

/-- In a comment, it counts its line only. -/
theorem look_inComment (o : Outlook) (c : Char) :
    ((inComment o).look c).cursor = o.cursorOn c none := by
  by_cases hn : c = '\n' <;>
    simp [look, inComment, outside, Outlook.cursor, Outlook.cursorOn, Position.past,
      Cursor.countLine, hn]

/-! ## Outside

  A mark that is complete decides, then a quote, then a brace; any other character is pending. -/

/-- No window is a mark when `c` is shown. -/
structure Outlook.Quiet (o : Outlook) (c : Char) : Prop where
  open_ne : o.marks.remember 2 c ≠ Comments.openMark
  close_ne : o.marks.remember 2 c ≠ Comments.closeMark
  keyword_ne : o.words.remember 7 c ≠ Imports.keyword

/-- Without a mark, a character outside is left to the blocks. -/
theorem read_outside_quiet {o : Outlook} {c : Char} (h : o.Quiet c) :
    (outside o).read c =
      (handle ⟨o.cursorOn c (Quote.next none c), ⟨false, o.marks.remember 2 c⟩,
        ⟨none, o.words.remember 7 c, o.records⟩, o.blocks⟩ c).map
        fun s => s.settle false false :=
  read_eq_handle (look_outside o c) (Comments.step_quiet h.open_ne h.close_ne) rfl
    (Imports.step_idle rfl (.inl h.keyword_ne)) rfl

/-- A plain character is pending. -/
theorem read_outside_plain {o : Outlook} {c : Char} (h : o.Quiet c) (hq : isQuote c = false)
    (ho : c ≠ '{') (hc : c ≠ '}') : (outside o).read c = .ok (outside (o.push c)) := by
  rw [read_outside_quiet h]
  simp [handle, filtering, Imports.active, Cursor.quoted, Outlook.cursorOn, Quote.next, hq, ho, hc,
    settle]
  rfl

/-- A quote opens a literal and is pending. -/
theorem read_outside_quote {o : Outlook} {c : Char} (h : o.Quiet c) (hq : isQuote c = true) :
    (outside o).read c = .ok (inLiteral c (o.push c)) := by
  rw [read_outside_quiet h]
  simp [handle, filtering, Imports.active, Cursor.quoted, Outlook.cursorOn, Quote.next, hq, settle]
  rfl

/-- A brace opens a block headed by the pending text, or is refused. -/
theorem read_outside_open {o : Outlook} (h : o.Quiet '{') :
    (outside o).read '{' =
      (o.blocks.openBlock o.pending o.position.line).map fun blocks =>
        outside { o.shown '{' with pending := [], blocks } := by
  rw [read_outside_quiet h]
  cases hb : o.blocks.openBlock o.pending o.position.line with
  | error fault =>
    simp [handle, filtering, Imports.active, Cursor.quoted, Outlook.cursorOn, Quote.next, isQuote,
      Position.past, hb, Except.map]
  | ok blocks =>
    simp [handle, filtering, Imports.active, Cursor.quoted, Outlook.cursorOn, Quote.next, isQuote,
      Position.past, hb, Except.map, settle]
    rfl

/-- A brace closes the innermost block with the pending text, or is refused. -/
theorem read_outside_close {o : Outlook} (h : o.Quiet '}') :
    (outside o).read '}' =
      (o.blocks.closeBlock o.pending).map fun blocks =>
        outside { o.shown '}' with pending := [], blocks } := by
  rw [read_outside_quiet h]
  cases hb : o.blocks.closeBlock o.pending with
  | error fault =>
    simp [handle, filtering, Imports.active, Cursor.quoted, Outlook.cursorOn, Quote.next, isQuote,
      hb, Except.map]
  | ok blocks =>
    simp [handle, filtering, Imports.active, Cursor.quoted, Outlook.cursorOn, Quote.next, isQuote,
      hb, Except.map, settle]
    rfl

/-- The last character of an opening mark takes the first one off the pending text. -/
theorem read_outside_openMark {o : Outlook} (h : o.marks.remember 2 '*' = Comments.openMark) :
    (outside o).read '*' =
      .ok (inComment { o.shown '*' with pending := o.pending.dropSuffix ['/'], marks := [] }) := by
  have hk : o.words.remember 7 '*' ≠ Imports.keyword :=
    Text.remember_ne_of_getLast? (by decide) (by decide)
  rw [read_eq_handle (look_outside o '*') (Comments.step_opened h rfl rfl) rfl
    (Imports.step_idle rfl (.inl hk)) rfl]
  rfl

/-- A closing mark outside of comments is refused. -/
theorem read_outside_closeMark {o : Outlook} (h : o.marks.remember 2 '/' = Comments.closeMark) :
    (outside o).read '/' = .error .unmatchedCommentClose :=
  read_eq_error_of_comments (look_outside o '/') (Comments.step_stray h rfl rfl)

/-- The last character of the keyword takes the others off the pending text. -/
theorem read_outside_keyword {o : Outlook} (h : o.words.remember 7 't' = Imports.keyword) :
    (outside o).read 't' =
      .ok (inStatement Imports.keyword none
        { o.shown 't' with pending := o.pending.dropSuffix Imports.keywordStart, words := [] }) := by
  have ho : o.marks.remember 2 't' ≠ Comments.openMark :=
    Text.remember_ne_of_getLast? (by decide) (by decide)
  have hc : o.marks.remember 2 't' ≠ Comments.closeMark :=
    Text.remember_ne_of_getLast? (by decide) (by decide)
  rw [read_eq_handle (look_outside o 't') (Comments.step_quiet ho hc) rfl
    (Imports.step_opened rfl h rfl) rfl]
  rfl

/-! ## In a literal

  The filters still look on, but they are not free to open anything. -/

/-- All but its quote are pending in a literal, marks and braces as well. -/
theorem read_inLiteral_inside {o : Outlook} {q c : Char} (h : c ≠ q) :
    (inLiteral q o).read c = .ok (inLiteral q (o.push c)) := by
  have hq : Quote.next (some q) c = some q := if_neg h
  rw [read_eq_handle ((look_inLiteral q o c).trans (by rw [hq])) (Comments.step_idle rfl rfl) rfl
    (Imports.step_idle rfl (.inr rfl)) rfl]
  rfl

/-- A window that ends with a quote is no mark, so the quote is pending text like any other. -/
theorem read_inLiteral_end {o : Outlook} {q : Char} (hq : isQuote q = true) :
    (inLiteral q o).read q = .ok (outside (o.push q)) := by
  have hn : Quote.next (some q) q = none := if_pos rfl
  -- No mark ends in a quote, so none of the windows fills here.
  have hmark : ∀ mark : Text, mark ≠ [] → (∀ c ∈ mark, isQuote c = false) → ∀ limit seen,
      Text.remember limit seen q ≠ mark := by
    intro mark hne hmark limit seen
    refine Text.remember_ne_of_getLast? hne fun hlast => ?_
    rw [hmark q (List.mem_of_getLast? hlast)] at hq
    exact absurd hq (by decide)
  rw [read_eq_handle ((look_inLiteral q o q).trans (by rw [hn]))
    (Comments.step_quiet (hmark _ (by decide) (by decide) 2 _) (hmark _ (by decide) (by decide) 2 _))
    rfl (Imports.step_idle rfl (.inl (hmark _ (by decide) (by decide) 7 _))) rfl]
  have ho : q ≠ '{' := by rintro rfl; exact absurd hq (by decide)
  have hc : q ≠ '}' := by rintro rfl; exact absurd hq (by decide)
  simp [handle, filtering, Imports.active, Cursor.quoted, Outlook.cursorOn, ho, hc]
  rfl

/-! ## In a comment

  The scan does not follow literals there, so quotes do not protect the end mark. -/

/-- All but the closing mark are passed over in a comment. -/
theorem read_inComment_inside {o : Outlook} {c : Char}
    (h : o.marks.remember 2 c ≠ Comments.closeMark) :
    (inComment o).read c = .ok (inComment (o.shown c)) := by
  rw [read_eq_handle (look_inComment o c) (Comments.step_inside rfl h) rfl
    (Imports.step_idle rfl (.inr rfl)) rfl]
  rfl

/-- The closing mark ends the comment, and nothing is pending behind it. -/
theorem read_inComment_end {o : Outlook} (h : o.marks.remember 2 '/' = Comments.closeMark) :
    (inComment o).read '/' = .ok (outside { o.shown '/' with pending := [], marks := [] }) := by
  rw [read_eq_handle (look_inComment o '/') (Comments.step_ending rfl h) rfl
    (Imports.step_idle rfl (.inr rfl)) rfl]
  rfl

/-! ## In a statement

  The comment filter is not free, so a comment is part of the statement. -/

/-- A filter may not open while the other is active. -/
theorem glance_free_of_others (k : Cursor) (c : Char) : (k.glance c true).free = false := by
  simp [Cursor.glance]

/-- All but a line feed, the keyword and a semicolon outside of literals become part of the statement. -/
theorem read_inStatement_inside {o : Outlook} {q : Quote} {begun : Text} {c : Char}
    (hk : o.words.remember 7 c ≠ Imports.keyword) (hn : c ≠ '\n')
    (hs : ¬ (c = ';' ∧ q.next c = none)) :
    (inStatement begun q o).read c = .ok (inStatement (begun ++ [c]) (q.next c) (o.shown c)) := by
  have hs' : ¬ (c = ';' ∧ (q.next c).isSome = false) := by simpa using hs
  rw [read_eq_handle (look_inStatement begun q o c)
    (Comments.step_idle rfl (glance_free_of_others _ c)) rfl (Imports.step_inside rfl hk hn hs') rfl]
  rfl

/-- A semicolon outside of literals ends the statement. -/
theorem read_inStatement_end {o : Outlook} {q : Quote} {begun : Text} (hq : q.next ';' = none) :
    (inStatement begun q o).read ';' =
      .ok (outside { o.shown ';' with
        words := []
        records := o.records ++ [⟨begun ++ [';'], o.position.line⟩] }) := by
  rw [read_eq_handle ((look_inStatement begun q o ';').trans (by rw [hq]))
    (Comments.step_idle rfl (glance_free_of_others _ ';')) rfl (Imports.step_ending rfl rfl rfl) rfl]
  rfl

/-- A line feed or another keyword is a fault. -/
theorem read_inStatement_broken {o : Outlook} {q : Quote} {begun : Text} {c : Char}
    (h : c = '\n' ∨ o.words.remember 7 c = Imports.keyword) :
    (inStatement begun q o).read c = .error .missingSemicolon := by
  obtain ⟨imports, hi, -⟩ := Imports.step_broken (f := (inStatement begun q o).imports)
    (g := (o.cursorOn c (q.next c)).glance c false) rfl h
  exact read_eq_error_of_imports (look_inStatement begun q o c)
    (Comments.step_idle rfl (glance_free_of_others _ c)) rfl hi

end Scan.State

end StyleFold
