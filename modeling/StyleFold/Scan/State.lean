/-
  State — the scan, one character at a time.

  `State.read` handles a character in five steps, in this order:

  1. `look` — count a line feed, and open or close a string literal unless a comment is open;
  2. `pollComments` — show the character to the comment filter;
  3. `pollImports` — show it to the import filter;
  4. `handle` — unless a filter is active, a brace outside literals opens or closes a block, and any
     other character is pending text;
  5. `settle` — only now close a filter that asked for it, so that it has swallowed its last
     character, and go on.

  `State.run` reads a whole text and locates the first fault.
-/
import StyleFold.Scan.Blocks
import StyleFold.Scan.Comments
import StyleFold.Scan.Cursor
import StyleFold.Scan.Imports

namespace StyleFold.Scan

/-- The state of a scan between two characters. -/
structure State where
  cursor : Cursor := {}
  comments : Comments := {}
  imports : Imports := {}
  blocks : Blocks := {}
  deriving DecidableEq, Inhabited

namespace State

/-- Whether a filter swallows the characters. -/
def filtering (s : State) : Bool := s.comments.active || s.imports.active

/-! ## The five steps -/

/-- Count lines and follow string literals; quotes inside comments are text. -/
def look (s : State) (c : Char) : State :=
  let cursor := s.cursor.countLine c
  { s with cursor := if s.comments.active then cursor else cursor.trackQuote c }

/-- Show the character to the comment filter; tells whether the comment ends with it. -/
def pollComments (s : State) (c : Char) : Except Fault (State × Bool) := do
  let (comments, cursor, ends) ← s.cursor.poll s.comments.step c s.imports.active
  return ({ s with cursor, comments }, ends)

/-- Show the character to the import filter; tells whether the statement ends with it. -/
def pollImports (s : State) (c : Char) : Except Fault (State × Bool) := do
  let (imports, cursor, ends) ← s.cursor.poll s.imports.step c s.comments.active
  return ({ s with cursor, imports }, ends)

/-- Handle a character that no filter has swallowed. -/
def handle (s : State) (c : Char) : Except Fault State :=
  if s.filtering then
    .ok s
  else if s.cursor.quoted then
    .ok { s with cursor := s.cursor.push [c] }
  else if c = '{' then
    match s.blocks.openBlock s.cursor.pending s.cursor.line with
    | .ok blocks => .ok { s with blocks, cursor := s.cursor.clear }
    | .error fault => .error fault
  else if c = '}' then
    match s.blocks.closeBlock s.cursor.pending with
    | .ok blocks => .ok { s with blocks, cursor := s.cursor.clear }
    | .error fault => .error fault
  else
    .ok { s with cursor := s.cursor.push [c] }

/-- Close the filters that end with this character and go on to the next. -/
def settle (s : State) (commentEnds importEnds : Bool) : State :=
  { s with
    cursor := s.cursor.advance
    comments := if commentEnds then s.comments.close else s.comments
    imports := if importEnds then s.imports.close else s.imports }

/-- Read one character. -/
def read (s : State) (c : Char) : Except Fault State := do
  let (s, commentEnds) ← (s.look c).pollComments c
  let (s, importEnds) ← s.pollImports c
  let s ← s.handle c
  return s.settle commentEnds importEnds

/-! ## Whole texts -/

/-- Read a text, `input` being the whole of which failures show an excerpt. -/
def run (input : Text) (s : State) : Text → Except Failure State
  | [] => .ok s
  | c :: rest =>
    match s.read c with
    | .ok s => run input s rest
    | .error fault => .error ((s.look c).cursor.failure input fault)

/-- The sheet at the end of the text, its import statements after everything else. -/
def finish (input : Text) (s : State) : Except Failure Node :=
  if 0 < s.blocks.depth then
    .error (s.cursor.failure input .unbalancedBraces)
  else
    match s.imports.fault? with
    | some fault => .error (s.cursor.failure input fault)
    | none =>
      .ok (s.imports.records.foldl
        (fun sheet r => sheet.push (.importStatement r.line [] r.statement)) s.blocks.sheet)

end State

end StyleFold.Scan
