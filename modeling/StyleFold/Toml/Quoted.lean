/-
  Quoted — the four kinds of TOML string.

  Basic strings stand in double quotes and have escapes, literal strings in single quotes and have none.
  Either may be written with tripled quotes; it then runs over several lines, drops a line end right
  after the opening quotes, and may hold one or two quotes in a row, also before the closing ones.  In a basic
  string over several lines a backslash at the end of a line swallows the line end and all blanks after it.
-/
import StyleFold.Toml.Lexical

namespace StyleFold.Toml

/-- Where the reader of a basic string stands. -/
inductive Escape
  /-- Outside escapes. -/
  | none
  /-- After a backslash. -/
  | begun
  /-- Inside a numeric escape, with so many digits to come. -/
  | numeric (left value : Nat)
  /-- After a backslash at the end of a line; a line end may still have to come. -/
  | folding (ended : Bool)
  deriving DecidableEq, Inhabited

/-- The character of a one-letter escape. -/
def escaped? : Char → Option Char
  | 'b' => some '\x08'
  | 't' => some '\t'
  | 'n' => some '\n'
  | 'f' => some '\x0c'
  | 'r' => some '\r'
  | '"' => some '"'
  | '\\' => some '\\'
  | _ => none

/-- The rest of a text that closes a string with tripled quotes, and the quotes that belong to it. -/
def closing (quote : Char) : Text → Text × Text
  | c :: d :: t =>
    if c = quote then if d = quote then ([quote, quote], t) else ([quote], d :: t)
    else ([], c :: d :: t)
  | [c] => if c = quote then ([quote], []) else ([], [c])
  | [] => ([], [])

/-- The contents of a basic string from here to its closing quotes. -/
def basicBody (multiline : Bool) (state : Escape) : Text → Option (Text × Text)
  | [] => Option.none
  | c :: t =>
    match state with
    | .begun =>
      if multiline && isSpace c then
        basicBody multiline (.folding false) t
      else if multiline && c == '\n' then
        basicBody multiline (.folding true) t
      else if c = 'u' then
        basicBody multiline (.numeric 4 0) t
      else if c = 'U' then
        basicBody multiline (.numeric 8 0) t
      else
        match c, t with
        | '\r', '\n' :: t =>
          if multiline then basicBody multiline (.folding true) t else Option.none
        | c, t =>
          match escaped? c with
          | some e => (basicBody multiline .none t).map fun r => (e :: r.1, r.2)
          | Option.none => Option.none
    | .numeric left value =>
      match digitIn? 16 c with
      | Option.none => Option.none
      | some d =>
        let value := value * 16 + d
        if 1 < left then
          basicBody multiline (.numeric (left - 1) value) t
        else if value.isValidChar then
          (basicBody multiline .none t).map fun r => (Char.ofNat value :: r.1, r.2)
        else
          Option.none
    | .none | .folding _ =>
      let folding := state != .none
      if folding && isSpace c then
        basicBody multiline state t
      else
        match c, t with
        | '\n', t =>
          if folding then basicBody multiline (.folding true) t
          else if multiline then (basicBody multiline .none t).map fun r => ('\n' :: r.1, r.2)
          else Option.none
        | '\r', '\n' :: t =>
          if folding then basicBody multiline (.folding true) t
          else if multiline then (basicBody multiline .none t).map fun r => ('\n' :: r.1, r.2)
          else Option.none
        | c, t =>
          if state = .folding false then
            Option.none
          else if c = '\\' then
            basicBody multiline .begun t
          else if c = '"' then
            if multiline then
              match t with
              | '"' :: '"' :: rest => some (closing '"' rest)
              | t => (basicBody multiline .none t).map fun r => ('"' :: r.1, r.2)
            else
              some ([], t)
          else if isCommentChar c then
            (basicBody multiline .none t).map fun r => (c :: r.1, r.2)
          else
            Option.none

/-- The contents of a literal string from here to its closing quotes. -/
def literalBody (multiline : Bool) : Text → Option (Text × Text)
  | [] => none
  | '\'' :: t =>
    if multiline then
      match t with
      | '\'' :: '\'' :: rest => some (closing '\'' rest)
      | t => (literalBody multiline t).map fun r => ('\'' :: r.1, r.2)
    else
      some ([], t)
  | '\r' :: '\n' :: t =>
    if multiline then (literalBody multiline t).map fun r => ('\n' :: r.1, r.2) else none
  | c :: t =>
    if isCommentChar c || (multiline && c == '\n') then
      (literalBody multiline t).map fun r => (c :: r.1, r.2)
    else
      none

/-- A string on one line, as it may also stand as a key. -/
def lineString? : Reader Text
  | '"' :: t => basicBody false .none t
  | '\'' :: t => literalBody false t
  | _ => none

/-- The text without the line end it begins with. -/
def dropNewline (t : Text) : Text := (newline? t).getD t

/-- Any string. -/
def string? : Reader Text
  | '"' :: '"' :: '"' :: t => basicBody true .none (dropNewline t)
  | '\'' :: '\'' :: '\'' :: t => literalBody true (dropNewline t)
  | t => lineString? t

/-! ## Sanity checks -/

example : string? "\"a\\u0062\"x".toList = some ("ab".toList, ['x']) := by decide +kernel
example : string? "\"\"\"\"a\"\"\"\" x".toList = some ("\"a\"".toList, " x".toList) := by decide +kernel
example : string? "\"\"\"\na\\ \n  b\"\"\"".toList = some ("ab".toList, []) := by decide +kernel
example : string? "''".toList = some ([], []) := by decide +kernel
example : string? "\"a\n\"".toList = none := by decide +kernel

end StyleFold.Toml
