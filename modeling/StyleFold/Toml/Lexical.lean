/-
  Lexical — the small parts of a TOML line.

  A reader takes a value off the front of a text and gives it with the rest, or fails.  Here are blanks,
  comments and line ends, and runs of digits in which single underscores may stand between digits.
-/
import StyleFold.Text.Basic

namespace StyleFold.Toml

/-- Takes a value off the front of a text. -/
abbrev Reader (α : Type) := Text → Option (α × Text)

/-! ## Blanks and line ends -/

/-- Spaces and tabs separate the parts of a line. -/
def isSpace (c : Char) : Bool := c == ' ' || c == '\t'

/-- The text after its leading spaces and tabs. -/
def skipSpaces (t : Text) : Text := t.dropWhile isSpace

/-- The text after the line feed it begins with, a carriage return before it allowed. -/
def newline? : Text → Option Text
  | '\n' :: t => some t
  | '\r' :: '\n' :: t => some t
  | _ => none

/-- What may stand in a comment: tabs and everything that is no control character of ASCII. -/
def isCommentChar (c : Char) : Bool := c == '\t' || (0x20 ≤ c.toNat && c.toNat != 0x7F)

/-- The text after the comment it begins with, if it does. -/
def skipComment : Text → Text
  | '#' :: t => t.dropWhile isCommentChar
  | t => t

/-- The text after the rest of a line that holds nothing but blanks and a comment. -/
def lineEnd? (t : Text) : Option Text :=
  match skipComment (skipSpaces t) with
  | [] => some []
  | t => newline? t

/-- The text after blanks, line ends and whole comments; `inComment` inside one of them. -/
def skipLines (inComment : Bool) : Text → Option Text
  | [] => if inComment then none else some []
  | '\n' :: t => skipLines false t
  | '\r' :: '\n' :: t => skipLines false t
  | c :: t =>
    if inComment then
      if isCommentChar c then skipLines true t else none
    else if isSpace c then
      skipLines false t
    else if c = '#' then
      skipLines true t
    else
      some (c :: t)

/-! ## Digits -/

/-- The value of a digit, letters of either case counting on from ten. -/
def digitValue? (c : Char) : Option Nat :=
  if '0' ≤ c ∧ c ≤ '9' then some (c.toNat - '0'.toNat)
  else if 'a' ≤ c ∧ c ≤ 'z' then some (c.toNat - 'a'.toNat + 10)
  else if 'A' ≤ c ∧ c ≤ 'Z' then some (c.toNat - 'A'.toNat + 10)
  else none

/-- The value of a digit in the given base. -/
def digitIn? (base : Nat) (c : Char) : Option Nat := (digitValue? c).filter fun d => d < base

/-- The digits at the front, without the underscores between them. -/
def moreDigits (base : Nat) : Text → List Nat × Text
  | [] => ([], [])
  | '_' :: c :: t =>
    match digitIn? base c with
    | some d =>
      let (ds, rest) := moreDigits base t
      (d :: ds, rest)
    | none => ([], '_' :: c :: t)
  | c :: t =>
    match digitIn? base c with
    | some d =>
      let (ds, rest) := moreDigits base t
      (d :: ds, rest)
    | none => ([], c :: t)

/-- At least one digit. -/
def digits? (base : Nat) : Reader (List Nat)
  | [] => none
  | c :: t =>
    match digitIn? base c with
    | some d =>
      let (ds, rest) := moreDigits base t
      some (d :: ds, rest)
    | none => none

/-- The number that digits write. -/
def ofDigits (base : Nat) (ds : List Nat) : Nat := ds.foldl (fun n d => n * base + d) 0

/-- Exactly `count` decimal digits, as a number. -/
def fixedDigits? (count : Nat) (t : Text) : Option (Nat × Text) :=
  let ds := (t.take count).filterMap (digitIn? 10)
  if ds.length = count then some (ofDigits 10 ds, t.drop count) else none

/-! ## Sanity checks -/

example : moreDigits 10 "1_2__3".toList = ([1, 2], "__3".toList) := by decide
example : fixedDigits? 2 "07:".toList = some (7, [':']) := by decide
example : skipLines false " # c\n x".toList = some ['x'] := by decide

end StyleFold.Toml
