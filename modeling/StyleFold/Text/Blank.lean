/-
  Blank — white space at the ends of a text.

  1. **The property** — `isBlank` is membership in Unicode's `White_Space` property, 25 characters
     in ten ranges.
  2. **Trimming** — `trimStart`, `trimEnd` and `trim` drop blank characters from the ends.
  3. **Tidying** — `tidy` first removes every carriage return and line feed, inside the text too, and
     then trims.  A header, a selector or a declaration is always stored tidied.
-/
import StyleFold.Text.Basic

namespace StyleFold.Text

/-! ## The property -/

/-- The code point ranges of Unicode's `White_Space` property, both ends included. -/
def blankRanges : List (Nat × Nat) :=
  [(0x09, 0x0D), (0x20, 0x20), (0x85, 0x85), (0xA0, 0xA0), (0x1680, 0x1680), (0x2000, 0x200A),
   (0x2028, 0x2029), (0x202F, 0x202F), (0x205F, 0x205F), (0x3000, 0x3000)]

/-- Whether the character is white space. -/
def isBlank (c : Char) : Bool := blankRanges.any fun r => r.1 ≤ c.toNat && c.toNat ≤ r.2

/-- The ASCII white space of the core library is blank. -/
theorem isBlank_of_isWhitespace {c : Char} (h : c.isWhitespace = true) : isBlank c = true := by
  simp only [Char.isWhitespace, Bool.or_eq_true, decide_eq_true_eq] at h
  rcases h with ((rfl | rfl) | rfl) | rfl <;> decide

/-! ## Trimming -/

/-- The text from its first character that is not blank. -/
def trimStart (t : Text) : Text := t.dropWhile isBlank

/-- The text up to its last character that is not blank. -/
def trimEnd (t : Text) : Text := (t.reverse.dropWhile isBlank).reverse

/-- The text without the blank characters at its ends. -/
def trim (t : Text) : Text := trimEnd (trimStart t)

/-! ## Tidying -/

/-- Whether the character breaks a line. -/
def isLineBreak (c : Char) : Bool := c == '\r' || c == '\n'

/-- The text without line breaks, trimmed. -/
def tidy (t : Text) : Text := trim (t.filter fun c => !isLineBreak c)

/-! ## Sanity checks -/

example : (blankRanges.map fun r => r.2 + 1 - r.1).sum = 25 := by decide
example : tidy [' ', '.', 'a', ',', '\r', '\n', ' ', '.', 'b', ' '] = ['.', 'a', ',', ' ', '.', 'b'] := by
  decide
example : tidy ['\n'] = [] := by decide
example : trim ['\u2003', 'a', '\u200b'] = ['a', '\u200b'] := by decide

end StyleFold.Text
