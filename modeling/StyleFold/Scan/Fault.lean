/-
  Fault — why a text is no stylesheet, and where.

  Faults say what is wrong, and failures where.  Only the scan knows places, so filters and blocks raise
  faults, and the scan locates them.

  1. **Faults** — the five causes, each with the reason shown to the user.
  2. **Excerpts** — the characters around a position, at most `excerptRadius` before it and
     `excerptRadius` from it on.
  3. **Failures** — a fault with the position and the line of the offending character.
-/
import StyleFold.Text.Basic

namespace StyleFold

/-! ## Faults -/

/-- The causes for which a scan fails. -/
inductive Fault
  /-- A closing brace with no block open. -/
  | unmatchedClose
  /-- An opening brace inside the body of a rule. -/
  | nestedBlock
  /-- The end of a comment where no comment is open. -/
  | unmatchedCommentClose
  /-- An import statement that does not end on its line. -/
  | missingSemicolon
  /-- Blocks still open where the text ends. -/
  | unbalancedBraces
  deriving DecidableEq, Inhabited

/-- The reason shown to the user. -/
def Fault.reason : Fault → String
  | unmatchedClose => "Closing brace without a matching block"
  | nestedBlock => "Block opened inside a rule body"
  | unmatchedCommentClose => "Comment closed without being opened"
  | missingSemicolon => "Missing semicolon after @import"
  | unbalancedBraces => "Braces are not balanced at end of input"

/-! ## Excerpts -/

/-- Number of characters an excerpt shows on each side of its position. -/
def excerptRadius : Nat := 100

/-- The characters of `input` around position `index`. -/
def excerpt (input : Text) (index : Nat) : Text :=
  (input.take (index + excerptRadius)).drop (index - excerptRadius)

/-- An excerpt is never longer than both radii together. -/
theorem length_excerpt_le (input : Text) (index : Nat) :
    (excerpt input index).length ≤ 2 * excerptRadius := by
  simp only [excerpt, List.length_drop, List.length_take]
  omega

/-! ## Failures -/

/-- A fault at a place of the text. -/
structure Failure where
  fault : Fault
  /-- Number of characters before the offending one. -/
  index : Nat
  /-- Line of the offending character, counted from 1. -/
  line : Nat
  /-- The text around the offending character. -/
  excerpt : Text
  deriving DecidableEq, Inhabited

namespace Failure

/-- The failure with its excerpt cut out of the input. -/
def locate (fault : Fault) (input : Text) (index line : Nat) : Failure :=
  ⟨fault, index, line, StyleFold.excerpt input index⟩

/-- Reason, line and excerpt in one message. -/
def message (f : Failure) : String :=
  let around := String.ofList f.excerpt
  s!"{f.fault.reason} at line {f.line}: {around}"

end Failure

end StyleFold
