/-
  Reaction — the exchange between the scan and its filters.

  Comments and import statements are not part of the blocks.  Each is recognised by a *filter*, a small
  state machine that is shown every character of the text before the scan acts on it.  While a
  filter is active it swallows the characters; the scan hands a `Glance` in and gets a `Reaction` back.
-/
import StyleFold.Scan.Fault

namespace StyleFold

/-- What a filter is shown of the current character. -/
structure Glance where
  char : Char
  /-- Line of the character, counted from 1. -/
  line : Nat
  /-- Whether the character belongs to a string literal. -/
  quoted : Bool
  /-- Whether the filter may become active: outside literals, and no other filter active. -/
  free : Bool
  deriving DecidableEq, Inhabited

/-- What a filter asks of the scan. -/
inductive Reaction
  /-- Nothing. -/
  | none
  /-- The filter is active from here on, and `mark` has to be taken off the pending text. -/
  | opened (mark : Text)
  /-- The filter is done with this character; `discard` drops the pending text at once. -/
  | ending (discard : Bool)
  /-- The text is faulty. -/
  | failed (fault : Fault)
  deriving DecidableEq, Inhabited

/-- Whether the filter is to be closed after the character. -/
def Reaction.isEnding : Reaction → Bool
  | ending _ => true
  | none | opened _ | failed _ => false

end StyleFold
