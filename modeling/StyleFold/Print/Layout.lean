/-
  Layout — how a sheet is laid out when it is printed.

  A sheet is printed as a sequence of lines of text, each at a nesting depth.  The layout says whether the
  lines are indented and broken or run together, and whether each is wrapped in a colour of its depth.

  A layout has no say in what is printed.  The lines are the same in all layouts, and only what stands
  between and around them differs.
-/
import StyleFold.Text.Basic

namespace StyleFold

/-- The indentation of one nesting level. -/
inductive Indent
  /-- No line breaks at all. -/
  | none
  /-- That many spaces per level. -/
  | spaces (width : Nat)
  /-- One tab per level. -/
  | tabs
  deriving DecidableEq, Inhabited

namespace Indent

/-- Whether every line stands on a line of its own. -/
def isMultiline : Indent → Bool
  | none => false
  | spaces _ | tabs => true

/-- The text before a line, per level. -/
def unit : Indent → Text
  | none => []
  | spaces width => List.replicate width ' '
  | tabs => ['\t']

end Indent

/-- The layout of a printed sheet. -/
structure Layout where
  /-- Whether lines are coloured by depth. -/
  color : Bool := false
  indent : Indent := .none
  deriving DecidableEq, Inhabited

namespace Layout

/-- Everything on one line, without colour. -/
def minified : Layout := {}

/-- Four spaces per level, without colour. -/
def pretty : Layout := { indent := .spaces 4 }

/-- The terminal sequences that choose a colour, by depth: magenta, cyan, green, red, yellow. -/
def palette : List Text :=
  ["\x1b[35m".toList, "\x1b[36m".toList, "\x1b[32m".toList, "\x1b[31m".toList, "\x1b[33m".toList]

/-- The terminal sequence that ends a colour. -/
def plain : Text := "\x1b[0m".toList

/-- The colour of a depth; the palette is used over and over. -/
def colorAt (depth : Nat) : Text := palette[depth % palette.length]?.getD []

end Layout

end StyleFold
