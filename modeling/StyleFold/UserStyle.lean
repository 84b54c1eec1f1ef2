/-
  UserStyle — the metadata block before a stylesheet.

  A user style may begin with a comment between two markers.  `UserStyle.split` cuts it off: only white
  space may stand before the start marker, and the block ends with the first end marker.  Without a whole
  block the text is left as it is.

  The block is text to the compiler and is never looked into.  It is kept or dropped as a whole.
-/
import StyleFold.Text.Blank

namespace StyleFold

/-- The text cut in two after the first place where `mark` stands. -/
def Text.cutAfter? (mark : Text) : Text → Option (Text × Text)
  | [] => if mark = [] then some ([], []) else none
  | c :: t =>
    if mark.isPrefixOf (c :: t) then
      some ((c :: t).take mark.length, (c :: t).drop mark.length)
    else
      (cutAfter? mark t).map fun cut => (c :: cut.1, cut.2)

namespace UserStyle

/-- The words a metadata block begins with. -/
def startMark : Text := "/* ==UserStyle==".toList

/-- The words a metadata block ends with. -/
def endMark : Text := "==/UserStyle== */".toList

/-- The metadata block before the text, if there is one, and the text behind it. -/
def split (t : Text) : Option Text × Text :=
  let start := t.trimStart
  if startMark.isPrefixOf start then
    match Text.cutAfter? endMark start with
    | some (block, rest) => (some block, rest)
    | none => (none, t)
  else
    (none, t)

end UserStyle

end StyleFold
