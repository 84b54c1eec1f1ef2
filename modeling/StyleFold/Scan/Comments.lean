/-
  Comments — recognising comments.

  A comment runs from a slash and a star to the next star and slash.  The filter keeps the last two
  characters; it becomes active when they are the opening mark and asks to be closed when they are the
  closing mark, and in both cases forgets them, so that a mark takes two characters of its own.
  Closing discards the text pending before the comment.  A closing mark without a comment is a fault.
-/
import StyleFold.Scan.Reaction

namespace StyleFold

/-- The state of the comment filter. -/
structure Comments where
  /-- Whether a comment is open. -/
  active : Bool := false
  /-- The last characters seen, at most two. -/
  recent : Text := []
  deriving DecidableEq, Inhabited

namespace Comments

/-- The mark that opens a comment. -/
def openMark : Text := ['/', '*']

/-- The mark that closes a comment. -/
def closeMark : Text := ['*', '/']

/-- Show the filter one character. -/
def step (f : Comments) (g : Glance) : Comments × Reaction :=
  let recent := f.recent.remember 2 g.char
  if recent = openMark ∧ f.active = false ∧ g.free then
    (⟨true, []⟩, .opened ['/'])
  else if recent = closeMark ∧ f.active then
    (⟨true, []⟩, .ending true)
  else if recent = closeMark ∧ g.free then
    (⟨f.active, recent⟩, .failed .unmatchedCommentClose)
  else
    (⟨f.active, recent⟩, .none)

/-- The filter after its comment. -/
def close (f : Comments) : Comments := { f with active := false }

end Comments

end StyleFold
