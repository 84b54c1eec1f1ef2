/-
  Cursor — where a scan stands in its text.

  The cursor counts characters and lines, knows the open string literal, and holds the *pending text*:
  what was read since the last brace or comment and is not yet part of a header or of a body.

  A filter does not touch the cursor.  It sees the cursor through a `Glance` and says by its `Reaction`
  what is to be done with the pending text; both filters are shown a character by the same step, `poll`.
-/
import StyleFold.Scan.Reaction
import StyleFold.Text.Quoted

namespace StyleFold

/-- The place of a scan and the text pending there. -/
structure Cursor where
  /-- Number of characters read. -/
  index : Nat := 0
  /-- Line of the current character, counted from 1. -/
  line : Nat := 1
  /-- The open string literal. -/
  quote : Quote := none
  /-- The text read since the last brace or comment. -/
  pending : Text := []
  deriving DecidableEq, Inhabited

namespace Cursor

/-- A line feed begins a new line, already for itself. -/
def countLine (k : Cursor) (c : Char) : Cursor :=
  { k with line := if c = '\n' then k.line + 1 else k.line }

/-- Open or close a string literal at a quote character. -/
def trackQuote (k : Cursor) (c : Char) : Cursor := { k with quote := k.quote.next c }

/-- Whether a string literal is open. -/
def quoted (k : Cursor) : Bool := k.quote.isSome

/-- Append to the pending text. -/
def push (k : Cursor) (t : Text) : Cursor := { k with pending := k.pending ++ t }

/-- Take `mark` off the end of the pending text, if it stands there. -/
def dropMark (k : Cursor) (mark : Text) : Cursor := { k with pending := k.pending.dropSuffix mark }

/-- Drop the pending text. -/
def clear (k : Cursor) : Cursor := { k with pending := [] }

/-- Go on to the next character. -/
def advance (k : Cursor) : Cursor := { k with index := k.index + 1 }

/-- Stand at another place; literal and pending text stay. -/
def seek (k : Cursor) (index line : Nat) : Cursor := { k with index, line }

/-- What a filter is shown at this place, `others` telling whether another filter is active. -/
def glance (k : Cursor) (c : Char) (others : Bool) : Glance :=
  ⟨c, k.line, k.quoted, !k.quoted && !others⟩

/-- The pending text as a filter's reaction leaves it. -/
def heed (k : Cursor) : Reaction → Except Fault Cursor
  | .none | .ending false => .ok k
  | .opened mark => .ok (k.dropMark mark)
  | .ending true => .ok k.clear
  | .failed fault => .error fault

/-- Show the character to a filter, which its step stands for; `others` tells whether another filter is
    active.  What comes out is the filter after its step, the cursor as the reaction leaves it, and
    whether the filter ends with this character. -/
def poll {F : Type} (k : Cursor) (step : Glance → F × Reaction) (c : Char) (others : Bool) :
    Except Fault (F × Cursor × Bool) :=
  let (filter, reaction) := step (k.glance c others)
  match k.heed reaction with
  | .ok cursor => .ok (filter, cursor, reaction.isEnding)
  | .error fault => .error fault

/-- A filter was shown a character if it reacted to it, and the cursor could heed the reaction. -/
theorem poll_eq_ok_iff {F : Type} {k k' : Cursor} {step : Glance → F × Reaction} {c : Char}
    {others ends : Bool} {filter : F} : k.poll step c others = .ok (filter, k', ends) ↔
      ∃ reaction, step (k.glance c others) = (filter, reaction) ∧ k.heed reaction = .ok k' ∧
        reaction.isEnding = ends := by
  constructor
  · intro h
    rcases hstep : step (k.glance c others) with ⟨filter', reaction⟩
    rw [poll, hstep] at h
    rcases hheed : k.heed reaction with fault | cursor
    · exact absurd h (by simp [hheed])
    · obtain ⟨rfl, rfl, rfl⟩ : filter' = filter ∧ cursor = k' ∧ reaction.isEnding = ends := by
        simpa [hheed] using h
      exact ⟨reaction, rfl, hheed, rfl⟩
  · rintro ⟨reaction, hstep, hheed, rfl⟩
    simp [poll, hstep, hheed]

/-- A fault at this place of the input. -/
def failure (k : Cursor) (input : Text) (fault : Fault) : Failure :=
  Failure.locate fault input k.index k.line

end Cursor

end StyleFold
