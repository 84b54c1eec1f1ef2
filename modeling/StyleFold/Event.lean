/-
  Event — what a run reports about itself.

  An event is a message with a level.  Events are values: the library computes the list of events of a
  parse, a merge or a compile from their results, and the outer layer decides which of them to show.
-/

namespace StyleFold

/-- How severe an event is, most severe first. -/
inductive Level
  | error
  | warn
  | info
  | debug
  | trace
  deriving DecidableEq, Inhabited

namespace Level

/-- Position in the order of severity, 0 for the most severe. -/
def rank : Level → Nat
  | error => 0
  | warn => 1
  | info => 2
  | debug => 3
  | trace => 4

/-- The name of the level as a log shows it. -/
def name : Level → String
  | error => "ERROR"
  | warn => "WARN"
  | info => "INFO"
  | debug => "DEBUG"
  | trace => "TRACE"

end Level

/-- One message of a run. -/
structure Event where
  level : Level
  message : String
  deriving DecidableEq, Inhabited

namespace Event

/-- Whether a log kept at `threshold` shows the event. -/
def isShownAt (threshold : Level) (e : Event) : Bool := e.level.rank ≤ threshold.rank

/-- The events that a log kept at `threshold` shows, in order. -/
def shownAt (threshold : Level) (events : List Event) : List Event :=
  events.filter (isShownAt threshold)

example : shownAt .warn [⟨.info, "a"⟩, ⟨.error, "b"⟩, ⟨.warn, "c"⟩] = [⟨.error, "b"⟩, ⟨.warn, "c"⟩] := by
  decide

end Event

end StyleFold
