/-
  CompileError — why a compile yields nothing.

  A stylesheet may be faulty, a file unreadable, a settings file invalid.  Violations of integrity are no
  errors in this sense; they are reported beside a result.
-/
import StyleFold.Scan.Fault

namespace StyleFold

/-- The errors that end a compile. -/
inductive CompileError
  /-- The text is no stylesheet. -/
  | scan (failure : Failure)
  /-- The file cannot be read. -/
  | unreadable (path reason : String)
  /-- The settings in the file make no sense. -/
  | invalidSettings (path reason : String)
  deriving DecidableEq

namespace CompileError

/-- The error in one message. -/
def message : CompileError → String
  | scan failure => failure.message
  | unreadable path reason => s!"Failed to read '{path}': {reason}"
  | invalidSettings path reason => s!"Invalid configuration '{path}': {reason}"

/-- The failure of the scan, if it was the scan that failed. -/
def failure? : CompileError → Option Failure
  | scan failure => some failure
  | unreadable .. | invalidSettings .. => none

end CompileError

end StyleFold
