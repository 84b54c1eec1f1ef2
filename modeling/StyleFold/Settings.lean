/-
  Settings — what a user can choose about a compile run.
-/
import StyleFold.Print.Layout

namespace StyleFold

/-- The settings of a compile run. -/
structure Settings where
  /-- Check each merge pass against its input. -/
  verify : Bool := true
  /-- Keep a leading metadata block in the output. -/
  preserveMetadata : Bool := true
  /-- How sheets are printed. -/
  layout : Layout := {}
  deriving DecidableEq, Inhabited

end StyleFold
