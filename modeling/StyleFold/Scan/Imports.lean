/-
  Imports — recognising import statements.

  A statement runs from the import keyword through the first semicolon outside string literals, and has
  to end on its line.  The filter keeps the last seven characters to find the keyword; while active it
  collects the statement, and each finished statement is recorded with the line of its semicolon.
  A line feed or a second keyword before the semicolon is a fault, and so is the end of the text.

  The keyword is looked for in literals, too, since the window does not know about them.  Outside of
  statements this is harmless, for the filter is not free in a literal; inside of one a second keyword
  is a fault wherever it stands.
-/
import StyleFold.Scan.Reaction

namespace StyleFold

/-- A finished import statement. -/
structure ImportRecord where
  /-- The text from the keyword through the semicolon. -/
  statement : Text
  /-- Line of the semicolon. -/
  line : Nat
  deriving DecidableEq, Inhabited

/-- The state of the import filter. -/
structure Imports where
  /-- The statement collected so far, if one is open. -/
  statement : Option Text := none
  /-- The last characters seen, at most seven. -/
  recent : Text := []
  /-- The finished statements, in the order in which they ended. -/
  records : List ImportRecord := []
  deriving DecidableEq, Inhabited

namespace Imports

/-- The word an import statement begins with. -/
def keyword : Text := ['@', 'i', 'm', 'p', 'o', 'r', 't']

/-- The keyword without its last character: what stands in the pending text when it is found. -/
def keywordStart : Text := ['@', 'i', 'm', 'p', 'o', 'r']

/-- Whether a statement is open. -/
def active (f : Imports) : Bool := f.statement.isSome

/-- Show the filter one character. -/
def step (f : Imports) (g : Glance) : Imports × Reaction :=
  let recent := f.recent.remember 7 g.char
  if recent = keyword then
    if f.active then ({ f with recent }, .failed .missingSemicolon)
    else if g.free then ({ f with statement := some keyword, recent := [] }, .opened keywordStart)
    else ({ f with recent }, .none)
  else
    match f.statement with
    | none => ({ f with recent }, .none)
    | some begun =>
      let statement := begun ++ [g.char]
      if g.char = ';' ∧ g.quoted = false then
        ({ statement := some [], recent := [], records := f.records ++ [⟨statement, g.line⟩] },
          .ending false)
      else if g.char = '\n' then
        ({ f with statement := some statement, recent }, .failed .missingSemicolon)
      else
        ({ f with statement := some statement, recent }, .none)

/-- The filter after its statement. -/
def close (f : Imports) : Imports := { f with statement := none }

/-- The fault of a text that ends here, if it may not. -/
def fault? (f : Imports) : Option Fault := if f.active then some .missingSemicolon else none

/-- The filter without its records. -/
def clearRecords (f : Imports) : Imports := { f with records := [] }

end Imports

end StyleFold
