/-
  Value — the values of a TOML document.

  Settings are kept in TOML files.  A value is a truth value, a number, a date or time, a string, an array or
  a table.  The library looks at neither fractions nor dates, so of those only the kind is kept; a table
  remembers how it was written, because that decides whether a later line may still add to it.
-/
import StyleFold.Text.Basic

namespace StyleFold.Toml

/-- How a table came to be. -/
inductive Form
  /-- By a header of its own; also the document itself, and the elements of an array of tables. -/
  | header
  /-- On the way to the header of a table inside it. -/
  | implied
  /-- By a dotted key. -/
  | dotted
  /-- Written out in braces. -/
  | inline
  /-- By a dotted key inside braces. -/
  | inlineDotted
  deriving DecidableEq, Inhabited

/-- Whether a dotted key made the table. -/
def Form.isDotted : Form → Bool
  | dotted | inlineDotted => true
  | header | implied | inline => false

/-- A value of a document. -/
inductive Value
  | boolean (b : Bool)
  | integer (n : Int)
  | float
  | dateTime
  | string (t : Text)
  | array (items : List Value)
  | table (form : Form) (entries : List (Text × Value))
  /-- An array of tables, each element begun by a header in double brackets. -/
  | tables (elements : List (List (Text × Value)))
  deriving Inhabited

/-- The keys and values of a table, in order of appearance. -/
abbrev Entries := List (Text × Value)

namespace Entries

/-- The value of a key. -/
def get? (entries : Entries) (key : Text) : Option Value := entries.lookup key

/-- The entries with another value for a key that is there. -/
def replace (entries : Entries) (key : Text) (value : Value) : Entries :=
  entries.map fun e => if e.1 = key then (key, value) else e

/-- The entries without a key. -/
def remove (entries : Entries) (key : Text) : Entries := entries.filter fun e => e.1 != key

end Entries

end StyleFold.Toml
