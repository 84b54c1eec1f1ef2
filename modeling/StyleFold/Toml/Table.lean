/-
  Table — reaching into tables by a path of keys.

  A key path reaches into tables and makes those that are missing.  Which tables it may enter depends on who
  asks: a header may enter every table of the document, a dotted key only tables that dotted keys or
  deeper headers have made, and a dotted key inside braces only its own kind.  A path that meets an array
  of tables enters the last element.  Nothing may be defined twice.
-/
import StyleFold.Toml.Value

namespace StyleFold.Toml

/-- Who reaches into a table. -/
inductive Access
  /-- A table header. -/
  | header
  /-- A dotted key of the document. -/
  | dottedKey
  /-- A dotted key inside braces. -/
  | inlineKey
  deriving DecidableEq, Inhabited

namespace Access

/-- The form of a table made on the way. -/
def fresh : Access → Form
  | header => .implied
  | dottedKey => .dotted
  | inlineKey => .inlineDotted

/-- Whether a table of that form may be entered. -/
def enters : Access → Form → Bool
  | header, .header | header, .implied | header, .dotted => true
  | dottedKey, .implied | dottedKey, .dotted => true
  | inlineKey, .inlineDotted => true
  | _, _ => false

end Access

/-- Change the last element of a list, if there is one. -/
def changeLast? {α β : Type} (f : α → Option (α × β)) : List α → Option (List α × β)
  | [] => none
  | [a] => (f a).map fun r => ([r.1], r.2)
  | a :: l => (changeLast? f l).map fun r => (a :: r.1, r.2)

namespace Entries

/-- Change the table at the end of a path, making tables on the way; `f` is told their form. -/
def reach {β : Type} (access : Access) (f : Form → Entries → Option (Entries × β)) :
    List Text → Form → Entries → Option (Entries × β)
  | [], form, entries => f form entries
  | key :: path, _, entries =>
    match entries.get? key with
    | none => do
      let (inner, result) ← reach access f path access.fresh []
      return (entries ++ [(key, .table access.fresh inner)], result)
    | some (.table form inner) =>
      if access.enters form then do
        let (inner, result) ← reach access f path form inner
        return (entries.replace key (.table form inner), result)
      else
        none
    | some (.tables elements) =>
      if access = .inlineKey then
        none
      else do
        let (elements, result) ← changeLast? (reach access f path .header) elements
        return (entries.replace key (.tables elements), result)
    | some _ => none

/-- Add a key with its value at the end of a path. -/
def insert? (access : Access) (path : List Text) (key : Text) (value : Value) (form : Form)
    (entries : Entries) : Option Entries :=
  let put (form : Form) (entries : Entries) : Option (Entries × Unit) :=
    if form.isDotted = path.isEmpty then none
    else if (entries.get? key).isSome then none
    else some (entries ++ [(key, value)], ())
  (reach access put path form entries).map Prod.fst

/-- A table in braces from its keys and values. -/
def ofPairs? (pairs : List (List Text × Text × Value)) : Option Entries :=
  pairs.foldlM (fun entries p => entries.insert? .inlineKey p.1 p.2.1 p.2.2 .inline) []

end Entries

end StyleFold.Toml
