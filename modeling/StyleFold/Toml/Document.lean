/-
  Document — the table that a TOML document describes.

  The statements are taken in order.  The table whose header came last is *current*: it collects keys apart
  from the rest and is put in its place when the next header comes, or the end.  A table may have one
  header only, but a table that was made on the way to an inner one may still get its own.
-/
import StyleFold.Toml.Statement

namespace StyleFold.Toml

/-- A document under construction. -/
structure Assembly where
  /-- The finished part. -/
  root : Entries := []
  /-- The keys of the current table. -/
  current : Entries := []
  /-- Path and key of the current table; the document itself has none. -/
  place : Option (List Text × Text) := none
  /-- Whether the current table is an element of an array of tables. -/
  isElement : Bool := false
  deriving Inhabited

namespace Assembly

/-- Put the current table in its place. -/
def settle? (a : Assembly) : Option Entries :=
  match a.place with
  | none => some a.current
  | some (path, key) =>
    let put (_ : Form) (entries : Entries) : Option (Entries × Unit) :=
      match entries.get? key, a.isElement with
      | none, true => some (entries ++ [(key, .tables [a.current])], ())
      | none, false => some (entries ++ [(key, .table .header a.current)], ())
      | some (.tables elements), true =>
        some (entries.replace key (.tables (elements ++ [a.current])), ())
      | some (.table .implied _), false => some (entries.replace key (.table .header a.current), ())
      | _, _ => none
    (Entries.reach .header put path .header a.root).map Prod.fst

/-- Begin the table with that header. -/
def beginTable? (path : List Text) (key : Text) (a : Assembly) : Option Assembly := do
  let take (_ : Form) (entries : Entries) : Option (Entries × Entries) :=
    match entries.get? key with
    | none => some (entries, [])
    | some (.table .implied inner) => some (entries.remove key, inner)
    | some _ => none
  let (root, current) ← Entries.reach .header take path .header (← a.settle?)
  return { root, current, place := some (path, key), isElement := false }

/-- Begin a further element of that array of tables. -/
def beginElement? (path : List Text) (key : Text) (a : Assembly) : Option Assembly := do
  let look (_ : Form) (entries : Entries) : Option (Entries × Unit) :=
    match entries.get? key with
    | none | some (.tables _) => some (entries, ())
    | some _ => none
  let (root, _) ← Entries.reach .header look path .header (← a.settle?)
  return { root, current := [], place := some (path, key), isElement := true }

/-- Take in one more statement. -/
def add? (a : Assembly) : Statement → Option Assembly
  | .pair path key value => do
    return { a with current := ← a.current.insert? .dottedKey path key value .header }
  | .table path key => a.beginTable? path key
  | .element path key => a.beginElement? path key

end Assembly

/-- The table that a document describes, if it is well formed and defines nothing twice. -/
def document? (t : Text) : Option Entries := do
  let a ← (← statements? t).foldlM Assembly.add? {}
  a.settle?

end StyleFold.Toml
