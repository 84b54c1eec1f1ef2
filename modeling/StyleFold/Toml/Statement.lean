/-
  Statement — the lines of a TOML document.

  A document is a sequence of statements: a key with its value, the header of a table, or the header of a
  further element of an array of tables.  Values are read by recursion on explicit fuel, the length of
  the text being enough, and nest less than `nestingLimit` deep.
-/
import StyleFold.Toml.Number
import StyleFold.Toml.Quoted
import StyleFold.Toml.Table

namespace StyleFold.Toml

/-- Paths have fewer keys, and values fewer levels, than this. -/
def nestingLimit : Nat := 80

/-! ## Keys -/

/-- What may stand in a key without quotes. -/
def isBareChar (c : Char) : Bool :=
  ('a' ≤ c ∧ c ≤ 'z') || ('A' ≤ c ∧ c ≤ 'Z') || ('0' ≤ c ∧ c ≤ '9') || c == '-' || c == '_'

/-- One key, bare or quoted. -/
def key? (t : Text) : Option (Text × Text) :=
  match t with
  | '"' :: _ | '\'' :: _ => lineString? t
  | t => if (t.takeWhile isBareChar).isEmpty then none else some (t.span isBareChar)

/-- Keys with points between them, blanks around each. -/
def keysWithin : Nat → Text → Option (List Text × Text)
  | 0, _ => none
  | fuel + 1, t => do
    let (key, t) ← key? (skipSpaces t)
    match skipSpaces t with
    | '.' :: t =>
      let (keys, t) ← keysWithin fuel t
      return (key :: keys, t)
    | t => return ([key], t)

/-- A path of keys. -/
def keys? (t : Text) : Option (List Text × Text) :=
  (keysWithin (t.length + 1) t).filter fun r => r.1.length < nestingLimit

/-- A path of keys, its last key apart. -/
def keyPath? (t : Text) : Option ((List Text × Text) × Text) := do
  let (keys, t) ← keys? t
  return ((keys.dropLast, ← keys.getLast?), t)

/-! ## Values -/

/-- A key and its value, with the path in front of the key. -/
abbrev Pair := List Text × Text × Value

mutual

/-- A value at nesting level `depth`. -/
def valueWithin (fuel depth : Nat) (t : Text) : Option (Value × Text) :=
  match fuel with
  | 0 => none
  | fuel + 1 =>
    match t with
    | '"' :: _ | '\'' :: _ => (string? t).map fun r => (.string r.1, r.2)
    | '[' :: t =>
      if depth + 1 < nestingLimit then
        (itemsWithin fuel (depth + 1) t).map fun r => (.array r.1, r.2)
      else none
    | '\x7b' :: t =>
      if depth + 1 < nestingLimit then do
        let (pairs, t) ← pairsWithin fuel (depth + 1) true t
        return (.table .inline (← Entries.ofPairs? pairs), t)
      else none
    | 't' :: 'r' :: 'u' :: 'e' :: t => some (.boolean true, t)
    | 'f' :: 'a' :: 'l' :: 's' :: 'e' :: t => some (.boolean false, t)
    | t => number? t

/-- The items of an array up to its closing bracket; a comma may follow the last. -/
def itemsWithin (fuel depth : Nat) (t : Text) : Option (List Value × Text) :=
  match fuel with
  | 0 => none
  | fuel + 1 => do
    match ← skipLines false t with
    | ']' :: t => return ([], t)
    | t =>
      let (item, t) ← valueWithin fuel depth t
      match ← skipLines false t with
      | ',' :: t =>
        let (items, t) ← itemsWithin fuel depth t
        return (item :: items, t)
      | ']' :: t => return ([item], t)
      | _ => none

/-- The keys and values in braces up to the closing one; `first` where braces may still be empty. -/
def pairsWithin (fuel depth : Nat) (first : Bool) (t : Text) : Option (List Pair × Text) :=
  match fuel with
  | 0 => none
  | fuel + 1 =>
    match first, skipSpaces t with
    | true, '\x7d' :: t => some ([], t)
    | _, t => do
      let ((path, key), t) ← keyPath? t
      let (value, t) ← valueWithin fuel depth (skipSpaces (← skip? '=' t))
      match skipSpaces t with
      | ',' :: t =>
        let (pairs, t) ← pairsWithin fuel depth false t
        return ((path, key, value) :: pairs, t)
      | '\x7d' :: t => return ([(path, key, value)], t)
      | _ => none

end

/-- A value. -/
def value? (t : Text) : Option (Value × Text) := valueWithin (2 * t.length + 1) 0 t

/-! ## Statements -/

/-- A line of a document. -/
inductive Statement
  /-- A key and its value. -/
  | pair (path : List Text) (key : Text) (value : Value)
  /-- The header of a table. -/
  | table (path : List Text) (key : Text)
  /-- The header of an element of an array of tables. -/
  | element (path : List Text) (key : Text)
  deriving Inhabited

/-- The statement at the front of a text, with the rest of its line. -/
def statement? (t : Text) : Option (Statement × Text) :=
  match t with
  | '[' :: '[' :: t => do
    let ((path, key), t) ← keyPath? t
    return (.element path key, ← lineEnd? (← skip? ']' (← skip? ']' t)))
  | '[' :: t => do
    let ((path, key), t) ← keyPath? t
    return (.table path key, ← lineEnd? (← skip? ']' t))
  | t => do
    let ((path, key), t) ← keyPath? t
    let (value, t) ← value? (skipSpaces (← skip? '=' t))
    return (.pair path key value, ← lineEnd? t)

/-- The statements of a text. -/
def statementsWithin : Nat → Text → Option (List Statement)
  | 0, _ => none
  | fuel + 1, t =>
    match skipSpaces t with
    | [] => some []
    | t =>
      match lineEnd? t with
      | some rest => statementsWithin fuel rest
      | none => do
        let (s, rest) ← statement? t
        return s :: (← statementsWithin fuel rest)

/-- The text without the mark that some editors put in front. -/
def dropByteOrderMark : Text → Text
  | '\ufeff' :: t => t
  | t => t

/-- The statements of a document, if every line is well formed. -/
def statements? (t : Text) : Option (List Statement) :=
  statementsWithin (t.length + 1) (dropByteOrderMark t)

end StyleFold.Toml
