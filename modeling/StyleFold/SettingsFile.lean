/-
  SettingsFile — settings as a TOML document.

  1. **Reading** — every setting has a default, so an empty document will do; unknown keys are passed over, a
     value of the wrong type is a fault.  The layout may be a table with its keys or an array with its
     values in order; the indentation is a word, or a table with the word for its only key.
  2. **Writing** — all settings are written out, and reading them gives the settings back.
-/
import StyleFold.Settings
import StyleFold.Toml.Document

namespace StyleFold

open Toml

/-- What can be wrong with a settings document. -/
inductive SettingsFault
  /-- The text is no TOML document. -/
  | malformed
  /-- The value of a key is not of its type. -/
  | wrongType (key : String)
  deriving DecidableEq, Inhabited

/-- The fault in words. -/
def SettingsFault.message : SettingsFault → String
  | malformed => "the text is not a TOML document"
  | wrongType key => s!"the value of {key} has the wrong type"

namespace Settings

/-! ## Reading -/

/-- A truth value, `default` where there is none. -/
def readFlag (key : String) (default : Bool) : Option Value → Except SettingsFault Bool
  | none => .ok default
  | some (.boolean b) => .ok b
  | some _ => .error (.wrongType key)

/-- Whether the value holds nothing: it then stands for a word without a number. -/
def isEmptyValue : Value → Bool
  | .array [] | .table _ [] | .tables [] => true
  | _ => false

/-- The indentation that a word names. -/
def indentOfWord? (word : Text) : Option Indent :=
  if word = "none".toList then some .none
  else if word = "tabs".toList then some .tabs
  else none

/-- The indentation that the only key of a table names. -/
def indentOfEntry? (key : Text) (value : Value) : Option Indent :=
  if key = "spaces".toList then
    match value with
    | .integer (.ofNat width) => some (.spaces width)
    | _ => none
  else if isEmptyValue value then
    indentOfWord? key
  else
    none

/-- The indentation that a value names. -/
def indentOfValue? : Value → Option Indent
  | .string word => indentOfWord? word
  | .table _ [(key, value)] => indentOfEntry? key value
  | _ => none

/-- An indentation, none where there is no value. -/
def readIndent : Option Value → Except SettingsFault Indent
  | none => .ok .none
  | some value =>
    match indentOfValue? value with
    | some indent => .ok indent
    | none => .error (.wrongType "indent")

/-- A layout from the values of its two settings. -/
def layoutOf (color indent : Option Value) : Except SettingsFault Layout := do
  return { color := ← readFlag "color" false color, indent := ← readIndent indent }

/-- A layout, the default where there is no value. -/
def readLayout : Option Value → Except SettingsFault Layout
  | none | some .dateTime => .ok {}
  | some (.table _ entries) =>
    layoutOf (Entries.get? entries "color".toList) (Entries.get? entries "indent".toList)
  | some (.array items) => layoutOf items[0]? items[1]?
  | some _ => .error (.wrongType "print")

/-- The settings that the entries of a document make. -/
def ofEntries (entries : Entries) : Except SettingsFault Settings := do
  return {
    verify := ← readFlag "verify" true (entries.get? "verify".toList)
    preserveMetadata :=
      ← readFlag "preserve_metadata" true (entries.get? "preserve_metadata".toList)
    layout := ← readLayout (entries.get? "print".toList) }

/-- The settings in a document. -/
def ofToml (t : Text) : Except SettingsFault Settings :=
  match document? t with
  | some entries => ofEntries entries
  | none => .error .malformed

/-! ## Writing -/

/-- The setting of the indentation. -/
def indentLines : Indent → String
  | .none => "indent = \"none\"\n"
  | .tabs => "indent = \"tabs\"\n"
  | .spaces width => s!"\n[print.indent]\nspaces = {width}\n"

/-- The settings as a document, unless a number does not fit 64 bits with a sign. -/
def toToml? (s : Settings) : Option String :=
  let written :=
    s!"verify = {s.verify}\npreserve_metadata = {s.preserveMetadata}\n\n[print]\n" ++
      s!"color = {s.layout.color}\n" ++ indentLines s.layout.indent
  match s.layout.indent with
  | .spaces width => if width < Nat.pow 2 63 then some written else none
  | .none | .tabs => some written

/-! ## Sanity checks -/

example : readIndent (some (.table .inline [("spaces".toList, .integer 2)])) = .ok (.spaces 2) := rfl
example : readIndent (some (.string "spaces".toList)) = .error (.wrongType "indent") := rfl
example : readLayout (some (.array [.boolean true])) = .ok { color := true } := rfl

end Settings

end StyleFold
