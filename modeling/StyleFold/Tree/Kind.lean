/-
  Kind — what a node of a style tree can be.

  Kinds are what the integrity walk compares first and what the keys of nodes begin with.

  1. **At-rules** — the four kinds of at-rule block that keep nodes inside, and the words a header
     begins with for each of them.  A header that begins with none of the words opens a plain rule,
     `@font-face` and `@page` among them.
  2. **Kinds** — the seven kinds of node, with their names in diagnostics.
-/
import StyleFold.Text.Basic

namespace StyleFold

/-! ## At-rules -/

/-- The at-rules whose block holds nodes and not declarations. -/
inductive AtKind
  | media
  | mozDocument
  | supports
  | keyframes
  deriving DecidableEq, Inhabited

namespace AtKind

/-- The words that open an at-rule block, each with the kind it opens, in order of preference. -/
def openers : List (Text × AtKind) :=
  [("@media".toList, media),
   ("@-moz-document".toList, mozDocument),
   ("@supports".toList, supports),
   ("@keyframes".toList, keyframes),
   ("@-webkit-keyframes".toList, keyframes),
   ("@-moz-keyframes".toList, keyframes),
   ("@-o-keyframes".toList, keyframes)]

/-- The kind of at-rule a header opens: that of the first word the header begins with. -/
def ofHeader? (header : Text) : Option AtKind :=
  (openers.find? fun opener => opener.1.isPrefixOf header).map Prod.snd

/-- No word that opens an at-rule begins another one. -/
theorem opener_eq : ∀ a ∈ openers, ∀ b ∈ openers, a.1 <+: b.1 → a = b := by decide

/-- A header opens the at-rule of any opening word that it begins with. -/
theorem ofHeader?_of_opener {opener : Text × AtKind} {header : Text} (h : opener ∈ openers)
    (hp : opener.1 <+: header) : ofHeader? header = some opener.2 := by
  unfold ofHeader?
  cases hfind : openers.find? fun opener => opener.1.isPrefixOf header with
  | none => exact absurd (List.isPrefixOf_iff_prefix.mpr hp) (List.find?_eq_none.mp hfind opener h)
  | some found =>
    have hmem := List.mem_of_find?_eq_some hfind
    have hpre : found.1 <+: header :=
      List.isPrefixOf_iff_prefix.mp (by simpa using List.find?_some hfind)
    rcases List.prefix_or_prefix_of_prefix hpre hp with hle | hle
    · rw [opener_eq found hmem opener h hle]
      rfl
    · rw [opener_eq opener h found hmem hle]
      rfl

theorem ofHeader?_eq_none_iff {header : Text} :
    ofHeader? header = none ↔ ∀ opener ∈ openers, ¬ opener.1 <+: header := by
  unfold ofHeader?
  rw [Option.map_eq_none_iff, List.find?_eq_none]
  simp only [List.isPrefixOf_iff_prefix]

end AtKind

/-! ## Kinds -/

/-- The kinds of node. -/
inductive Kind
  | root
  | rule
  | media
  | importStatement
  | mozDocument
  | supports
  | keyframes
  deriving DecidableEq, Inhabited

/-- The kind of an at-rule node. -/
def AtKind.toKind : AtKind → Kind
  | media => .media
  | mozDocument => .mozDocument
  | supports => .supports
  | keyframes => .keyframes

/-- Different at-rules make nodes of different kinds. -/
theorem AtKind.toKind_injective {a b : AtKind} (h : a.toKind = b.toKind) : a = b := by
  cases a <;> cases b <;> first | rfl | cases h

namespace Kind

/-- The name used in diagnostics. -/
def name : Kind → String
  | root => "root"
  | rule => "rule"
  | media => "media query"
  | importStatement => "import"
  | mozDocument => "mozilla document"
  | supports => "supports"
  | keyframes => "keyframes"

/-- The name with a capital first letter, as it stands at the start of a message. -/
def title (k : Kind) : String := k.name.capitalize

/-- Whether nodes of this kind hold child nodes. -/
def isContainer : Kind → Bool
  | rule | importStatement => false
  | root | media | mozDocument | supports | keyframes => true

end Kind

/-! ## Sanity checks -/

example : AtKind.ofHeader? "@media print".toList = some .media := by decide
example : AtKind.ofHeader? "@-o-keyframes k".toList = some .keyframes := by decide
example : AtKind.ofHeader? "@font-face".toList = none := by decide
example : AtKind.ofHeader? " @media".toList = none := by decide

end StyleFold
