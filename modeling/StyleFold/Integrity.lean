/-
  Integrity — checking a merged tree against the tree it was made from.

  A merge pass records in every origin which siblings a node was made from.  `Node.verify` walks a merged
  tree along those origins and reports every place where it cannot have come from the original.

  The walk does not run a merge again.  It takes both trees as they are and has nothing but origins,
  counts, kinds and headers to go by; so it is as good a test of a tree that was stored or edited as of
  one that was merged just now.

  1. **Mismatches** — the five causes with their messages.
  2. **Violations** — a mismatch and the node it is reported at.
  3. **Correspondence** — when one original may have become part of one merged node.
  4. **The walk** — at every block the numbers of siblings must balance; then every origin position must
     exist and correspond.  Below a node that does not, nothing is checked.
-/
import StyleFold.Event
import StyleFold.Text.Blank
import StyleFold.Tree.Node
import StyleFold.Counter

namespace StyleFold

/-! ## Mismatches -/

/-- What does not match between an original tree and a merged one. -/
inductive Mismatch
  /-- `merged` children and `reduced` siblings taken away do not add up to the originals. -/
  | childCount (originals merged reduced : Nat)
  /-- An origin names a position beyond the originals. -/
  | originOutOfRange (position originals : Nat)
  /-- An original and the node it was folded into differ in kind. -/
  | kinds (original merged : Kind)
  /-- Two import statements differ. -/
  | statements (original merged : Text)
  /-- Two headers of at-rules differ. -/
  | headers (kind : Kind) (original merged : Text)
  deriving DecidableEq, Inhabited

/-- The message of a mismatch. -/
def Mismatch.message : Mismatch → String
  | childCount originals merged reduced =>
    let total := (Counter.sum merged reduced).toNat
    let compressed := if 0 < reduced then s!"{merged} + {reduced} = {total}" else s!"{merged}"
    s!"Child counts are not identical. (original: {originals}, compressed: {compressed})"
  | originOutOfRange position originals =>
    s!"Origin index {position} is out of range. (siblings: {originals})"
  | kinds original merged =>
    s!"Style types are not identical. (original: {original.name}, compressed: {merged.name})"
  | statements original merged =>
    let lhs := String.ofList original
    let rhs := String.ofList merged
    s!"Import rules are not identical. (original: {lhs}, compressed: {rhs})"
  | headers kind original merged =>
    let lhs := String.ofList original
    let rhs := String.ofList merged
    s!"{kind.title} rules are not identical. (original: {lhs}, compressed: {rhs})"

/-! ## Violations -/

/-- A mismatch at a node. -/
structure Violation where
  /-- Source line of the node, 0 when unknown. -/
  line : Nat
  kind : Kind
  /-- The node in one line. -/
  node : String
  mismatch : Mismatch
  deriving DecidableEq, Inhabited

/-- The ending that makes a number an ordinal: 1st, 2nd, 3rd, 4th, and 11th to 13th. -/
def ordinalEnding (n : Nat) : String :=
  if 11 ≤ n % 100 ∧ n % 100 ≤ 13 then "th"
  else match n % 10 with
    | 1 => "st"
    | 2 => "nd"
    | 3 => "rd"
    | _ => "th"

namespace Violation

/-- The mismatch reported at `n`. -/
def reported (n : Node) (mismatch : Mismatch) : Violation := ⟨n.line, n.kind, n.summary, mismatch⟩

/-- The message with the node, and its line where it is known. -/
def display (v : Violation) : String :=
  let place :=
    if v.line = 0 then "" else s!"Unexpected error near {v.line}{ordinalEnding v.line} line: "
  s!"{place}{v.node} - {v.mismatch.message}"

end Violation

namespace Node

/-! ## Correspondence -/

/-- Why `original` cannot have been folded into `merged`, if so: kinds must agree, and tidied
    statements or at-rule headers too.  Rules are regrouped on purpose. -/
def mismatch? (original merged : Node) : Option Mismatch :=
  if original.kind ≠ merged.kind then
    some (.kinds original.kind merged.kind)
  else
    match original with
    | rule .. | block _ _ .sheet _ _ => none
    | importStatement _ _ statement =>
      if statement.tidy = merged.headerText.tidy then none
      else some (.statements statement merged.headerText)
    | block _ _ (.atRule _ header) _ _ =>
      if header.tidy = merged.headerText.tidy then none
      else some (.headers original.kind header merged.headerText)

/-- Why a block with `merged` children and `reduced` siblings taken away cannot hold the originals. -/
def countMismatch? (originals merged reduced : Nat) : Option Mismatch :=
  if UInt64.ofNat originals = Counter.sum merged reduced then none
  else some (.childCount originals merged reduced)

/-! ## The walk -/

/-- The original that one origin position of `child` names, or the violation found there. -/
def originalAt (originals : List Node) (child : Node) (position : Nat) : Except Violation Node :=
  match originals[position]? with
  | none => .error (Violation.reported child (.originOutOfRange position originals.length))
  | some original =>
    match original.mismatch? child with
    | some mismatch => .error (Violation.reported original mismatch)
    | none => .ok original

/-- What the origin of `child` finds: the originals it names, and the violations among them. -/
def resolve (originals : List Node) (child : Node) : List Node × List Violation :=
  let found := child.origin.map (originalAt originals child)
  (found.filterMap fun | .ok original => some original | .error _ => none,
   found.filterMap fun | .ok _ => none | .error violation => some violation)

mutual

/-- Check what a node holds against the sibling list it was made from.  Violations of the whole
    list are reported at `anchor`. -/
def check (anchor : Node) (originals : List Node) : Node → List Violation
  | rule .. | importStatement .. =>
    ((countMismatch? originals.length 0 0).map (Violation.reported anchor)).toList
  | block _ _ _ reduced children =>
    match countMismatch? originals.length children.length reduced with
    | some mismatch => [Violation.reported anchor mismatch]
    | none => checkSiblings originals children

/-- Check merged siblings one after another. -/
def checkSiblings (originals : List Node) : List Node → List Violation
  | [] => []
  | child :: rest =>
    let (members, violations) := resolve originals child
    (if violations.isEmpty && child.kind.isContainer then
      check (members.head?.getD child) (members.flatMap children) child
    else
      violations) ++ checkSiblings originals rest

end

/-- All violations of `post` as a merged form of `pre`, in the order of the walk. -/
def verify (pre post : Node) : List Violation := check pre pre.children post

/-- What a verification reports: the number of violations, if there are any. -/
def verifyEvents (violations : List Violation) : List Event :=
  if violations.isEmpty then [] else [⟨.debug, s!"Integrity check found {violations.length} violations"⟩]

end Node

/-! ## Sanity checks -/

example : [1, 2, 3, 4, 11, 12, 13, 21, 102, 111, 112].map ordinalEnding =
    ["st", "nd", "rd", "th", "th", "th", "th", "st", "nd", "th", "th"] := by decide

end StyleFold
