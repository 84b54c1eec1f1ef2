/-
  Compile — the whole way from a stylesheet to its compressed form.

  The metadata block is cut off, the rest is parsed, siblings are merged by header and then by content, and
  each pass is verified against its input if the settings ask for it.  Violations do not fail a compile;
  they are part of its result.

  A compilation keeps all of its stages: the parsed tree, the tree merged by header and the one merged
  by content.  What a compile has to answer for is stated between these, and the output is read off the
  last.

  1. **Compilations** — everything a compile yields, and `compile` itself.
  2. **Output** — the compressed text, with the metadata block in front if it is to be kept.
  3. **Sizes** — printed sizes in bytes before and after, and the share saved.
  4. **Events** — what a compile reports.
-/
import StyleFold.Integrity
import StyleFold.Merge.SameContent
import StyleFold.Print.Sheet
import StyleFold.Scan.Sheet
import StyleFold.Settings
import StyleFold.UserStyle

namespace StyleFold

/-! ## Compilations -/

/-- The result of a compile. -/
structure Compilation where
  settings : Settings
  /-- The metadata block before the stylesheet. -/
  metadata : Option Text
  /-- The tree as parsed. -/
  parsed : Node
  /-- The tree after merging by header. -/
  byHeader : Node
  /-- The tree after merging by content: the compressed sheet. -/
  byContent : Node
  /-- Totals of both passes. -/
  totals : MergeTotals
  /-- What the verification of both passes found. -/
  violations : List Violation
  deriving DecidableEq, Inhabited

/-- The compilation of a parsed tree. -/
def Compilation.ofTree (settings : Settings) (metadata : Option Text) (parsed : Node) : Compilation :=
  let first := parsed.mergeByHeaderWith {}
  let second := first.1.mergeByContentWith first.2
  { settings, metadata, parsed
    byHeader := first.1
    byContent := second.1
    totals := second.2
    violations :=
      if settings.verify then parsed.verify first.1 ++ first.1.verify second.1 else [] }

/-- Compile a stylesheet; fails as the parse of the text behind the metadata block fails. -/
def compile (settings : Settings) (text : Text) : Except Failure Compilation :=
  let (metadata, body) := UserStyle.split text
  (Node.parse body).map (Compilation.ofTree settings metadata)

/-- A compile that succeeds has parsed the text behind the metadata block. -/
theorem ofTree_of_compile {settings : Settings} {text : Text} {c : Compilation}
    (h : compile settings text = .ok c) : ∃ parsed,
      Node.parse (UserStyle.split text).2 = .ok parsed ∧
        c = Compilation.ofTree settings (UserStyle.split text).1 parsed := by
  unfold compile at h
  cases hparse : Node.parse (UserStyle.split text).2 with
  | error failure => simp [hparse, Except.map] at h
  | ok parsed => exact ⟨parsed, rfl, by simpa [hparse, Except.map, eq_comm] using h⟩

namespace Compilation

/-- Whether the verification found nothing. -/
def isConsistent (c : Compilation) : Bool := c.violations.isEmpty

/-! ## Output -/

/-- The compressed stylesheet. -/
def output (c : Compilation) : Text :=
  let css := c.byContent.print c.settings.layout
  match c.metadata with
  | some metadata => if c.settings.preserveMetadata then metadata ++ '\n' :: css else css
  | none => css

end Compilation

/-! ## Sizes -/

/-- Printed sizes in bytes. -/
structure SizeReport where
  original : Nat
  compressed : Nat
  deriving DecidableEq, Inhabited

/-- The share of the original size that was saved, in percent; nothing of nothing. -/
def SizeReport.savedPercent (r : SizeReport) : Float :=
  if r.original = 0 then 0.0
  else 100.0 - Float.ofNat r.compressed * 100.0 / Float.ofNat r.original

namespace Compilation

/-- The printed sizes of the parsed and of the compressed tree. -/
def sizeReport (c : Compilation) : SizeReport where
  original := (c.parsed.print c.settings.layout).utf8Size
  compressed := (c.byContent.print c.settings.layout).utf8Size

/-! ## Events -/

/-- What both passes and their verification report. -/
def events (c : Compilation) : List Event :=
  let checks :=
    if c.settings.verify then
      Node.verifyEvents (c.parsed.verify c.byHeader) ++ Node.verifyEvents (c.byHeader.verify c.byContent)
    else []
  let before := c.parsed.descendants
  let after := c.byContent.descendants
  [Node.mergeEvent "Header" c.parsed c.byHeader, Node.mergeEvent "Content" c.byHeader c.byContent] ++
    checks ++
    c.violations.map (fun v => ⟨.warn, v.display⟩) ++
    [⟨.debug, s!"Compiled {before} nodes into {after} ({c.totals.merged} values merged)"⟩]

end Compilation

/-- What the compile of `text` reports that ended with `result`. -/
def compileEvents (text : Text) (result : Except Failure Compilation) : List Event :=
  Node.parseEvents (UserStyle.split text).2 ++
    match result with
    | .ok c => c.events
    | .error _ => []

end StyleFold
