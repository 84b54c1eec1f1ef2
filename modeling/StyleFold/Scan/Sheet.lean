/-
  Sheet — from text to style tree.

  `Node.parse` is the single pass over a stylesheet; the import statements end up behind the other
  children of the sheet.  `Node.parseEvents` lists what the pass reports: every filter that becomes
  active, a comment left open, and the size of the result.
-/
import StyleFold.Event
import StyleFold.Scan.State
import StyleFold.Tree.Walk

namespace StyleFold

namespace Scan.State

/-- The events of reading a text: a filter is reported at the character with which it becomes active. -/
def openings (s : State) : Text → List Event
  | [] => []
  | c :: rest =>
    match s.read c with
    | .error _ => []
    | .ok next =>
      let opened (name : String) : Event :=
        ⟨.trace, s!"{name} filter opened at line {next.cursor.line}"⟩
      (if !s.comments.active && next.comments.active then [opened "comment"] else []) ++
        (if !s.imports.active && next.imports.active then [opened "import"] else []) ++
        openings next rest

end Scan.State

namespace Node

/-- The style tree of a stylesheet, or the first fault of the text. -/
def parse (text : Text) : Except Failure Node := do
  let s ← Scan.State.run text {} text
  s.finish text

/-- The event of a comment that the text does not close. -/
def openCommentEvent : Event := ⟨.warn, "Comment is not closed at end of input"⟩

/-- The events of parsing a text. -/
def parseEvents (text : Text) : List Event :=
  Scan.State.openings {} text ++
    match Scan.State.run text {} text with
    | .error _ => []
    | .ok s =>
      (if s.blocks.depth = 0 ∧ s.comments.active then [openCommentEvent] else []) ++
        match s.finish text with
        | .error _ => []
        | .ok tree =>
          [⟨.debug, s!"Parsed {text.length} characters into {tree.descendants} nodes"⟩]

/-! ## Sanity checks -/

example : (parse ".a, .b\x7bx:1;y:2\x7d".toList).toOption =
    some (.block 0 [] .sheet 0
      [.rule 1 [] [".a".toList, ".b".toList] ["x:1".toList, "y:2".toList]]) := by decide +kernel
example : (parse "@import 'a';\n/*\x7b*/.b\x7b\x7d".toList).toOption =
    some (.block 0 [] .sheet 0
      [.rule 2 [] [".b".toList] [], .importStatement 1 [] "@import 'a';".toList]) := by
  decide +kernel

end Node

end StyleFold
