/-
  Sheet — printing a style tree.

  Lines, origins and counts of the nodes are not printed.

  1. **Lines** — `Node.lines` says what is printed, without any layout: an import statement and a rule are
     one line each, an at-rule is its opening line, the lines of its children one level deeper, and a
     closing brace.  Among siblings all imports come first.
  2. **Text** — `Line.render` lays out one line, `Node.print` all lines of what a node holds.
-/
import StyleFold.Print.Layout
import StyleFold.Tree.Node

namespace StyleFold

/-! ## Lines -/

/-- A text at a nesting depth. -/
structure Line where
  depth : Nat
  text : Text
  deriving DecidableEq, Inhabited

namespace Node

/-- A rule in one line. -/
def ruleText (selectors declarations : List Text) : Text :=
  Text.join ',' selectors ++ " \x7b ".toList ++ Text.join ';' declarations ++ " \x7d".toList

/-- The line that opens an at-rule. -/
def openingText (header : Text) : Text := header ++ " \x7b".toList

/-- The line that closes an at-rule. -/
def closingText : Text := "\x7d".toList

/-- The lines of the imports among the siblings. -/
def importLines (depth : Nat) (siblings : List Node) : List Line :=
  (siblings.filterMap statement?).map fun statement => ⟨depth, statement⟩

mutual

/-- The lines of a node. -/
def lines (depth : Nat) : Node → List Line
  | rule _ _ selectors declarations => [⟨depth, ruleText selectors declarations⟩]
  | importStatement _ _ statement => [⟨depth, statement⟩]
  | block _ _ .sheet _ children => importLines depth children ++ otherLines depth children
  | block _ _ (.atRule _ header) _ children =>
    ⟨depth, openingText header⟩ ::
      (importLines (depth + 1) children ++ otherLines (depth + 1) children) ++
      [⟨depth, closingText⟩]

/-- The lines of the siblings that are no imports. -/
def otherLines (depth : Nat) : List Node → List Line
  | [] => []
  | importStatement .. :: rest => otherLines depth rest
  | n :: rest => n.lines depth ++ otherLines depth rest

end

/-- The lines of what a node holds. -/
def bodyLines (n : Node) : List Line := importLines 0 n.children ++ otherLines 0 n.children

end Node

/-! ## Text -/

namespace Line

/-- The text in the colour of its depth, if lines are coloured. -/
def colored (layout : Layout) (l : Line) : Text :=
  if layout.color then Layout.colorAt l.depth ++ l.text ++ Layout.plain else l.text

/-- The line as it is printed. -/
def render (layout : Layout) (l : Line) : Text :=
  if layout.indent.isMultiline then
    (List.replicate l.depth layout.indent.unit).flatten ++ l.colored layout ++ ['\n']
  else
    l.colored layout

end Line

namespace Node

/-- The printed form of what a node holds. -/
def print (layout : Layout) (n : Node) : Text := n.bodyLines.flatMap (Line.render layout)

end Node

end StyleFold
