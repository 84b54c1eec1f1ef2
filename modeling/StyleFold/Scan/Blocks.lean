/-
  Blocks — the open blocks and the tree under construction.

  An opening brace pushes a node made of the pending text, a closing brace pops one and appends it to the
  block around it, or to the sheet.  The body of a rule holds declarations only, so no block may open
  there; `blockAllowed` says so, and `depth` counts the open blocks.

  Flag and depth could both be told from the stack.  The scan keeps them beside it since it asks for
  them at every brace; that the three never contradict each other is an invariant and not a matter of
  definition.
-/
import StyleFold.Scan.Fault
import StyleFold.Text.Quoted
import StyleFold.Tree.Node

namespace StyleFold

/-- The open blocks of a scan and what was closed before them. -/
structure Blocks where
  /-- Number of open blocks. -/
  depth : Nat := 0
  /-- False inside the body of a rule. -/
  blockAllowed : Bool := true
  /-- The open blocks, innermost first. -/
  stack : List Node := []
  /-- The sheet with the blocks closed at top level. -/
  sheet : Node := Node.emptySheet
  deriving DecidableEq, Inhabited

namespace Blocks

/-- The node that a block begins as: an at-rule, or a rule with the selectors of the header. -/
def nodeOf (header : Text) (line : Nat) : Node :=
  match AtKind.ofHeader? header with
  | some kind => .block line [] (.atRule kind header) 0 []
  | none => .rule line [] (Text.items ',' header) []

/-- Handle an opening brace. -/
def openBlock (b : Blocks) (pending : Text) (line : Nat) : Except Fault Blocks :=
  if b.blockAllowed then
    let node := nodeOf pending.tidy line
    .ok { b with
      depth := b.depth + 1
      blockAllowed := node.kind != .rule
      stack := node :: b.stack }
  else
    .error .nestedBlock

/-- Append a finished node to the innermost open block, or to the sheet. -/
def attach (b : Blocks) (node : Node) : Blocks :=
  match b.stack with
  | parent :: outer => { b with stack := parent.push node :: outer }
  | [] => { b with sheet := b.sheet.push node }

/-- Handle a closing brace: the pending text holds the declarations of a rule, and is dropped else. -/
def closeBlock (b : Blocks) (pending : Text) : Except Fault Blocks :=
  match b.stack with
  | [] => .error .unmatchedClose
  | .rule line origin selectors _ :: outer =>
    let node := Node.rule line origin selectors (Text.items ';' pending)
    .ok (attach { b with depth := b.depth - 1, blockAllowed := true, stack := outer } node)
  | node :: outer => .ok (attach { b with depth := b.depth - 1, stack := outer } node)

end Blocks

end StyleFold
