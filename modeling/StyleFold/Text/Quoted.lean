/-
  Quoted — string literals in stylesheet text, and cutting outside of them.

  A literal runs from a quote character to the next occurrence of the same character.  There are no
  escapes: a backslash is a character like any other.

  Cutting goes by characters that are *outside*: a delimiter within a literal belongs to its piece, and
  a literal that is never closed hides everything behind it.

  1. **Quote state** — `Quote` says which literal is open; `Quote.next` reads one character.
  2. **Pieces** — `Text.pieces d t` cuts `t` at every delimiter `d` that stands outside literals.  The
     pieces are verbatim, and an empty piece at the very end is dropped.
  3. **Items** — `Text.items d t` tidies every piece and drops those that are then empty: this is how
     a selector list or a declaration body is read.
-/
import StyleFold.Text.Blank

namespace StyleFold

/-! ## Quote state -/

/-- Whether the character delimits string literals. -/
def isQuote (c : Char) : Bool := c == '\'' || c == '"'

/-- The quote character of the literal that is open, if one is. -/
abbrev Quote := Option Char

namespace Quote

/-- The state after one more character: a quote opens a literal, and only the same quote closes it. -/
def next (q : Quote) (c : Char) : Quote :=
  match q with
  | none => if isQuote c then some c else none
  | some opening => if c = opening then none else some opening

/-- The state after a whole text. -/
def after (q : Quote) (t : Text) : Quote := t.foldl next q

@[simp] theorem after_nil (q : Quote) : q.after [] = q := rfl

@[simp] theorem after_cons (q : Quote) (c : Char) (t : Text) :
    q.after (c :: t) = (q.next c).after t := rfl

@[simp] theorem after_append (q : Quote) (s t : Text) :
    q.after (s ++ t) = (q.after s).after t := List.foldl_append

end Quote

namespace Text

/-! ## Pieces -/

/-- The pieces of a text that is read with literal `q` open. -/
def piecesFrom (d : Char) (q : Quote) : Text → List Text
  | [] => []
  | c :: t =>
    if q = none ∧ ¬ isQuote c ∧ c = d then
      [] :: piecesFrom d none t
    else
      match piecesFrom d (q.next c) t with
      | [] => [[c]]
      | piece :: others => (c :: piece) :: others

/-- The text cut at every `d` outside literals, without an empty piece at the end. -/
def pieces (d : Char) (t : Text) : List Text := piecesFrom d none t

/-! ## Items -/

/-- The tidied pieces that are not empty. -/
def items (d : Char) (t : Text) : List Text :=
  ((pieces d t).map tidy).filter fun piece => !piece.isEmpty

/-- No item is empty. -/
theorem ne_nil_of_mem_items {d : Char} {t item : Text} (h : item ∈ items d t) : item ≠ [] := by
  simp only [items, List.mem_filter] at h
  simpa using h.2

/-! ## Sanity checks -/

example : pieces ',' ['a', '"', ',', '"', ',', 'b', ','] = [['a', '"', ',', '"'], ['b']] := by decide
example : pieces ';' [';'] = [[]] := by decide
example : pieces '\'' ['a', '\'', 'b'] = [['a', '\'', 'b']] := by decide
example : items ';' [' ', 'a', ';', ' ', ';', '\n', 'b', ' '] = [['a'], ['b']] := by decide

end Text

end StyleFold
