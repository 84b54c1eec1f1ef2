/-
  Lines — cutting a text at every occurrence of one character.

  1. **Cutting** — `Text.cutAt`, all pieces between the occurrences of a mark, empty ones too; joining them
     with the mark gives the text back.
  2. **Lines** — `Text.lines`, the lines of a text without their line ends.  A carriage return before a line
     feed belongs to the line end, and no line follows the last line feed.
-/
import StyleFold.Text.Basic

namespace StyleFold.Text

/-! ## Cutting -/

/-- The pieces between the occurrences of `mark`. -/
def cutAt (mark : Char) : Text → List Text
  | [] => [[]]
  | c :: t => if c = mark then [] :: cutAt mark t else (cutAt mark t).modifyHead (c :: ·)

theorem cutAt_ne_nil (mark : Char) (t : Text) : cutAt mark t ≠ [] := by
  induction t with
  | nil => simp [cutAt]
  | cons c t ih =>
    by_cases h : c = mark
    · simp [cutAt, h]
    · cases hp : cutAt mark t with
      | nil => exact absurd hp ih
      | cons p ps => simp [cutAt, h, hp]

/-- Cutting loses the marks and nothing else. -/
theorem join_cutAt (mark : Char) (t : Text) : join mark (cutAt mark t) = t := by
  induction t with
  | nil => rfl
  | cons c t ih =>
    cases hp : cutAt mark t with
    | nil => exact absurd hp (cutAt_ne_nil mark t)
    | cons p ps =>
      rw [hp] at ih
      by_cases h : c = mark
      · simp [cutAt, h, hp, ih]
      · cases ps with
        | nil => simp_all [cutAt]
        | cons q qs => simp_all [cutAt]

/-! ## Lines -/

/-- Pieces between line feeds as lines: each but the last had a line feed behind it. -/
def linesOf : List Text → List Text
  | [] => []
  | [last] => if last.isEmpty then [] else [last]
  | line :: rest => dropSuffix line ['\r'] :: linesOf rest

/-- The lines of a text. -/
def lines (t : Text) : List Text := linesOf (cutAt '\n' t)

/-! ## Sanity checks -/

example : cutAt '/' "a//b/".toList = [['a'], [], ['b'], []] := by decide
example : lines "a\r\n\nb\r".toList = [['a'], [], ['b', '\r']] := by decide
example : lines "a\n".toList = [['a']] ∧ lines [] = [] := by decide

end StyleFold.Text
