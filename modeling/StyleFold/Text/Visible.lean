/-
  Visible — text that is safe to show on a terminal.

  Some control characters begin a command to the terminal or move its cursor.  Where a text from elsewhere
  is shown to the user, each of them is written as its code instead, and nothing else is changed.

  1. **Steering characters** — which characters these are.
  2. **Codes** — how they are written: two hexadecimal digits after a backslash and an x, or in braces after
     a backslash and a u from 128 on.
  3. **Safety** — no steering character is left.
-/
import StyleFold.Text.Basic

namespace StyleFold

/-! ## Steering characters -/

/-- Bell, backspace, form feed, escape, delete, and the control characters from 128 to 159. -/
def steersTerminal (c : Char) : Bool :=
  let n := c.toNat
  n == 0x07 || n == 0x08 || n == 0x0C || n == 0x1B || (0x7F ≤ n && n ≤ 0x9F)

/-- Every steering character lies below 160. -/
theorem toNat_lt_of_steersTerminal {c : Char} (h : steersTerminal c = true) : c.toNat < 160 := by
  simp only [steersTerminal, Bool.or_eq_true, Bool.and_eq_true, beq_iff_eq, decide_eq_true_eq] at h
  omega

namespace Text

/-! ## Codes -/

/-- A character as it is shown. -/
def visibleChar (c : Char) : Text :=
  if steersTerminal c then
    let digits := [(c.toNat / 16).digitChar, (c.toNat % 16).digitChar]
    if c.toNat < 0x80 then ['\\', 'x'] ++ digits else ['\\', 'u', '{'] ++ digits ++ ['}']
  else
    [c]

/-- A text as it is shown. -/
def visible (t : Text) : Text := t.flatMap visibleChar

@[simp] theorem visible_append (s t : Text) : visible (s ++ t) = visible s ++ visible t :=
  List.flatMap_append

/-! ## Safety -/

/-- A hexadecimal digit steers nothing. -/
theorem steersTerminal_digitChar : ∀ n < 16, steersTerminal n.digitChar = false
  | 0, _ | 1, _ | 2, _ | 3, _ | 4, _ | 5, _ | 6, _ | 7, _ | 8, _ | 9, _ | 10, _ | 11, _ | 12, _
  | 13, _ | 14, _ | 15, _ => rfl
  | _ + 16, h => absurd h (by omega)

theorem steersTerminal_of_mem_visibleChar {c d : Char} (h : d ∈ visibleChar c) :
    steersTerminal d = false := by
  -- An escape consists of a backslash, a letter, hexadecimal digits and braces; none of them steers
  -- the terminal.
  by_cases hc : steersTerminal c = true
  · have below := toNat_lt_of_steersTerminal hc
    have high := steersTerminal_digitChar (c.toNat / 16) (by omega)
    have low := steersTerminal_digitChar (c.toNat % 16) (by omega)
    by_cases ascii : c.toNat < 0x80
    · simp only [visibleChar, hc, ascii, if_true, List.cons_append, List.nil_append, List.mem_cons,
        List.not_mem_nil, or_false] at h
      rcases h with rfl | rfl | rfl | rfl
      · rfl
      · rfl
      · exact high
      · exact low
    · simp only [visibleChar, hc, ascii, if_true, if_false, List.cons_append, List.nil_append,
        List.mem_cons, List.not_mem_nil, or_false] at h
      rcases h with rfl | rfl | rfl | rfl | rfl | rfl
      · rfl
      · rfl
      · rfl
      · exact high
      · exact low
      · rfl
  · have hd : d = c := by simpa [visibleChar, hc] using h
    rw [hd]
    exact Bool.eq_false_iff.mpr hc

/-- Nothing that is shown steers the terminal. -/
theorem steersTerminal_of_mem_visible {t : Text} {d : Char} (h : d ∈ visible t) :
    steersTerminal d = false := by
  obtain ⟨c, _, hd⟩ := List.mem_flatMap.mp h
  exact steersTerminal_of_mem_visibleChar hd

/-! ## Sanity checks -/

example : visible "a\x1b[1m\x7f\t".toList = "a\\x1b[1m\\x7f\t".toList := by decide
example : visible [Char.ofNat 0x9F, 'é'] = ['\\', 'u', '{', '9', 'f', '}', 'é'] := by decide

end Text

end StyleFold
