/-
  Text — stylesheet text as a list of characters.

  Everything the compiler reads, cuts, regroups and writes (headers, selectors, declarations, import
  statements, printed sheets) is a `Text`: a list of Unicode scalar values, so that a position is a
  number of characters and recursion on text is recursion on a list.  `String` is kept for what only
  people read: reasons, diagnostics, file names.

  1. **Size** — `Text.utf8Size`, the number of bytes the text takes in a file.
  2. **Joining** — `Text.join`, pieces with one separator character between neighbours.
  3. **Ends** — `Text.dropSuffix`, a mark taken off the end of a text that has it.
  4. **Recent characters** — `Text.remember`, the last few characters of a growing text.
  5. **All characters** — a property of all of them is decided by looking at the text.
-/

namespace StyleFold

/-- Stylesheet text: a list of characters, ordered by code point. -/
abbrev Text := List Char

namespace Text

/-! ## Size -/

/-- Number of bytes of the UTF-8 form. -/
def utf8Size (t : Text) : Nat := t.foldr (fun c size => c.utf8Size + size) 0

@[simp] theorem utf8Size_nil : utf8Size [] = 0 := rfl

@[simp] theorem utf8Size_cons (c : Char) (t : Text) :
    utf8Size (c :: t) = c.utf8Size + utf8Size t := rfl

@[simp] theorem utf8Size_append (s t : Text) : utf8Size (s ++ t) = utf8Size s + utf8Size t := by
  induction s with
  | nil => simp
  | cons c s ih => rw [List.cons_append, utf8Size_cons, utf8Size_cons, ih, Nat.add_assoc]

/-! ## Joining -/

/-- The texts in order, with `sep` between neighbours. -/
def join (sep : Char) (ts : List Text) : Text := [sep].intercalate ts

@[simp] theorem join_nil (sep : Char) : join sep [] = [] := List.intercalate_nil

@[simp] theorem join_singleton (sep : Char) (t : Text) : join sep [t] = t :=
  List.intercalate_singleton

@[simp] theorem join_cons_cons (sep : Char) (s t : Text) (ts : List Text) :
    join sep (s :: t :: ts) = s ++ sep :: join sep (t :: ts) := by
  simp [join, List.intercalate_cons_cons]

/-- What holds of the empty text, and of two texts with the separator between them when it holds of both,
    holds of a joined list when it holds of its members. -/
theorem join_ind {P : Text → Prop} {sep : Char} (hnil : P [])
    (hsep : ∀ {s t : Text}, P s → P t → P (s ++ sep :: t)) :
    ∀ {ts : List Text}, (∀ t ∈ ts, P t) → P (join sep ts)
  | [], _ => join_nil sep ▸ hnil
  | [t], h => by
    rw [join_singleton]
    exact h t List.mem_cons_self
  | t :: t' :: ts, h => by
    rw [join_cons_cons]
    exact hsep (h t List.mem_cons_self)
      (join_ind hnil hsep fun s hs => h s (List.mem_cons_of_mem t hs))

/-! ## Ends -/

/-- The text without `mark` at its end; unchanged when it does not end so. -/
def dropSuffix (t mark : Text) : Text :=
  if mark.isSuffixOf t then t.take (t.length - mark.length) else t

/-- A mark that was just written is taken off again. -/
theorem dropSuffix_append (t mark : Text) : dropSuffix (t ++ mark) mark = t := by
  have h : mark.isSuffixOf (t ++ mark) = true := by simp
  simp [dropSuffix, h]

/-- What is left is the front of the text. -/
theorem dropSuffix_prefix (t mark : Text) : t.dropSuffix mark <+: t := by
  unfold dropSuffix
  split
  · exact List.take_prefix _ t
  · exact List.prefix_refl t

/-! ## Recent characters -/

/-- The last `limit` characters of `recent` followed by `c`. -/
def remember (limit : Nat) (recent : Text) (c : Char) : Text :=
  let longer := recent ++ [c]
  longer.drop (longer.length - limit)

theorem length_remember_le (limit : Nat) (recent : Text) (c : Char) :
    (remember limit recent c).length ≤ limit := by
  simp only [remember, List.length_drop]
  omega

/-- Nothing is forgotten while there is room. -/
theorem remember_of_length_lt {limit : Nat} {recent : Text} (c : Char)
    (h : recent.length < limit) : remember limit recent c = recent ++ [c] := by
  have : recent.length + 1 - limit = 0 := by omega
  simp [remember, this]

/-! ## All characters -/

/-- Characters that do not stand in the text are not looked at. -/
instance (priority := high) decidableForallMem (p : Char → Prop) [DecidablePred p] (t : Text) :
    Decidable (∀ c ∈ t, p c) := List.decidableBAll p t

/-! ## Sanity checks -/

example : join ',' [['a'], ['b', 'c']] = ['a', ',', 'b', 'c'] := by decide
example : dropSuffix ['a', '/'] ['/'] = ['a'] := by decide
example : dropSuffix ['a'] ['/'] = ['a'] := by decide
example : remember 2 ['a', 'b'] 'c' = ['b', 'c'] := by decide

end Text

end StyleFold
