/-
  Sorted — stable sorting by a text key.

  Selectors, declarations and siblings are ordered by code point.  `sortOn key` is insertion sort:
  the result is a permutation of the list, its keys never decrease, and elements of equal key keep
  their order because an element is inserted before the first one that is not smaller.

  Stability matters where keys are equal: siblings of one header text keep the order in which a pass
  lists them.
-/
import StyleFold.Text.Basic

namespace StyleFold.Text

/-- Whether `s` is before `t` in the order of code points, or is `t`. -/
def le : Text → Text → Bool
  | [], _ => true
  | _ :: _, [] => false
  | c :: s, d :: t => c.toNat < d.toNat || c == d && le s t

/-- Insert `a` before the first element whose key is not smaller than its own. -/
def insertOn {α : Type} (key : α → Text) (a : α) : List α → List α
  | [] => [a]
  | b :: bs => if le (key a) (key b) then a :: b :: bs else b :: insertOn key a bs

/-- The list in order of its keys; elements of equal key keep their order.  Each key is taken once, and
    kept beside its element. -/
def sortOn {α : Type} (key : α → Text) (l : List α) : List α :=
  ((l.map fun a => (key a, a)).foldr (insertOn Prod.fst) []).map Prod.snd

/-- The texts in order. -/
def sort (ts : List Text) : List Text := sortOn id ts

/-! ## The kept keys apart -/

theorem insertOn_map {α β : Type} (key : β → Text) (f : α → β) (a : α) (l : List α) :
    insertOn key (f a) (l.map f) = (insertOn (fun b => key (f b)) a l).map f := by
  induction l with
  | nil => rfl
  | cons b bs ih =>
    simp only [List.map_cons, insertOn]
    split
    · rfl
    · rw [ih, List.map_cons]

theorem foldr_insertOn_map {α β : Type} (key : β → Text) (f : α → β) (l : List α) :
    (l.map f).foldr (insertOn key) [] = (l.foldr (insertOn fun b => key (f b)) []).map f := by
  induction l with
  | nil => rfl
  | cons a l ih => rw [List.map_cons, List.foldr_cons, ih, insertOn_map, List.foldr_cons]

/-- Sorting inserts one element after the other, the last first. -/
theorem sortOn_eq {α : Type} (key : α → Text) (l : List α) :
    sortOn key l = l.foldr (insertOn key) [] := by
  rw [sortOn, foldr_insertOn_map, List.map_map]
  exact List.map_id _

@[simp] theorem sortOn_nil {α : Type} (key : α → Text) : sortOn key [] = [] := rfl

@[simp] theorem sortOn_cons {α : Type} (key : α → Text) (a : α) (l : List α) :
    sortOn key (a :: l) = insertOn key a (sortOn key l) := by
  rw [sortOn_eq, sortOn_eq, List.foldr_cons]

/-! ## Nothing is lost -/

theorem insertOn_perm {α : Type} (key : α → Text) (a : α) (l : List α) :
    (insertOn key a l).Perm (a :: l) := by
  induction l with
  | nil => exact List.Perm.refl _
  | cons b bs ih =>
    simp only [insertOn]
    split
    · exact List.Perm.refl _
    · exact (ih.cons b).trans (List.Perm.swap a b bs)

theorem sortOn_perm {α : Type} (key : α → Text) (l : List α) : (sortOn key l).Perm l := by
  induction l with
  | nil => exact List.Perm.refl _
  | cons a l ih =>
    rw [sortOn_cons]
    exact (insertOn_perm key a (sortOn key l)).trans (ih.cons a)

@[simp] theorem length_sortOn {α : Type} (key : α → Text) (l : List α) :
    (sortOn key l).length = l.length := (sortOn_perm key l).length_eq

/-! ## Sanity checks -/

example : sort [['b'], ['a', 'b'], ['a'], ['B']] = [['B'], ['a'], ['a', 'b'], ['b']] := by decide
example : sortOn (fun p : Text × Nat => p.1) [(['b'], 1), (['a'], 2), (['b'], 3), (['a'], 4)] =
    [(['a'], 2), (['a'], 4), (['b'], 1), (['b'], 3)] := by decide

end StyleFold.Text
