/-
  Group — the classes of a list under a key.

  `groups key l` lists the classes of equal key.  A class is opened by the first element of its key and
  followed by all later elements of that key, so classes stand in the order of their first elements,
  members in the order of the list, and no class is empty.

  Nothing is asked of keys but that two of them can be told apart, and nothing of the elements at all.
-/

namespace StyleFold

/-- A class: the element that opened it and those that joined. -/
structure Group (α : Type) where
  first : α
  others : List α
  deriving DecidableEq

namespace Group

variable {α κ : Type} [DecidableEq κ]

/-- All elements of the class, in order. -/
def members (g : Group α) : List α := g.first :: g.others

/-- The classes of the elements whose key has not been seen before. -/
def groupsFrom (key : α → κ) (seen : List κ) : List α → List (Group α)
  | [] => []
  | a :: l =>
    if key a ∈ seen then
      groupsFrom key seen l
    else
      ⟨a, l.filter fun b => key b = key a⟩ :: groupsFrom key (key a :: seen) l

/-- The class of the images. -/
def map {β : Type} (f : α → β) (g : Group α) : Group β := ⟨f g.first, g.others.map f⟩

/-- The classes of the list.  Each key is taken once, and kept beside its element. -/
def groups (key : α → κ) (l : List α) : List (Group α) :=
  (groupsFrom Prod.fst [] (l.map fun a => (key a, a))).map (map Prod.snd)

theorem groupsFrom_map {β : Type} (key : β → κ) (f : α → β) (seen : List κ) (l : List α) :
    groupsFrom key seen (l.map f) = (groupsFrom (fun a => key (f a)) seen l).map (map f) := by
  induction l generalizing seen with
  | nil => rfl
  | cons a l ih =>
    simp only [List.map_cons, groupsFrom]
    split
    · exact ih seen
    · rw [ih, List.map_cons, map, List.filter_map]
      rfl

/-- What the classes are, the kept keys apart. -/
theorem groups_eq (key : α → κ) (l : List α) : groups key l = groupsFrom key [] l := by
  rw [groups, groupsFrom_map, List.map_map]
  refine (List.map_congr_left fun g _ => ?_).trans (List.map_id _)
  simp [map, Function.comp_def]

/-! ## Members are drawn from the list -/

theorem members_sublist_of_mem_groupsFrom (key : α → κ) {g : Group α} :
    ∀ (l : List α) (seen : List κ), g ∈ groupsFrom key seen l → g.members.Sublist l
  | [], _, h => by simp [groupsFrom] at h
  | a :: l, seen, h => by
    rw [groupsFrom] at h
    split at h
    · exact (members_sublist_of_mem_groupsFrom key l seen h).cons a
    · rcases List.mem_cons.mp h with rfl | h
      · exact List.filter_sublist.cons_cons a
      · exact (members_sublist_of_mem_groupsFrom key l _ h).cons a

/-- The members of a class stand in the list, in the same order. -/
theorem members_sublist (key : α → κ) {l : List α} {g : Group α} (h : g ∈ groups key l) :
    g.members.Sublist l := members_sublist_of_mem_groupsFrom key l [] (groups_eq key l ▸ h)

/-! ## Sanity checks -/

example : (groups (fun n => n % 2) [1, 2, 3, 4]).map members = [[1, 3], [2, 4]] := by decide
example : groups (fun n : Nat => n) [] = [] := by decide

end Group

end StyleFold
