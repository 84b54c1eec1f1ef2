/-
  Keys — classes are told by their keys.

  Grouping is one run through a list that remembers the keys it has met.  Later proofs want to know of
  the outcome only which elements have gone together, and never how the run found out.

  1. **One class for each key** — no two classes have one key (`nodup_keys`), each key of the list has its
     class (`exists_of_mem`), and the class has all elements of the key (`members_eq_filter`).
  2. **Nothing to group** — if no two elements have one key, every class is a single element
     (`groups_of_nodup`), and that is so if no class takes an element away (`nodup_of_takenAway`).
  3. **Images** — grouping goes along with a map that keeps the keys (`groups_map`).
  4. **Longer lists** — what stands behind a list joins its classes or opens classes behind them
     (`groups_append`).
  5. **Matching classes** — what is made of the classes of two lists is the same up to order if it is the
     same for classes of one key (`map_groups_perm`).
-/
import Mathlib.Data.List.Nodup
import StyleFold.Proofs.Merge.Classes

namespace StyleFold.Group

variable {α β κ : Type} [DecidableEq κ] {key : α → κ} {l l' : List α} {g : Group α}

/-! ## One class for each key

  A class is determined by its key: it holds the elements of the key, in the order of the list. -/

/-- A class has a key that was not seen, and all elements of that key. -/
theorem spec_of_mem_groupsFrom : ∀ (l : List α) (seen : List κ), g ∈ groupsFrom key seen l →
    key g.first ∉ seen ∧ g.members = l.filter fun b => decide (key b = key g.first)
  | [], _, h => by simp [groupsFrom] at h
  | a :: l, seen, h => by
    rw [groupsFrom] at h
    split at h
    · rename_i ha
      obtain ⟨hseen, hmembers⟩ := spec_of_mem_groupsFrom l seen h
      have hne : key a ≠ key g.first := fun he => hseen (he ▸ ha)
      exact ⟨hseen, by rw [List.filter_cons_of_neg (by simpa using hne), hmembers]⟩
    · rename_i ha
      rcases List.mem_cons.mp h with rfl | h
      · exact ⟨ha, by rw [List.filter_cons_of_pos (by simp), members]⟩
      · obtain ⟨hseen, hmembers⟩ := spec_of_mem_groupsFrom l _ h
        have hne : key a ≠ key g.first := fun he => hseen (he ▸ List.mem_cons_self)
        refine ⟨fun hmem => hseen (List.mem_cons_of_mem _ hmem), ?_⟩
        rw [List.filter_cons_of_neg (by simpa using hne), hmembers]

/-- The members of a class are all elements of its key. -/
theorem members_eq_filter (hg : g ∈ groups key l) :
    g.members = l.filter fun b => decide (key b = key g.first) :=
  (spec_of_mem_groupsFrom l [] (groups_eq key l ▸ hg)).2

/-- No two classes have one key. -/
theorem nodup_keys_groupsFrom : ∀ (l : List α) (seen : List κ),
    ((groupsFrom key seen l).map fun g => key g.first).Nodup
  | [], _ => List.nodup_nil
  | a :: l, seen => by
    rw [groupsFrom]
    split
    · exact nodup_keys_groupsFrom l seen
    · refine List.nodup_cons.mpr ⟨fun hmem => ?_, nodup_keys_groupsFrom l _⟩
      obtain ⟨g, hg, he⟩ := List.mem_map.mp hmem
      exact (spec_of_mem_groupsFrom l _ hg).1 (he ▸ List.mem_cons_self)

/-- No two classes have one key. -/
theorem nodup_keys (key : α → κ) (l : List α) : ((groups key l).map fun g => key g.first).Nodup :=
  groups_eq key l ▸ nodup_keys_groupsFrom l []

/-- Every element is in the class of its key. -/
theorem exists_of_mem {a : α} (ha : a ∈ l) : ∃ g ∈ groups key l, key g.first = key a := by
  obtain ⟨g, hg, hmem⟩ := List.mem_flatMap.mp ((flatMap_members_perm key l).mem_iff.mpr ha)
  exact ⟨g, hg, (key_eq hg hmem).symm⟩

theorem first_mem (hg : g ∈ groups key l) : g.first ∈ l := mem_of_mem_members hg List.mem_cons_self

/-! ## Nothing to group

  The number of elements that grouping takes away tells whether any two had one key. -/

/-- Elements of different keys are classes of their own, in the order of the list. -/
theorem groupsFrom_of_nodup : ∀ (l : List α) (seen : List κ), (l.map key).Nodup →
    (∀ a ∈ l, key a ∉ seen) → groupsFrom key seen l = l.map fun a => ⟨a, []⟩
  | [], _, _, _ => rfl
  | a :: l, seen, hn, hseen => by
    obtain ⟨ha, hn⟩ := List.nodup_cons.mp hn
    have hothers : ∀ b ∈ l, key b ≠ key a := fun b hb he => ha (he ▸ List.mem_map_of_mem hb)
    have hnone : (l.filter fun b => decide (key b = key a)) = [] :=
      List.filter_eq_nil_iff.mpr fun b hb => by simpa using hothers b hb
    have hrest : ∀ b ∈ l, key b ∉ key a :: seen := fun b hb hmem =>
      (List.mem_cons.mp hmem).elim (hothers b hb) (hseen b (List.mem_cons_of_mem a hb))
    rw [groupsFrom, if_neg (hseen a List.mem_cons_self), hnone, groupsFrom_of_nodup l _ hn hrest]
    rfl

/-- Elements of different keys are each a class. -/
theorem groups_of_nodup (h : (l.map key).Nodup) : groups key l = l.map fun a => ⟨a, []⟩ := by
  rw [groups_eq]
  exact groupsFrom_of_nodup l [] h fun _ _ => List.not_mem_nil

/-- If nothing is taken away, no class has more than its first member. -/
theorem members_of_takenAway : ∀ {gs : List (Group Sibling)}, takenAway gs = 0 →
    ∀ g ∈ gs, g.others = []
  | [], _ => fun g hg => absurd hg List.not_mem_nil
  | g :: gs, h => by
    obtain ⟨hg, hgs⟩ : g.others.length = 0 ∧ takenAway gs = 0 := by
      simpa [takenAway, Nat.add_eq_zero_iff] using h
    exact List.forall_mem_cons.mpr ⟨List.length_eq_zero_iff.mp hg, members_of_takenAway hgs⟩

/-- If no class takes an element away, all keys are different. -/
theorem nodup_of_takenAway {key : Sibling → κ} {l : List Sibling}
    (h : takenAway (groups key l) = 0) : (l.map key).Nodup := by
  have hfirst : (groups key l).flatMap members = (groups key l).map first := by
    rw [List.map_eq_flatMap, List.flatMap_def, List.flatMap_def]
    refine congrArg List.flatten (List.map_congr_left fun g hg => ?_)
    rw [members, members_of_takenAway h g hg]
  have hperm := ((flatMap_members_perm key l).map key).symm
  rw [hfirst, List.map_map] at hperm
  exact hperm.nodup_iff.mpr (nodup_keys key l)

/-! ## Images

  Grouping commutes with maps that the key does not notice. -/

theorem members_map (f : α → β) (g : Group α) : (g.map f).members = g.members.map f := rfl

/-- Grouping images is grouping, and taking the images of the classes. -/
theorem groups_map (key : β → κ) (f : α → β) (l : List α) :
    groups key (l.map f) = (groups (fun a => key (f a)) l).map (map f) := by
  rw [groups_eq, groups_eq, groupsFrom_map]

/-! ## Longer lists

  Grouping is not compatible with concatenation, since later elements join earlier classes; this says
  what it does instead. -/

/-- The class with further elements behind its own. -/
def followedBy (g : Group α) (later : List α) : Group α := ⟨g.first, g.others ++ later⟩

/-- Elements of keys that were seen might as well not stand in the list. -/
theorem groupsFrom_append_seen (key : α → κ) (seen : List κ) : ∀ (l : List α) (own : List κ),
    groupsFrom key (own ++ seen) l = groupsFrom key own (l.filter fun b => decide (key b ∉ seen))
  | [], _ => rfl
  | a :: l, own => by
    by_cases hseen : key a ∈ seen
    · rw [groupsFrom, if_pos (List.mem_append_right own hseen), List.filter_cons_of_neg (by simpa using hseen),
        groupsFrom_append_seen key seen l own]
    · rw [List.filter_cons_of_pos (by simpa using hseen), groupsFrom, groupsFrom]
      by_cases hown : key a ∈ own
      · rw [if_pos (List.mem_append_left seen hown), if_pos hown, groupsFrom_append_seen key seen l own]
      · have hothers : (l.filter fun b => decide (key b ∉ seen)).filter (fun b => decide (key b = key a)) =
            l.filter fun b => decide (key b = key a) := by
          rw [List.filter_filter]
          refine List.filter_congr fun b _ => ?_
          by_cases hb : key b = key a <;> simp [hb, hseen]
        rw [if_neg (by simp [hown, hseen]), if_neg hown, hothers, ← List.cons_append,
          groupsFrom_append_seen key seen l (key a :: own)]

/-- Classes of a list with more behind it: those of the list take in what has their keys, and the rest
makes classes of its own. -/
theorem groupsFrom_append (key : α → κ) (l' : List α) : ∀ (l : List α) (seen : List κ),
    groupsFrom key seen (l ++ l') =
      (groupsFrom key seen l).map (fun g => g.followedBy (l'.filter fun b => decide (key b = key g.first))) ++
        groupsFrom key [] (l'.filter fun b => decide (key b ∉ seen ∧ key b ∉ l.map key))
  | [], seen => by
    have h := groupsFrom_append_seen key seen l' []
    rw [List.nil_append] at h
    simpa [groupsFrom] using h
  | a :: l, seen => by
    -- A key seen before adds to its group, a new one begins the next; either way the rest is
    -- grouped by what is then seen.
    rw [List.cons_append, groupsFrom, groupsFrom]
    split
    · rename_i ha
      rw [groupsFrom_append key l' l seen]
      refine congrArg (_ ++ groupsFrom key [] ·) (List.filter_congr fun b _ => decide_eq_decide.mpr ?_)
      refine and_congr_right fun hb => ?_
      have hne : key b ≠ key a := fun he => hb (he ▸ ha)
      simp [hne]
    · rw [groupsFrom_append key l' l (key a :: seen), List.filter_append, List.map_cons, List.cons_append]
      refine congrArg (_ :: _ ++ groupsFrom key [] ·) (List.filter_congr fun b _ => decide_eq_decide.mpr ?_)
      simp only [List.mem_cons, List.map_cons, not_or]
      tauto

/-- What stands behind a list joins the classes of the list, or opens classes of its own behind them. -/
theorem groups_append (key : α → κ) (l l' : List α) : groups key (l ++ l') =
    (groups key l).map (fun g => g.followedBy (l'.filter fun b => decide (key b = key g.first))) ++
      groups key (l'.filter fun b => decide (key b ∉ l.map key)) := by
  rw [groups_eq, groups_eq, groups_eq, groupsFrom_append]
  simp only [List.not_mem_nil, not_false_eq_true, true_and]

/-! ## Matching classes

  To compare two groupings it is enough to compare them class by class. -/

/-- What is made of the classes of two lists is the same, in some order, if every class has one of its
key in the other list of which the same is made. -/
theorem map_groups_perm {value : Group α → β}
    (h : ∀ g ∈ groups key l, ∃ g' ∈ groups key l', key g'.first = key g.first ∧ value g' = value g)
    (h' : ∀ g ∈ groups key l', ∃ g' ∈ groups key l, key g'.first = key g.first ∧ value g' = value g) :
    ((groups key l).map value).Perm ((groups key l').map value) := by
  -- beside their keys the values differ, so that either list is told by its elements
  have hnodup : ∀ l, ((groups key l).map fun g => (key g.first, value g)).Nodup := by
    intro l
    refine List.Nodup.of_map Prod.fst ?_
    rw [List.map_map]
    exact nodup_keys key l
  have hsub : ∀ {l l' : List α}, (∀ g ∈ groups key l, ∃ g' ∈ groups key l',
      key g'.first = key g.first ∧ value g' = value g) →
      ∀ x ∈ (groups key l).map (fun g => (key g.first, value g)),
        x ∈ (groups key l').map fun g => (key g.first, value g) := by
    intro l l' h x hx
    obtain ⟨g, hg, rfl⟩ := List.mem_map.mp hx
    obtain ⟨g', hg', hkey, hvalue⟩ := h g hg
    exact List.mem_map.mpr ⟨g', hg', by rw [hkey, hvalue]⟩
  have hperm := ((List.perm_ext_iff_of_nodup (hnodup l) (hnodup l')).mpr fun x =>
    ⟨hsub h x, hsub h' x⟩).map Prod.snd
  rwa [List.map_map, List.map_map] at hperm

end StyleFold.Group
