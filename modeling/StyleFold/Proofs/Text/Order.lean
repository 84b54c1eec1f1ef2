/-
  Order — the order of texts, and what a stable sort by a text key gives.

  Sorting is by insertion, but nothing outside of this module knows that.  What is used of it is that
  the outcome is sorted, is a permutation, and keeps the order of elements of one key; together these
  leave no choice.

  1. **The order** — `Text.le` is a total order: it is reflexive, transitive and total, and texts that
     are below each other are equal.
  2. **Sorted lists** — `SortedBy key`: the keys never decrease along the list.
  3. **Stability** — a sorted list is told by its elements of each key, in their order
     (`eq_of_sortedBy`).  Sorting keeps these (`filter_sortOn`), so it gives the one sorted list that
     has them (`sortOn_eq_of_filter`).
  4. **What sorting does not see** — whether the list was sorted before, in parts or as a whole, and the
     order of elements that their key tells.
-/
import Mathlib.Data.List.Perm.Basic
import StyleFold.Text.Sorted

namespace StyleFold.Text

/-! ## The order -/

/-- Texts are compared by their first characters, and by what follows where these are equal. -/
theorem le_cons_iff {c d : Char} {s t : Text} :
    le (c :: s) (d :: t) = true ↔ c.toNat < d.toNat ∨ c = d ∧ le s t = true := by
  simp [le]

theorem le_refl : ∀ s : Text, le s s = true
  | [] => rfl
  | _ :: s => le_cons_iff.mpr (.inr ⟨rfl, le_refl s⟩)

theorem le_total : ∀ s t : Text, le s t = true ∨ le t s = true
  | [], _ => .inl rfl
  | _ :: _, [] => .inr rfl
  | c :: s, d :: t => by
    rw [le_cons_iff, le_cons_iff]
    rcases Nat.lt_trichotomy c.toNat d.toNat with hlt | heq | hgt
    · exact .inl (.inl hlt)
    · obtain rfl : c = d := Char.toNat_inj.mp heq
      rcases le_total s t with h | h
      · exact .inl (.inr ⟨rfl, h⟩)
      · exact .inr (.inr ⟨rfl, h⟩)
    · exact .inr (.inl hgt)

theorem le_antisymm : ∀ {s t : Text}, le s t = true → le t s = true → s = t
  | [], [], _, _ => rfl
  | [], _ :: _, _, h => absurd h (by simp [le])
  | _ :: _, [], h, _ => absurd h (by simp [le])
  | c :: s, d :: t, h, h' => by
    rw [le_cons_iff] at h h'
    rcases h with hlt | ⟨rfl, h⟩
    · rcases h' with hgt | ⟨rfl, -⟩ <;> omega
    · rcases h' with hlt | ⟨-, h'⟩
      · omega
      · rw [le_antisymm h h']

/-- The order of texts is transitive; with the above it is a total order. -/
theorem le_trans : ∀ {s t u : Text}, le s t = true → le t u = true → le s u = true
  | [], _, _, _, _ => rfl
  | _ :: _, [], _, h, _ => absurd h (by simp [le])
  | _ :: _, _ :: _, [], _, h => absurd h (by simp [le])
  | c :: s, d :: t, e :: u, h, h' => by
    rw [le_cons_iff] at h h' ⊢
    rcases h with hcd | ⟨rfl, h⟩
    · rcases h' with hde | ⟨rfl, -⟩
      · exact .inl (Nat.lt_trans hcd hde)
      · exact .inl hcd
    · rcases h' with hde | ⟨rfl, h'⟩
      · exact .inl hde
      · exact .inr ⟨rfl, le_trans h h'⟩

/-! ## Sorted lists -/

section

variable {α β : Type} {key : α → Text} {s t l : List α} {a : α}

/-- Whether the keys never decrease along the list. -/
def SortedBy (key : α → Text) (l : List α) : Prop := l.Pairwise fun a b => le (key a) (key b) = true

theorem mem_insertOn {b : α} : b ∈ insertOn key a l ↔ b = a ∨ b ∈ l := by
  rw [(insertOn_perm key a l).mem_iff, List.mem_cons]

/-- Inserting keeps a list sorted. -/
theorem sortedBy_insertOn (a : α) : ∀ {l : List α}, SortedBy key l → SortedBy key (insertOn key a l)
  | [], _ => List.pairwise_singleton _ a
  | b :: bs, h => by
    obtain ⟨hb, hbs⟩ := List.pairwise_cons.mp h
    rw [insertOn]
    split
    · rename_i hle
      refine List.pairwise_cons.mpr ⟨fun c hc => ?_, h⟩
      rcases List.mem_cons.mp hc with rfl | hc
      · exact hle
      · exact le_trans hle (hb c hc)
    · rename_i hle
      refine List.pairwise_cons.mpr ⟨fun c hc => ?_, sortedBy_insertOn a hbs⟩
      rcases mem_insertOn.mp hc with rfl | hc
      · exact (le_total _ _).resolve_left hle
      · exact hb c hc

/-- Sorting sorts. -/
theorem sortedBy_sortOn (key : α → Text) : ∀ l : List α, SortedBy key (sortOn key l)
  | [] => List.Pairwise.nil
  | a :: l => by
    rw [sortOn_cons]
    exact sortedBy_insertOn a (sortedBy_sortOn key l)

/-! ## Stability

  A list is known when its sublists of each key are known and its keys are in order. -/

/-- Only elements of other keys are passed when an element is inserted. -/
theorem filter_insertOn (k : Text) (a : α) : ∀ l : List α,
    (insertOn key a l).filter (fun b => key b = k) = (a :: l).filter fun b => key b = k
  | [] => rfl
  | b :: bs => by
    rw [insertOn]
    split
    · rfl
    · rename_i hle
      have hne : ¬ (key a = k ∧ key b = k) := by
        rintro ⟨ha, hb⟩
        exact hle (by rw [ha, hb]; exact le_refl k)
      simp only [List.filter_cons, filter_insertOn k a bs]
      by_cases ha : key a = k <;> by_cases hb : key b = k <;> simp_all

/-- Sorting keeps the elements of each key in their order. -/
theorem filter_sortOn (k : Text) : ∀ l : List α,
    (sortOn key l).filter (fun b => key b = k) = l.filter fun b => key b = k
  | [] => rfl
  | a :: l => by
    rw [sortOn_cons, filter_insertOn, List.filter_cons, List.filter_cons, filter_sortOn k l]

/-- A sorted list is told by its elements of each key. -/
theorem eq_of_sortedBy : ∀ {s t : List α}, SortedBy key s → SortedBy key t →
    (∀ k, s.filter (fun b => key b = k) = t.filter fun b => key b = k) → s = t
  | [], [], _, _, _ => rfl
  | [], b :: t, _, _, h => by
    have := h (key b)
    rw [List.filter_nil, List.filter_cons_of_pos (by simp)] at this
    exact absurd this.symm (List.cons_ne_nil _ _)
  | a :: s, [], _, _, h => by
    have := h (key a)
    rw [List.filter_nil, List.filter_cons_of_pos (by simp)] at this
    exact absurd this (List.cons_ne_nil _ _)
  | a :: s, b :: t, hs, ht, h => by
    obtain ⟨has, hs'⟩ := List.pairwise_cons.mp hs
    obtain ⟨hbt, ht'⟩ := List.pairwise_cons.mp ht
    -- each head stands in the other list, so their keys are below each other
    have hkey : key a = key b := by
      have ha : a ∈ (b :: t).filter fun c => key c = key a := by
        rw [← h (key a)]
        exact List.mem_filter.mpr ⟨List.mem_cons_self, by simp⟩
      have hb : b ∈ (a :: s).filter fun c => key c = key b := by
        rw [h (key b)]
        exact List.mem_filter.mpr ⟨List.mem_cons_self, by simp⟩
      have hba : le (key b) (key a) = true := by
        rcases List.mem_cons.mp (List.mem_filter.mp ha).1 with rfl | ha
        · exact le_refl _
        · exact hbt a ha
      have hab : le (key a) (key b) = true := by
        rcases List.mem_cons.mp (List.mem_filter.mp hb).1 with rfl | hb
        · exact le_refl _
        · exact has b hb
      exact le_antisymm hab hba
    have hheads : a = b ∧ s.filter (fun c => key c = key a) = t.filter fun c => key c = key a := by
      have := h (key a)
      rw [List.filter_cons_of_pos (by simp), List.filter_cons_of_pos (by simp [hkey])] at this
      exact List.cons.inj this
    have hrest : s = t := eq_of_sortedBy hs' ht' fun k => by
      by_cases hk : key a = k
      · exact hk ▸ hheads.2
      · have := h k
        rwa [List.filter_cons_of_neg (by simpa using hk),
          List.filter_cons_of_neg (by simpa [← hkey] using hk)] at this
    rw [hheads.1, hrest]

/-- Sorting gives the sorted list with the same elements of each key. -/
theorem sortOn_eq_of_filter (hs : SortedBy key s)
    (h : ∀ k, s.filter (fun b => key b = k) = l.filter fun b => key b = k) : sortOn key l = s :=
  eq_of_sortedBy (sortedBy_sortOn key l) hs fun k => (filter_sortOn k l).trans (h k).symm

/-- What holds along the elements of each key holds between any two of equal key. -/
theorem pairwise_iff_filter {r : α → α → Prop} : ∀ {l : List α},
    l.Pairwise (fun a b => key a = key b → r a b) ↔
      ∀ k, (l.filter fun b => key b = k).Pairwise r
  | [] => ⟨fun _ _ => List.Pairwise.nil, fun _ => List.Pairwise.nil⟩
  | a :: l => by
    rw [List.pairwise_cons, pairwise_iff_filter]
    constructor
    · rintro ⟨ha, hl⟩ k
      rw [List.filter_cons]
      split
      · rename_i hk
        refine List.pairwise_cons.mpr ⟨fun b hb => ?_, hl k⟩
        obtain ⟨hb, hbk⟩ := List.mem_filter.mp hb
        exact ha b hb (by simp_all)
      · exact hl k
    · intro h
      refine ⟨fun b hb hab => ?_, fun k => ?_⟩
      · have hk := h (key a)
        rw [List.filter_cons_of_pos (by simp)] at hk
        exact (List.pairwise_cons.mp hk).1 b (List.mem_filter.mpr ⟨hb, by simp [hab]⟩)
      · exact (h k).sublist ((List.sublist_cons_self a l).filter _)

/-- Sorting keeps what holds between elements of equal key that stand one behind the other. -/
theorem pairwise_sortOn {r : α → α → Prop} (h : l.Pairwise fun a b => key a = key b → r a b) :
    (sortOn key l).Pairwise fun a b => key a = key b → r a b :=
  pairwise_iff_filter.mpr fun k => filter_sortOn k l ▸ pairwise_iff_filter.mp h k

/-! ## What sorting does not see -/

/-- What is sorted depends only on how the elements of each key follow each other. -/
theorem sortOn_congr {l l' : List α}
    (h : ∀ k, l.filter (fun b => key b = k) = l'.filter fun b => key b = k) :
    sortOn key l = sortOn key l' :=
  sortOn_eq_of_filter (sortedBy_sortOn key l') fun k => (filter_sortOn k l').trans (h k).symm

/-- Elements that are told by their keys stand in the same order for each key. -/
theorem filter_eq_of_perm {l l' : List α} (h : l.Perm l')
    (hkey : ∀ a ∈ l, ∀ b ∈ l, key a = key b → a = b) (k : Text) :
    l.filter (fun b => key b = k) = l'.filter fun b => key b = k := by
  -- elements of one key are all equal, so their order does not matter
  have hone : ∀ a ∈ l.filter (fun b => key b = k), ∀ b ∈ l'.filter (fun b => key b = k),
      True → True → a = b := by
    intro a ha b hb _ _
    obtain ⟨ha, hak⟩ := List.mem_filter.mp ha
    obtain ⟨hb, hbk⟩ := List.mem_filter.mp hb
    exact hkey a ha b (h.mem_iff.mpr hb) (by simp_all)
  exact (h.filter _).eq_of_pairwise (fun a b ha hb => hone a ha b hb)
    (List.pairwise_of_forall fun _ _ => trivial) (List.pairwise_of_forall fun _ _ => trivial)

/-- Sorting texts forgets their order. -/
theorem sort_eq_of_perm {ss ts : List Text} (h : ss.Perm ts) : sort ss = sort ts :=
  sortOn_congr (filter_eq_of_perm h fun _ _ _ _ he => he)

theorem sort_sort (ts : List Text) : sort (sort ts) = sort ts := sort_eq_of_perm (sortOn_perm id ts)

/-- A list in which `p` comes first is its two parts. -/
theorem filter_append_filter_of_pairwise {p : α → Bool} : ∀ {l : List α},
    l.Pairwise (fun a b => p b = true → p a = true) → l.filter p ++ l.filter (fun a => !p a) = l
  | [], _ => rfl
  | a :: l, h => by
    obtain ⟨ha, hl⟩ := List.pairwise_cons.mp h
    cases hp : p a with
    | true =>
      rw [List.filter_cons_of_pos hp, List.filter_cons_of_neg (by simp [hp]), List.cons_append,
        filter_append_filter_of_pairwise hl]
    | false =>
      have hnone : ∀ b ∈ a :: l, p b = false := by
        refine List.forall_mem_cons.mpr ⟨hp, fun b hb => Bool.eq_false_iff.mpr fun hpb => ?_⟩
        exact absurd (ha b hb hpb) (by simp [hp])
      rw [List.filter_eq_nil_iff.mpr fun b hb => by simp [hnone b hb], List.nil_append]
      exact List.filter_eq_self.mpr fun b hb => by simp [hnone b hb]

/-- A list in two parts keeps the order of elements of one key if these stand in one part. -/
theorem pairwise_of_parts {p : α → Bool} (hs : ∀ a ∈ s, p a = true) (ht : ∀ a ∈ t, p a = false) :
    (s ++ t).Pairwise fun a b => key a = key b → p b = true → p a = true := by
  refine List.pairwise_append.mpr ⟨?_, ?_, fun a ha b _ _ _ => hs a ha⟩
  · exact List.pairwise_of_forall_mem_list fun a ha b _ _ _ => hs a ha
  · exact List.pairwise_of_forall_mem_list fun a _ b hb _ hp => absurd hp (by simp [ht b hb])

/-- A sorted list in which `p` comes first among equal keys is the sort of its two parts. -/
theorem sortOn_parts {p : α → Bool} (h : SortedBy key l)
    (hp : l.Pairwise fun a b => key a = key b → p b = true → p a = true) :
    sortOn key (l.filter p ++ l.filter fun a => !p a) = l := by
  refine sortOn_eq_of_filter h fun k => ?_
  rw [List.filter_append, List.filter_comm _ p, List.filter_comm _ fun a => !p a]
  exact (filter_append_filter_of_pairwise (pairwise_iff_filter.mp hp k)).symm

/-- Sorting goes through a function that keeps the keys. -/
theorem map_sortOn {key' : β → Text} {f : α → β} (hf : ∀ a, key' (f a) = key a) :
    ∀ l : List α, (sortOn key l).map f = sortOn key' (l.map f) := by
  intro l
  rw [sortOn_eq, sortOn_eq, foldr_insertOn_map]
  simp only [hf]

end

end StyleFold.Text
