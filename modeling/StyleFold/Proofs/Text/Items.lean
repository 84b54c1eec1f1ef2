/-
  Items — what cutting gives, and cutting what was joined.

  Cutting a header into selectors and a body into declarations is where a text becomes a list.  Merging
  joins such lists and compares what it has joined, and printing writes them, so that the way back has
  to be known: which lists are the items of the text that they are joined to.

  1. **Pieces of a text** — a piece stands in the text behind a balanced part of it, is balanced if the
     text is, and hides the delimiter (`piece_spec`).
  2. **Items** — an item is not empty, tidied and balanced, and hides the delimiter (`Item`).
  3. **Tidying before cutting** — blank characters around a text and line breaks in it change none of its
     items, so a text that is tidied first has the same items (`items_tidy`).
  4. **Joined texts** — tidied texts that are joined are tidied.
  5. **Round trip** — items that are joined, blank characters around them or not, are cut into the same
     items again (`items_join`); so the joined text tells which items it was made of.
-/
import StyleFold.Proofs.Text.Literals

namespace StyleFold.Text

variable {s t u v : Text} {ts : List Text} {c d : Char} {q : Quote}

/-! ## Pieces of a text -/

/-- A character that is no delimiter does not make one show. -/
theorem showsFrom_cons_eq_false (hd : isQuote d = false)
    (hc : ¬ (q = none ∧ ¬ isQuote c = true ∧ c = d)) (ht : showsFrom [d] (q.next c) t = false) :
    showsFrom [d] q (c :: t) = false := by
  rw [showsFrom, ht, Bool.or_false, Bool.and_eq_false_imp]
  intro hq
  refine Bool.eq_false_iff.mpr fun hp => hc ?_
  obtain ⟨r, hr⟩ := List.isPrefixOf_iff_prefix.mp hp
  obtain rfl : d = c := (List.cons.inj hr).1
  exact ⟨beq_iff_eq.mp hq, by rw [hd]; exact Bool.false_ne_true, rfl⟩

theorem piecesFrom_eq_nil (h : piecesFrom d q t = []) : t = [] := by
  cases t with
  | nil => rfl
  | cons c t =>
    rw [piecesFrom] at h
    split at h
    · exact absurd h (by simp)
    · split at h <;> exact absurd h (by simp)

/-- The first piece hides the delimiter.  It is all that is left of the text, or it closes its literals in
front of a delimiter, and the other pieces are those of the text behind that. -/
theorem piecesFrom_eq_cons (hd : isQuote d = false) : ∀ {t : Text} {q : Quote} {p : Text}
    {ps : List Text}, piecesFrom d q t = p :: ps → showsFrom [d] q p = false ∧
      (t = p ∧ ps = [] ∨ ∃ rest, t = p ++ d :: rest ∧ q.after p = none ∧ ps = pieces d rest)
  | [], _, _, _, h => by simp [piecesFrom] at h
  | c :: t, q, p, ps, h => by
    rw [piecesFrom] at h
    split at h
    -- the text is cut at its first character, so its first piece is empty
    · rename_i hcut
      obtain ⟨rfl, -, rfl⟩ := hcut
      obtain ⟨rfl, rfl⟩ : [] = p ∧ pieces c t = ps := by simpa [pieces] using h
      exact ⟨rfl, .inr ⟨t, rfl, rfl, rfl⟩⟩
    -- the first character belongs to the first piece
    · rename_i hcut
      split at h
      · rename_i hnil
        obtain ⟨rfl, rfl⟩ : [c] = p ∧ [] = ps := by simpa using h
        obtain rfl := piecesFrom_eq_nil hnil
        exact ⟨showsFrom_cons_eq_false hd hcut rfl, .inl ⟨rfl, rfl⟩⟩
      · rename_i p1 ps1 hps
        obtain ⟨rfl, rfl⟩ : c :: p1 = p ∧ ps1 = ps := by simpa using h
        obtain ⟨hhide, hrest⟩ := piecesFrom_eq_cons hd hps
        refine ⟨showsFrom_cons_eq_false hd hcut hhide, ?_⟩
        rcases hrest with ⟨rfl, rfl⟩ | ⟨rest, rfl, hclosed, rfl⟩
        · exact .inl ⟨rfl, rfl⟩
        · exact .inr ⟨rest, rfl, hclosed, rfl⟩

/-- A piece of a balanced text is balanced and hides the delimiter, and stands outside of literals. -/
theorem piece_spec (hd : isQuote d = false) (ht : t.Balanced) {p : Text} (hp : p ∈ pieces d t) :
    Balanced p ∧ Hides [d] p ∧ ∃ u v, t = u ++ p ++ v ∧ Balanced u := by
  generalize hps : pieces d t = ps at hp
  induction ps generalizing t with
  | nil => exact absurd hp List.not_mem_nil
  | cons p1 ps1 ih =>
    obtain ⟨hhide, ⟨rfl, rfl⟩ | ⟨rest, rfl, hclosed, rfl⟩⟩ := piecesFrom_eq_cons hd hps
    · obtain rfl := List.mem_singleton.mp hp
      exact ⟨ht, hhide, [], [], by simp, rfl⟩
    · rcases List.mem_cons.mp hp with rfl | hp
      · exact ⟨hclosed, hhide, [], d :: rest, rfl, rfl⟩
      -- behind the first piece and its delimiter the rest of the text is balanced, too
      · have hfront : Balanced (p1 ++ [d]) :=
          Balanced.append hclosed (balanced_of_no_quotes (List.forall_mem_singleton.mpr hd))
        have hrest : Balanced rest := Balanced.of_append (by simpa using ht) hfront
        obtain ⟨hbal, hhide', u, v, rfl, hu⟩ := ih hrest rfl hp
        exact ⟨hbal, hhide', p1 ++ [d] ++ u, v, by simp, hfront.append hu⟩

/-! ## Items -/

/-- What an item of a list with delimiter `d` is like. -/
structure Item (d : Char) (t : Text) : Prop where
  ne_nil : t ≠ []
  tidied : Tidied t
  balanced : Balanced t
  hides : Hides [d] t

/-- An item is what tidying leaves of a piece. -/
theorem item_spec (hd : isQuote d = false) (ht : t.Balanced) (hs : s ∈ items d t) :
    Item d s ∧ ∃ u p v, t = u ++ p ++ v ∧ Balanced u ∧ s = tidy p := by
  obtain ⟨p, hp, rfl⟩ := List.mem_map.mp (List.mem_filter.mp hs).1
  obtain ⟨hbal, hhide, u, v, he, hu⟩ := piece_spec hd ht hp
  refine ⟨⟨ne_nil_of_mem_items hs, tidied_tidy p, ?_, (thinned_tidy p).hides hhide⟩,
    u, p, v, he, hu, rfl⟩
  exact (thinned_tidy p).balanced_iff.mpr hbal

/-! ## Tidying before cutting

  Headers are tidied before they are cut and bodies are not, and it makes no difference. -/

/-- The item that a piece becomes, if one is left. -/
def keep (piece : Text) : List Text := if tidy piece = [] then [] else [tidy piece]

/-- The items of a text that is read with literal `q` open, behind the part `a` of its first piece. -/
def itemsFrom (d : Char) (a : Text) (q : Quote) : Text → List Text
  | [] => keep a
  | c :: t =>
    if q = none ∧ ¬ isQuote c ∧ c = d then keep a ++ itemsFrom d [] none t
    else itemsFrom d (a ++ [c]) (q.next c) t

/-- Of one more piece its tidied form is kept, unless it is empty. -/
theorem filter_map_tidy_cons (p : Text) (ps : List Text) :
    ((p :: ps).map tidy).filter (fun piece => !piece.isEmpty) =
      keep p ++ (ps.map tidy).filter fun piece => !piece.isEmpty := by
  rw [List.map_cons, List.filter_cons, keep]
  by_cases h : tidy p = [] <;> simp [h]

/-- The items of a text are its tidied pieces but for empty ones, the text that was begun being part of
the first. -/
theorem itemsFrom_eq : ∀ (t : Text) (a : Text) (q : Quote), itemsFrom d a q t =
    ((match piecesFrom d q t with
      | [] => [a]
      | p :: ps => (a ++ p) :: ps).map tidy).filter fun piece => !piece.isEmpty
  | [], a, q => (filter_map_tidy_cons a []).symm ▸ (List.append_nil _).symm
  | c :: t, a, q => by
    rw [itemsFrom, piecesFrom]
    split
    · rw [itemsFrom_eq t [] none, filter_map_tidy_cons, List.append_nil]
      cases piecesFrom d none t <;> rfl
    · rw [itemsFrom_eq t (a ++ [c]) (q.next c)]
      cases piecesFrom d (q.next c) t with
      | nil => rfl
      | cons p ps => simp only [List.append_assoc, List.singleton_append]

theorem items_eq_itemsFrom (d : Char) (t : Text) : items d t = itemsFrom d [] none t := by
  rw [itemsFrom_eq, items, pieces]
  cases piecesFrom d none t <;> rfl

/-- What comes of the first piece depends on what tidying leaves of it. -/
theorem itemsFrom_congr : ∀ {t a b : Text} {q : Quote}, (∀ s, tidy (a ++ s) = tidy (b ++ s)) →
    itemsFrom d a q t = itemsFrom d b q t
  | [], a, b, q, h => by
    have := h []
    rw [List.append_nil, List.append_nil] at this
    rw [itemsFrom, itemsFrom, keep, keep, this]
  | c :: t, a, b, q, h => by
    have := h []
    rw [List.append_nil, List.append_nil] at this
    rw [itemsFrom, itemsFrom, keep, keep, this,
      itemsFrom_congr (t := t) (a := a ++ [c]) (b := b ++ [c]) fun s => by simpa using h (c :: s)]

/-- A text is not cut at a blank character. -/
theorem not_cut_of_isBlank (hd : isBlank d = false) (hc : isBlank c = true) :
    ¬ (q = none ∧ ¬ isQuote c = true ∧ c = d) := by
  rintro ⟨-, -, rfl⟩
  rw [hc] at hd
  exact absurd hd (by decide)

/-- Blank characters belong to the piece in which they stand. -/
theorem Blank.itemsFrom_append (hd : isBlank d = false) : ∀ {s t a : Text} {q : Quote}, s.Blank →
    q.Proper → itemsFrom d a q (s ++ t) = itemsFrom d (a ++ s) q t
  | [], t, a, q, _, _ => by rw [List.nil_append, List.append_nil]
  | c :: s, t, a, q, hs, hq => by
    obtain ⟨hc, hs⟩ := List.forall_mem_cons.mp hs
    rw [List.cons_append, itemsFrom, if_neg (not_cut_of_isBlank hd hc),
      Quote.next_eq_self hq (not_isQuote_of_isBlank hc), Blank.itemsFrom_append hd hs hq,
      List.append_assoc]
    rfl

/-- Tidying drops line breaks anyway. -/
theorem tidy_unbroken (t : Text) : tidy (unbroken t) = tidy t := by
  rw [tidy, tidy, unbroken, List.filter_filter]
  simp only [Bool.and_self]

theorem Blank.unbroken (h : s.Blank) : Blank s.unbroken := fun c hc => h c (List.mem_filter.mp hc).1

/-- Blank characters around a text are dropped. -/
theorem tidy_append_blank (hs : s.Blank) (hu : u.Blank) (t : Text) : tidy (s ++ t ++ u) = tidy t := by
  obtain ⟨a, b, he, ha, hb⟩ := trim_spec (unbroken t)
  have h := (tidied_tidy t).tidy_append (hs.unbroken.append ha) (hb.append hu.unbroken)
  rw [← tidy_unbroken, unbroken_append, unbroken_append, he]
  refine (congrArg tidy ?_).trans h
  simp only [List.append_assoc]
  rfl

theorem Blank.tidy_append (hs : s.Blank) (t : Text) : tidy (s ++ t) = tidy t := by
  have h := tidy_append_blank hs blank_nil t
  rwa [List.append_nil] at h

theorem Blank.tidy_append_right (hs : s.Blank) (t : Text) : tidy (t ++ s) = tidy t :=
  tidy_append_blank blank_nil hs t

/-- Blank characters before a text change none of its items. -/
theorem Blank.items_append (hs : s.Blank) (hd : isBlank d = false) (t : Text) :
    items d (s ++ t) = items d t := by
  rw [items_eq_itemsFrom, items_eq_itemsFrom, hs.itemsFrom_append hd Quote.proper_none]
  exact itemsFrom_congr fun r => by rw [List.nil_append, List.nil_append, hs.tidy_append]

/-- Blanks at the end make no item. -/
theorem Blank.itemsFrom_append_right (hs : s.Blank) (hd : isBlank d = false) :
    ∀ {t a : Text} {q : Quote}, q.Proper → itemsFrom d a q (t ++ s) = itemsFrom d a q t
  | [], a, q, hq => by
    have h := hs.itemsFrom_append hd hq (t := []) (a := a)
    rw [List.append_nil] at h
    rw [List.nil_append, h, itemsFrom, itemsFrom, keep, keep, hs.tidy_append_right]
  | c :: t, a, q, hq => by
    rw [List.cons_append, itemsFrom, itemsFrom, hs.itemsFrom_append_right hd Quote.proper_none,
      hs.itemsFrom_append_right hd (hq.next c)]

/-- Line breaks make no item, nor do they part one. -/
theorem itemsFrom_unbroken (hd : isBlank d = false) : ∀ {t a : Text} {q : Quote}, q.Proper →
    itemsFrom d a q (unbroken t) = itemsFrom d a q t
  | [], a, q, hq => rfl
  | c :: t, a, q, hq => by
    cases hc : isLineBreak c with
    | false =>
      rw [unbroken_cons hc, itemsFrom, itemsFrom, itemsFrom_unbroken hd Quote.proper_none,
        itemsFrom_unbroken hd (hq.next c)]
    | true =>
      have hblank := isBlank_of_isLineBreak hc
      rw [unbroken_cons_break hc, itemsFrom_unbroken hd hq, itemsFrom,
        if_neg (not_cut_of_isBlank hd hblank), Quote.next_eq_self hq (not_isQuote_of_isBlank hblank)]
      refine itemsFrom_congr fun r => ?_
      rw [← tidy_unbroken, ← tidy_unbroken (a ++ [c] ++ r), unbroken_append, unbroken_append,
        unbroken_append, unbroken_cons_break hc, unbroken.eq_1 [], List.filter_nil, List.append_nil]

/-- A text that is tidied before it is cut has the same items. -/
theorem items_tidy (hd : isBlank d = false) (t : Text) : items d (tidy t) = items d t := by
  obtain ⟨a, b, he, ha, hb⟩ := trim_spec (unbroken t)
  have hunbroken : items d (unbroken t) = items d t := by
    rw [items_eq_itemsFrom, items_eq_itemsFrom, itemsFrom_unbroken hd Quote.proper_none]
  rw [← hunbroken]
  conv => rhs; rw [he]
  rw [List.append_assoc, ha.items_append hd, items_eq_itemsFrom, items_eq_itemsFrom,
    hb.itemsFrom_append_right hd Quote.proper_none]
  rfl

/-! ## Joined texts -/

/-- A delimiter that is not blank keeps two tidied texts tidied. -/
theorem Tidied.append_cons (hs : s.Tidied) (hd : isBlank d = false) (ht : t.Tidied) :
    Tidied (s ++ d :: t) where
  no_breaks := by
    intro c hc
    -- The delimiter is no blank, so no line break; at the ends it stands in for an empty part.
    rcases List.mem_append.mp hc with hc | hc
    · exact hs.no_breaks c hc
    · rcases List.mem_cons.mp hc with rfl | hc
      · exact Bool.eq_false_iff.mpr fun hb => by
          rw [isBlank_of_isLineBreak hb] at hd
          exact absurd hd (by decide)
      · exact ht.no_breaks c hc
  head := by
    intro c hc
    cases s with
    | nil =>
      obtain rfl : d = c := by simpa using hc
      exact hd
    | cons b s => exact hs.head c hc
  last := by
    intro c hc
    cases t with
    | nil =>
      obtain rfl : d = c := by simpa using hc
      exact hd
    | cons b t =>
      refine ht.last c ?_
      rw [List.getLast?_append, List.getLast?_cons_cons] at hc
      simpa [List.getLast?_cons] using hc

/-- Tidied texts are joined to a tidied one, unless the delimiter is blank. -/
theorem tidied_join {ts : List Text} (hd : isBlank d = false) (h : ∀ t ∈ ts, Tidied t) :
    Tidied (join d ts) :=
  join_ind tidied_nil (fun hs ht => hs.append_cons hd ht) h

/-! ## Round trip

  From the lists to the text and back.  The other round trip, from a text, is another matter. -/

/-- A text that hides the delimiter ends at the next one. -/
theorem piecesFrom_append_cons (hd : isQuote d = false) (rest : Text) : ∀ {t : Text} {q : Quote},
    q.after t = none → showsFrom [d] q t = false →
      piecesFrom d q (t ++ d :: rest) = t :: piecesFrom d none rest
  | [], q, hq, _ => by
    obtain rfl : q = none := hq
    rw [List.nil_append, piecesFrom, if_pos ⟨rfl, by simp [hd], rfl⟩]
  | c :: t, q, hq, ht => by
    rw [showsFrom, Bool.or_eq_false_iff] at ht
    have hcut : ¬ (q = none ∧ ¬ isQuote c = true ∧ c = d) := by
      rintro ⟨hnone, -, hcd⟩
      exact absurd ht.1 (by simp [hnone, hcd])
    rw [List.cons_append, piecesFrom, if_neg hcut,
      piecesFrom_append_cons hd rest (q := q.next c) hq ht.2]

/-- A text that hides the delimiter is one piece. -/
theorem piecesFrom_eq_singleton : ∀ {t : Text} {q : Quote}, t ≠ [] →
    showsFrom [d] q t = false → piecesFrom d q t = [t]
  | [], _, h, _ => absurd rfl h
  | c :: t, q, _, ht => by
    rw [showsFrom, Bool.or_eq_false_iff] at ht
    have hcut : ¬ (q = none ∧ ¬ isQuote c = true ∧ c = d) := by
      rintro ⟨hnone, -, hcd⟩
      exact absurd ht.1 (by simp [hnone, hcd])
    rw [piecesFrom, if_neg hcut]
    -- behind the last character there is no piece, so it is one by itself
    cases t with
    | nil => rfl
    | cons e t => rw [piecesFrom_eq_singleton (List.cons_ne_nil e t) ht.2]

/-- The first item of a text ends at the first delimiter that is not hidden. -/
theorem items_cons (hd : isQuote d = false) (hs : Balanced s) (hh : Hides [d] s)
    (hne : tidy s ≠ []) (rest : Text) : items d (s ++ d :: rest) = tidy s :: items d rest := by
  rw [items, items, pieces, piecesFrom_append_cons hd rest hs hh, List.map_cons,
    List.filter_cons_of_pos (by simpa using hne)]
  rfl

/-- A text that hides the delimiter is one item, or none if it is blank. -/
theorem items_single (hh : Hides [d] s) (hne : tidy s ≠ []) : items d s = [tidy s] := by
  have hs : s ≠ [] := by
    rintro rfl
    exact hne rfl
  rw [items, pieces, piecesFrom_eq_singleton hs hh, List.map_singleton,
    List.filter_cons_of_pos (by simpa using hne)]
  rfl

theorem Blank.balanced (h : t.Blank) : t.Balanced := balanced_of_no_quotes h.no_quotes

theorem Blank.hides (h : t.Blank) (hd : isBlank d = false) : Hides [d] t :=
  hides_of_notMem fun hmem => by
    rw [h d hmem] at hd
    exact absurd hd (by decide)

theorem Blank.tidy_eq_nil (h : t.Blank) : tidy t = [] := by
  have := tidied_nil.tidy_append h blank_nil
  rwa [List.append_nil, List.append_nil] at this

/-- Of blank characters there are no items. -/
theorem Blank.items_eq_nil (h : t.Blank) (hd : isBlank d = false) : items d t = [] := by
  cases t with
  | nil => rfl
  | cons c t =>
    rw [items, pieces, piecesFrom_eq_singleton (List.cons_ne_nil c t) (h.hides hd),
      List.map_singleton, h.tidy_eq_nil]
    rfl

/-- Items that are joined are the items of the text, blank characters around it apart. -/
theorem items_join {b : Text} (hd : isQuote d = false) (hblank : isBlank d = false) (hb : b.Blank) :
    ∀ {ts : List Text} {a : Text}, a.Blank → (∀ t ∈ ts, Item d t) →
      items d (a ++ join d ts ++ b) = ts
  | [], a, ha, _ => by
    rw [join_nil, List.append_nil]
    exact (ha.append hb).items_eq_nil hblank
  | [t], a, ha, hts => by
    have ht := hts t List.mem_cons_self
    have htidy : tidy (a ++ t ++ b) = t := ht.tidied.tidy_append ha hb
    have hhides : Hides [d] (a ++ t ++ b) := by
      refine Hides.append_single ?_ (hb.hides hblank) (ha.balanced.append ht.balanced)
      exact (ha.hides hblank).append_single ht.hides ha.balanced
    rw [join_singleton, items_single hhides (by rw [htidy]; exact ht.ne_nil), htidy]
  | t :: t' :: ts, a, ha, hts => by
    have ht := hts t List.mem_cons_self
    have htidy : tidy (a ++ t) = t := by
      have := ht.tidied.tidy_append ha blank_nil
      rwa [List.append_nil] at this
    have hrest : items d ([] ++ join d (t' :: ts) ++ b) = t' :: ts :=
      items_join hd hblank hb blank_nil fun s hs => hts s (List.mem_cons_of_mem t hs)
    -- blank characters stand before the first item only, and behind the last
    have hcut : a ++ join d (t :: t' :: ts) ++ b =
        (a ++ t) ++ d :: ([] ++ join d (t' :: ts) ++ b) := by simp
    rw [hcut, items_cons hd (ha.balanced.append ht.balanced)
      ((ha.hides hblank).append_single ht.hides ha.balanced) (by rw [htidy]; exact ht.ne_nil),
      htidy, hrest]

/-- The joined text tells which items it was made of. -/
theorem join_injective (hd : isQuote d = false) (hblank : isBlank d = false) {ss ts : List Text}
    (hss : ∀ s ∈ ss, Item d s) (hts : ∀ t ∈ ts, Item d t) (h : join d ss = join d ts) : ss = ts := by
  rw [← items_join hd hblank blank_nil blank_nil hss, h, items_join hd hblank blank_nil blank_nil hts]

end StyleFold.Text
