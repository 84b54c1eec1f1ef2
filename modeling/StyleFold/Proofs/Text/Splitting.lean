/-
  Splitting — cutting a text outside of literals loses nothing, and a list that is joined is read again.

  Splitting is used for selectors and declarations, but nothing in it depends on the two delimiters.
  The statements are about every delimiter, with the two odd sorts, quotes and blanks, told apart where
  they behave differently.

  1. **Joining pieces** — the pieces of a text are put together to the text, a delimiter at its very end
     apart (`join_pieces`).
  2. **Texts apart** — the pieces hide the delimiter, and each but the last closes its literals (`Apart`);
     texts of this sort that are joined are the pieces of what they were joined to (`Apart.pieces_join`).
  3. **Lists of items** — tidied pieces are apart like the pieces, so the items of a text, joined, are the
     items again (`splits_lossless`).  This is so for every delimiter: a quote cuts nothing, and a blank
     delimiter stands between items only.
-/
import StyleFold.Proofs.Text.Items

namespace StyleFold.Text

variable {p t : Text} {ps ps' : List Text} {d : Char}

/-! ## Joining pieces -/

/-- The pieces of a text, joined, are the text, or lack the delimiter at its end. -/
theorem join_pieces (hd : isQuote d = false) (t : Text) :
    join d (pieces d t) = t ∨ join d (pieces d t) ++ [d] = t := by
  generalize hps : pieces d t = ps
  induction ps generalizing t with
  | nil => exact .inl (piecesFrom_eq_nil hps).symm
  | cons p ps ih =>
    obtain ⟨-, ⟨rfl, rfl⟩ | ⟨rest, rfl, -, rfl⟩⟩ := piecesFrom_eq_cons hd hps
    · exact .inl (join_singleton d t)
    · cases hrest : pieces d rest with
      -- the delimiter behind the last piece is the one that is lost
      | nil =>
        obtain rfl := piecesFrom_eq_nil hrest
        exact .inr (by rw [join_singleton])
      | cons p' ps' =>
        rw [join_cons_cons, List.append_assoc, List.cons_append, List.append_cancel_left_eq,
          List.append_cancel_left_eq, List.cons_inj_right, List.cons_inj_right, ← hrest]
        exact ih rest rfl

/-! ## Texts apart

  The condition under which texts can be told from what they were joined to. -/

/-- Whether the texts stay apart when they are joined with the delimiter. -/
structure Apart (d : Char) (ps : List Text) : Prop where
  /-- The delimiter stands in no text outside of literals. -/
  hides : ∀ p ∈ ps, Hides [d] p
  /-- Each text but the last closes its literals. -/
  balanced : ∀ p ∈ ps.dropLast, Balanced p

theorem apart_nil : Apart d [] :=
  ⟨fun _ h => absurd h List.not_mem_nil, fun _ h => absurd h List.not_mem_nil⟩

/-- Pieces stand apart if the first hides the delimiter and leaves no literal open, unless it is the last,
and the others stand apart. -/
theorem apart_cons_iff :
    Apart d (p :: ps) ↔ Hides [d] p ∧ (ps ≠ [] → Balanced p) ∧ Apart d ps := by
  cases ps with
  | nil =>
    constructor
    · intro h
      exact ⟨h.hides p List.mem_cons_self, fun hne => absurd rfl hne, apart_nil⟩
    · rintro ⟨hhide, -, -⟩
      exact ⟨List.forall_mem_singleton.mpr hhide, fun _ h => absurd h List.not_mem_nil⟩
  | cons p' ps =>
    constructor
    · rintro ⟨hhides, hbalanced⟩
      obtain ⟨hhide, hhides⟩ := List.forall_mem_cons.mp hhides
      obtain ⟨hclosed, hbalanced⟩ := List.forall_mem_cons.mp hbalanced
      exact ⟨hhide, fun _ => hclosed, hhides, hbalanced⟩
    · rintro ⟨hhide, hclosed, hhides, hbalanced⟩
      exact ⟨List.forall_mem_cons.mpr ⟨hhide, hhides⟩,
        List.forall_mem_cons.mpr ⟨hclosed (List.cons_ne_nil p' ps), hbalanced⟩⟩

/-- The pieces of a text stand apart. -/
theorem apart_pieces (hd : isQuote d = false) (t : Text) : Apart d (pieces d t) := by
  generalize hps : pieces d t = ps
  induction ps generalizing t with
  | nil => exact apart_nil
  | cons p ps ih =>
    obtain ⟨hhide, ⟨rfl, rfl⟩ | ⟨rest, rfl, hclosed, rfl⟩⟩ := piecesFrom_eq_cons hd hps
    · exact apart_cons_iff.mpr ⟨hhide, fun hne => absurd rfl hne, apart_nil⟩
    · exact apart_cons_iff.mpr ⟨hhide, fun _ => hclosed, ih rest rfl⟩

/-- Texts that are left out do not matter. -/
theorem Apart.filter (h : Apart d ps) (keeps : Text → Bool) : Apart d (ps.filter keeps) := by
  induction ps with
  | nil => exact apart_nil
  | cons p ps ih =>
    obtain ⟨hhide, hclosed, hrest⟩ := apart_cons_iff.mp h
    rw [List.filter_cons]
    split
    · refine apart_cons_iff.mpr ⟨hhide, fun hne => hclosed ?_, ih hrest⟩
      rintro rfl
      exact hne rfl
    · exact ih hrest

/-- Tidying drops neither quotes nor what keeps texts apart. -/
theorem Apart.map_tidy (h : Apart d ps) : Apart d (ps.map tidy) where
  hides := List.forall_mem_map.mpr fun p hp => (thinned_tidy p).hides (h.hides p hp)
  balanced := by
    rw [← List.map_dropLast]
    exact List.forall_mem_map.mpr fun p hp => (thinned_tidy p).balanced_iff.mpr (h.balanced p hp)

/-- Texts apart, none of them empty, are the pieces of the joined text. -/
theorem Apart.pieces_join (hd : isQuote d = false) (h : Apart d ps) (hne : ∀ p ∈ ps, p ≠ []) :
    pieces d (join d ps) = ps := by
  induction ps with
  | nil => rfl
  | cons p ps ih =>
    obtain ⟨hhide, hclosed, hrest⟩ := apart_cons_iff.mp h
    obtain ⟨hp, hne⟩ := List.forall_mem_cons.mp hne
    cases ps with
    | nil =>
      rw [join_singleton]
      exact piecesFrom_eq_singleton hp hhide
    | cons p' ps =>
      rw [join_cons_cons, pieces, piecesFrom_append_cons hd _ (hclosed (List.cons_ne_nil p' ps)) hhide]
      exact congrArg (p :: ·) (ih hrest hne)

/-! ## Lists of items -/

/-- A quote is no place to cut, so a text has one item or none. -/
theorem items_of_isQuote (hd : isQuote d = true) (t : Text) : items d t = keep t := by
  -- A quote opens a literal before it could be a delimiter, so nothing is ever cut.
  have huncut : ∀ {t : Text} {q : Quote}, t ≠ [] → piecesFrom d q t = [t] := by
    intro t
    induction t with
    | nil => exact fun h => absurd rfl h
    | cons c t ih =>
      intro q _
      have hcut : ¬ (q = none ∧ ¬ isQuote c = true ∧ c = d) := by
        rintro ⟨-, hc, rfl⟩
        exact hc hd
      rw [piecesFrom, if_neg hcut]
      cases t with
      | nil => rfl
      | cons e t => rw [ih (List.cons_ne_nil e t)]
  cases t with
  | nil => rfl
  | cons c t =>
    rw [items, pieces, huncut (List.cons_ne_nil c t), filter_map_tidy_cons]
    exact List.append_nil _

theorem join_keep (d : Char) (t : Text) : join d (keep t) = tidy t := by
  rw [keep]
  split
  · rename_i hempty
    rw [join_nil, hempty]
  · exact join_singleton d (tidy t)

/-- The items of a text, joined, are read as the same items. -/
theorem items_join_items (d : Char) (t : Text) : items d (join d (items d t)) = items d t := by
  cases hd : isQuote d with
  | true => rw [items_of_isQuote hd, items_of_isQuote hd, join_keep, keep, keep, (tidied_tidy t).tidy_eq]
  | false =>
    have hapart : Apart d (items d t) := (apart_pieces hd t).map_tidy.filter _
    have htidied : ∀ p ∈ items d t, tidy p = id p := by
      intro p hp
      obtain ⟨s, -, rfl⟩ := List.mem_map.mp (List.mem_filter.mp hp).1
      exact (tidied_tidy s).tidy_eq
    rw [items, hapart.pieces_join hd fun p => ne_nil_of_mem_items, List.map_congr_left htidied, List.map_id,
      List.filter_eq_self]
    exact fun p hp => by simpa using ne_nil_of_mem_items hp

/-- Cutting at a character that is no quote loses at most one such character at the end, and leaves pieces
apart; and for every character, the items of a text are those of the joined items. -/
theorem splits_lossless (d : Char) (t : Text) :
    (isQuote d = false →
      (join d (pieces d t) = t ∨ join d (pieces d t) ++ [d] = t) ∧ Apart d (pieces d t)) ∧
    items d (join d (items d t)) = items d t :=
  ⟨fun hd => ⟨join_pieces hd t, apart_pieces hd t⟩, items_join_items d t⟩

/-- A comma in a literal, nothing between two commas, and a literal that is not closed. -/
theorem splits_lossless_openLiteral :
    isQuote ',' = false ∧
    pieces ',' "a ,'b,\nc',,\"d , e".toList =
      ["a ".toList, "'b,\nc'".toList, [], "\"d , e".toList] ∧
    Apart ',' (pieces ',' "a ,'b,\nc',,\"d , e".toList) ∧
    items ',' "a,'b,c',\"d , e".toList = items ',' "a ,'b,\nc',,\"d , e".toList := by
  have h := splits_lossless ',' "a ,'b,\nc',,\"d , e".toList
  have hitems : join ',' (items ',' "a ,'b,\nc',,\"d , e".toList) = "a,'b,c',\"d , e".toList := by
    decide +kernel
  rw [hitems] at h
  exact ⟨rfl, by decide +kernel, (h.1 rfl).2, h.2⟩

end StyleFold.Text
