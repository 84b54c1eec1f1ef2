/-
  Gaps — line breaks and spaces between words.

  A line feed in the source keeps two words apart as a space does.  Tidying keeps the space and drops the
  line feed, and then the words on both sides become one.

  The comparison is between two texts that are tidied and then seen without their gaps.  Tidying does
  not commute with spacing, and where it fails to is a single phenomenon, for which a decidable test is
  given.

  1. **Spacing** — a text with spaces in place of its line feeds, those in literals apart (`spaced`).
  2. **Collapsing** — a text with one space for each run of blank characters (`collapse`).
  3. **Flow** — the words of a text with one space between neighbours: what collapsing makes of a tidied
     text (`collapse_tidy`).
  4. **Joins** — a line feed outside of literals with a word right before and right behind it, line breaks
     apart: tidying joins the two words.  It leaves the same words of a text and of the spaced text exactly
     if the text is free of joins (`collapse_tidy_spaced_iff`).
  5. **Items** — the pieces of a spaced text are the spaced pieces, so the same holds of lists of items
     (`items_spaced_iff`).
-/
import StyleFold.Proofs.Text.Items

namespace StyleFold.Text

variable {mark s t u v : Text} {c d : Char} {q : Quote} {inWord : Bool}

/-! ## Spacing -/

/-- The text, read with literal `q` open, with a space for each line feed outside of literals. -/
def spacedFrom (q : Quote) : Text → Text
  | [] => []
  | c :: t => (if q = none ∧ c = '\n' then ' ' else c) :: spacedFrom (q.next c) t

/-- The text with a space for each line feed outside of literals. -/
def spaced (t : Text) : Text := spacedFrom none t

/-- Spacing goes through a text from the front, and behind it with the quote that is then open. -/
theorem spacedFrom_append : ∀ {s : Text} {q : Quote} (t : Text),
    spacedFrom q (s ++ t) = spacedFrom q s ++ spacedFrom (q.after s) t
  | [], _, _ => rfl
  | c :: s, q, t => by
    rw [List.cons_append, spacedFrom, spacedFrom_append t, spacedFrom]
    rfl

/-! ## Collapsing

  What remains of a text if no one looks at how wide its gaps are. -/

/-- The text with one space for each run of blank characters, behind a character of such a run or not. -/
def collapseFrom (inGap : Bool) : Text → Text
  | [] => []
  | c :: t =>
    if isBlank c then if inGap then collapseFrom true t else ' ' :: collapseFrom true t
    else c :: collapseFrom false t

/-- The text with one space for each run of blank characters. -/
def collapse (t : Text) : Text := collapseFrom false t

/-- A word stands at the front of a text if it stands there when the gaps are collapsed. -/
theorem prefix_collapse_iff : ∀ {mark t : Text}, (∀ c ∈ mark, isBlank c = false) →
    (mark <+: collapse t ↔ mark <+: t)
  | [], t, _ => by simp
  | m :: mark, [], _ => by simp [collapse, collapseFrom]
  | m :: mark, c :: t, h => by
    obtain ⟨hm, hmark⟩ := List.forall_mem_cons.mp h
    by_cases hc : isBlank c = true
    · have hne : m ≠ c := by
        rintro rfl
        rw [hm] at hc
        exact absurd hc (by decide)
      have hspace : m ≠ ' ' := by
        rintro rfl
        exact absurd hm (by decide)
      simp [collapse, collapseFrom, hc, List.cons_prefix_cons, hne, hspace]
    · have ih := prefix_collapse_iff (t := t) hmark
      rw [collapse] at ih
      rw [collapse, collapseFrom, if_neg hc, List.cons_prefix_cons, List.cons_prefix_cons, ih]

/-! ## Flow

  A description of the same by one run through the text, which knows only whether it is in a word. -/

/-- A space before the text, if it is not empty. -/
def leadIn (t : Text) : Text := if t = [] then [] else ' ' :: t

theorem leadIn_injective (h : leadIn s = leadIn t) : s = t := by
  cases s with
  | nil =>
    cases t with
    | nil => rfl
    | cons c t => exact absurd h (by simp [leadIn])
  | cons d s =>
    cases t with
    | nil => exact absurd h (by simp [leadIn])
    | cons c t => simpa [leadIn] using h

/-- The words of a text with one space between neighbours, behind a character of a word or not. -/
def flow (inWord : Bool) : Text → Text
  | [] => []
  | c :: t =>
    if isBlank c then if inWord then leadIn (flow false t) else flow false t
    else c :: flow true t

/-- Blank characters are trimmed at the end where nothing else follows. -/
theorem trimEnd_cons (c : Char) (t : Text) :
    trimEnd (c :: t) = if isBlank c = true ∧ trimEnd t = [] then [] else c :: trimEnd t := by
  rw [trimEnd, trimEnd, List.reverse_cons, List.dropWhile_append]
  by_cases ht : t.reverse.dropWhile isBlank = []
  · by_cases hc : isBlank c = true <;> simp [ht, hc]
  · simp [ht]

theorem flow_false_eq_nil_iff : ∀ {t : Text}, flow false t = [] ↔ trimEnd t = []
  | [] => by simp [flow, trimEnd]
  | c :: t => by
    have ih : flow false t = [] ↔ trimEnd t = [] := flow_false_eq_nil_iff
    rw [flow, trimEnd_cons]
    by_cases hc : isBlank c = true <;> simp [hc, ih]

/-- What is collapsed of a text without the blank characters at its end. -/
theorem collapseFrom_trimEnd : ∀ (t : Text) (inGap : Bool),
    collapseFrom inGap (trimEnd t) = flow (!inGap) t
  | [], inGap => by simp [trimEnd, collapseFrom, flow]
  | c :: t, inGap => by
    rw [trimEnd_cons, flow]
    by_cases hc : isBlank c = true
    · by_cases ht : trimEnd t = []
      · have hflow : flow false t = [] := flow_false_eq_nil_iff.mpr ht
        cases inGap <;> simp [hc, ht, hflow, collapseFrom, leadIn]
      · have hflow : flow false t ≠ [] := fun h => ht (flow_false_eq_nil_iff.mp h)
        have ih : collapseFrom true (trimEnd t) = flow false t := collapseFrom_trimEnd t true
        cases inGap <;> simp [hc, ht, hflow, collapseFrom, leadIn, ih]
    · have ih : collapseFrom false (trimEnd t) = flow true t := collapseFrom_trimEnd t false
      simp [hc, collapseFrom, ih]

/-- Blanks in front of a text do not show in its flow. -/
theorem flow_trimStart : ∀ t : Text, flow true (trimStart t) = flow false t
  | [] => rfl
  | c :: t => by
    by_cases hc : isBlank c = true
    · rw [flow, if_pos hc, trimStart, List.dropWhile_cons_of_pos hc]
      exact flow_trimStart t
    · rw [trimStart, List.dropWhile_cons_of_neg hc, flow, flow, if_neg hc, if_neg hc]

/-- Collapsing a tidied text leaves its words with one space between neighbours. -/
theorem collapse_tidy (t : Text) :
    collapse (tidy t) = flow false (unbroken t) := by
  rw [collapse, tidy, trim, collapseFrom_trimEnd]
  exact flow_trimStart _

/-! ## Joins

  First as a test that runs through the text, then as what the test stands for. -/

/-- Whether the first character of the text that breaks no line is one of a word. -/
def startsWord : Text → Bool
  | [] => false
  | c :: t => if isLineBreak c then startsWord t else !isBlank c

/-- Whether the text, read with literal `q` open behind a character of a word or not, has a join: a line
feed outside of literals with a word right before and right behind it, line breaks apart. -/
def joinFrom (inWord : Bool) (q : Quote) : Text → Bool
  | [] => false
  | c :: t =>
    (c == '\n' && q == none && inWord && startsWord t) ||
      joinFrom (if isLineBreak c then inWord else !isBlank c) (q.next c) t

/-- Whether no line feed outside of literals stands between two words, line breaks apart. -/
def JoinFree (t : Text) : Prop := joinFrom false none t = false

instance : Decidable (JoinFree t) := inferInstanceAs (Decidable (_ = _))

/-- Blanks between words are one gap; in front of all words they are none. -/
theorem flow_blank (hc : isBlank c = true) :
    flow inWord (c :: t) = if inWord then leadIn (flow false t) else flow false t := by
  rw [flow, if_pos hc]

theorem flow_letter (hc : isBlank c = false) : flow inWord (c :: t) = c :: flow true t := by
  rw [flow, if_neg (by simp [hc])]

/-- No word begins in front of a gap. -/
theorem not_prefix_leadIn (hc : isBlank c = false) (s t : Text) : ¬ c :: s <+: leadIn t := by
  rw [leadIn]
  split
  · exact fun h => absurd (List.prefix_nil.mp h) (List.cons_ne_nil c s)
  · intro h
    obtain rfl := (List.cons_prefix_cons.mp h).1
    exact absurd hc (by decide)

/-- Outside of literals the spaced text has a space for a line feed, which tidying drops from the text. -/
theorem unbroken_spacedFrom_feed (t : Text) :
    unbroken (spacedFrom none ('\n' :: t)) = ' ' :: unbroken (spacedFrom none t) := by
  rw [spacedFrom, if_pos ⟨rfl, rfl⟩]
  exact unbroken_cons (by decide) _

/-- The texts flow alike unless there is a join; and behind a word that the spaced text has ended, unless
another word begins. -/
theorem flow_unbroken_iff : ∀ {t : Text} {q : Quote}, q.Proper →
    (flow true (unbroken t) = flow true (unbroken (spacedFrom q t)) ↔ joinFrom true q t = false) ∧
    (flow false (unbroken t) = flow false (unbroken (spacedFrom q t)) ↔ joinFrom false q t = false) ∧
    (flow true (unbroken t) = leadIn (flow false (unbroken (spacedFrom q t))) ↔
      startsWord t = false ∧ joinFrom true q t = false)
  | [], q, _ => by simp [spacedFrom, unbroken, flow, leadIn, joinFrom, startsWord]
  | c :: t, q, hq => by
    obtain ⟨ihword, ihgap, ihjoin⟩ := flow_unbroken_iff (t := t) (hq.next c)
    rw [joinFrom, joinFrom, startsWord]
    by_cases hfeed : q = none ∧ c = '\n'
    -- a line feed outside of literals: a space in the spaced text, nothing in the other
    · obtain ⟨rfl, rfl⟩ := hfeed
      have hblank : isBlank ' ' = true := by decide
      have hbreak : isLineBreak '\n' = true := by decide
      have hnext : Quote.next none '\n' = none := rfl
      rw [hnext] at ihword ihgap ihjoin
      rw [unbroken_spacedFrom_feed, hnext, unbroken_cons_break hbreak, flow_blank hblank,
        flow_blank hblank]
      refine ⟨?_, ?_, ?_⟩
      · simpa [hbreak] using ihjoin
      · simpa [hbreak] using ihgap
      · simpa [hbreak] using ihjoin
    rw [spacedFrom, if_neg hfeed]
    have hfeed' : (c == '\n' && q == none) = false := Bool.eq_false_iff.mpr fun h => by
      rw [Bool.and_eq_true, beq_iff_eq, beq_iff_eq] at h
      exact hfeed ⟨h.2, h.1⟩
    simp only [hfeed', Bool.false_and, Bool.false_or]
    cases hbreak : isLineBreak c with
    | true =>
      -- any other line break is dropped from both
      have hq' := Quote.next_eq_self hq (not_isQuote_of_isBlank (isBlank_of_isLineBreak hbreak))
      rw [hq'] at ihword ihgap ihjoin ⊢
      simp only [unbroken_cons_break hbreak, if_true]
      exact ⟨ihword, ihgap, ihjoin⟩
    | false =>
      simp only [unbroken_cons hbreak, Bool.false_eq_true, if_false]
      cases hblank : isBlank c with
      | true =>
        simp only [flow_blank hblank, if_true, Bool.false_eq_true, if_false, Bool.not_true, true_and]
        have hlead : leadIn (flow false (unbroken t)) =
            leadIn (flow false (unbroken (spacedFrom (q.next c) t))) ↔
            joinFrom false (q.next c) t = false :=
          ⟨fun h => ihgap.mp (leadIn_injective h), fun h => congrArg leadIn (ihgap.mpr h)⟩
        exact ⟨hlead, ihgap, hlead⟩
      | false =>
        simp only [flow_letter hblank, List.cons.injEq, true_and, Bool.not_false, Bool.true_eq_false,
          false_and, iff_false]
        exact ⟨ihword, ihword, fun h => not_prefix_leadIn hblank _ _ (h.subst List.prefix_rfl)⟩

/-- Tidying keeps the words of the text and of the spaced text alike exactly if there is no join. -/
theorem collapse_tidy_spaced_iff (t : Text) :
    collapse (tidy t) = collapse (tidy (spaced t)) ↔ JoinFree t := by
  rw [collapse_tidy, collapse_tidy]
  exact (flow_unbroken_iff Quote.proper_none).2.1

/-- Whether the last character of the text that breaks no line is one of a word. -/
def endsWord (inWord : Bool) : Text → Bool
  | [] => inWord
  | c :: t => endsWord (if isLineBreak c then inWord else !isBlank c) t

/-- A join is a line feed outside of literals between two words. -/
theorem joinFrom_iff : ∀ {t : Text} {inWord : Bool} {q : Quote}, joinFrom inWord q t = true ↔
    ∃ u v, t = u ++ '\n' :: v ∧ q.after u = none ∧ endsWord inWord u = true ∧ startsWord v = true
  | [], _, _ => by simp [joinFrom]
  | c :: t, inWord, q => by
    rw [joinFrom, Bool.or_eq_true, joinFrom_iff]
    -- the join is at the first character, or at one behind it
    constructor
    · rintro (h | ⟨u, v, rfl, hq, hu, hv⟩)
      · simp only [Bool.and_eq_true, beq_iff_eq] at h
        exact ⟨[], t, by rw [h.1.1.1]; rfl, h.1.1.2, h.1.2, h.2⟩
      · exact ⟨c :: u, v, rfl, hq, hu, hv⟩
    · rintro ⟨u, v, he, hq, hu, hv⟩
      cases u with
      | nil =>
        obtain ⟨rfl, rfl⟩ : c = '\n' ∧ t = v := by simpa using he
        refine .inl ?_
        simp only [Bool.and_eq_true, beq_iff_eq]
        exact ⟨⟨⟨trivial, hq⟩, hu⟩, hv⟩
      | cons b u =>
        obtain ⟨rfl, rfl⟩ : c = b ∧ t = u ++ '\n' :: v := by simpa using he
        exact .inr ⟨u, v, rfl, hq, hu, hv⟩

/-- A text is free of joins if no line feed outside of literals has words on both sides. -/
theorem joinFree_iff : JoinFree t ↔
    ∀ u v, t = u ++ '\n' :: v → Balanced u → ¬ (endsWord false u = true ∧ startsWord v = true) := by
  rw [JoinFree, ← Bool.not_eq_true, joinFrom_iff]
  constructor
  · rintro h u v he hu ⟨hend, hstart⟩
    exact h ⟨u, v, he, hu, hend, hstart⟩
  · rintro h ⟨u, v, he, hu, hend, hstart⟩
    exact h u v he hu ⟨hend, hstart⟩

/-- A word that stands at the front of the spaced text stands at the front of the text. -/
theorem prefix_flow_of_spaced : ∀ {t mark : Text} {inWord : Bool} {q : Quote}, q.Proper →
    (∀ c ∈ mark, isBlank c = false) → mark <+: flow inWord (unbroken (spacedFrom q t)) →
      mark <+: flow inWord (unbroken t)
  | _, [], _, _, _, _, _ => List.nil_prefix
  | [], _ :: _, _, _, _, _, h => h
  | c :: t, m :: mark, inWord, q, hq, hm, h => by
    obtain ⟨hletter, hmark⟩ := List.forall_mem_cons.mp hm
    -- The only difference is a line break outside literals, now a blank. The mark has no blank, so
    -- it cannot run across it.
    by_cases hfeed : q = none ∧ c = '\n'
    · obtain ⟨rfl, rfl⟩ := hfeed
      rw [unbroken_spacedFrom_feed, flow_blank (by decide)] at h
      rw [unbroken_cons_break (by decide)]
      cases inWord with
      | true => exact absurd h (not_prefix_leadIn hletter mark _)
      | false => exact prefix_flow_of_spaced hq hm h
    rw [spacedFrom, if_neg hfeed] at h
    cases hbreak : isLineBreak c with
    | true =>
      rw [unbroken_cons_break hbreak] at h ⊢
      exact prefix_flow_of_spaced (hq.next c) hm h
    | false =>
      rw [unbroken_cons hbreak] at h ⊢
      cases hblank : isBlank c with
      | true =>
        rw [flow_blank hblank] at h ⊢
        cases inWord with
        | true => exact absurd h (not_prefix_leadIn hletter mark _)
        | false => exact prefix_flow_of_spaced (hq.next c) hm h
      | false =>
        rw [flow_letter hblank] at h ⊢
        obtain ⟨rfl, h⟩ := List.cons_prefix_cons.mp h
        exact List.cons_prefix_cons.mpr ⟨rfl, prefix_flow_of_spaced (hq.next m) hmark h⟩

/-- A word at the front of what tidying leaves of the spaced text is one of the text itself. -/
theorem prefix_tidy_of_spaced (hm : ∀ c ∈ mark, isBlank c = false) (h : mark <+: tidy (spaced t)) :
    mark <+: tidy t := by
  rw [← prefix_collapse_iff hm, collapse_tidy] at h ⊢
  exact prefix_flow_of_spaced Quote.proper_none hm h

/-! ## Items -/

/-- Blank texts are tidied to nothing. -/
theorem tidy_eq_nil_iff : tidy t = [] ↔ t.Blank := by
  refine ⟨fun h c hc => ?_, Blank.tidy_eq_nil⟩
  cases hbreak : isLineBreak c with
  | true => exact isBlank_of_isLineBreak hbreak
  | false =>
    obtain ⟨a, b, he, ha, hb⟩ := trim_spec (unbroken t)
    have hmem : c ∈ unbroken t := List.mem_filter.mpr ⟨hc, by simp [hbreak]⟩
    have htrim : trim (unbroken t) = [] := h
    rw [he, htrim, List.append_nil] at hmem
    exact (ha.append hb) c hmem

theorem blank_spacedFrom_iff : ∀ {t : Text} {q : Quote}, (spacedFrom q t).Blank ↔ t.Blank
  | [], _ => Iff.rfl
  | c :: t, q => by
    have ih : (spacedFrom (q.next c) t).Blank ↔ Blank t := blank_spacedFrom_iff
    have hc : isBlank (if q = none ∧ c = '\n' then ' ' else c) = isBlank c := by
      split
      · rename_i hfeed
        rw [hfeed.2]
        decide
      · rfl
    rw [spacedFrom, Blank, List.forall_mem_cons, hc, Blank, List.forall_mem_cons]
    exact and_congr_right fun _ => ih

/-- The pieces of the spaced text are the spaced pieces. -/
theorem piecesFrom_spacedFrom (hd : isBlank d = false) : ∀ {t : Text} {q : Quote},
    piecesFrom d q (spacedFrom q t) = match piecesFrom d q t with
      | [] => []
      | p :: ps => spacedFrom q p :: ps.map spaced
  | [], _ => rfl
  | c :: t, q => by
    have ih (q : Quote) := piecesFrom_spacedFrom hd (t := t) (q := q)
    -- The blank put in for a line break is no delimiter, and it does not toggle the quote either.
    by_cases hfeed : q = none ∧ c = '\n'
    · obtain ⟨rfl, rfl⟩ := hfeed
      have hnext : Quote.next none ' ' = none := rfl
      have hnext' : Quote.next none '\n' = none := rfl
      rw [spacedFrom, if_pos ⟨rfl, rfl⟩, piecesFrom, piecesFrom,
        if_neg (not_cut_of_isBlank hd (by decide)), if_neg (not_cut_of_isBlank hd (by decide)), hnext,
        hnext', ih]
      cases piecesFrom d none t with
      | nil => rfl
      | cons p ps => rfl
    · rw [spacedFrom, if_neg hfeed, piecesFrom, piecesFrom]
      split
      · rename_i hcut
        obtain ⟨rfl, hq, -⟩ := hcut
        rw [Quote.next_none (Bool.eq_false_iff.mpr hq), ih]
        cases piecesFrom d none t <;> rfl
      · rw [ih]
        cases piecesFrom d (q.next c) t with
        | nil => simp [spacedFrom, hfeed]
        | cons p ps => simp [spacedFrom, hfeed]

/-- The pieces of a spaced text are the pieces, spaced. -/
theorem pieces_spaced (hd : isBlank d = false) (t : Text) :
    pieces d (spaced t) = (pieces d t).map spaced := by
  rw [pieces, spaced, piecesFrom_spacedFrom hd, pieces]
  cases piecesFrom d none t <;> rfl

/-- Cutting keeps a text and the spaced text alike exactly if no piece has a join. -/
theorem items_spaced_iff (hd : isBlank d = false) (t : Text) :
    (items d t).map collapse = (items d (spaced t)).map collapse ↔ ∀ p ∈ pieces d t, JoinFree p := by
  rw [items, items, pieces_spaced hd]
  induction pieces d t with
  | nil => simp
  | cons p ps ih =>
    have hempty : (tidy (spaced p)).isEmpty = (tidy p).isEmpty := by
      rw [Bool.eq_iff_iff, List.isEmpty_iff, List.isEmpty_iff, tidy_eq_nil_iff, tidy_eq_nil_iff]
      exact blank_spacedFrom_iff
    rw [List.forall_mem_cons, ← ih, ← collapse_tidy_spaced_iff p]
    simp only [List.map_cons, List.filter_cons, hempty]
    cases hp : (tidy p).isEmpty with
    | true =>
      rw [hp] at hempty
      rw [List.isEmpty_iff] at hp hempty
      simp [hp, hempty]
    | false => simp

end StyleFold.Text
