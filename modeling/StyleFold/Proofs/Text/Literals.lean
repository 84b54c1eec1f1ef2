/-
  Literals — what a text shows outside of its string literals, and what tidying leaves of that.

  Everything that acts on characters of a text asks first whether they stand in a literal.  Here is what
  that means for texts put together, cut apart and tidied, with no reference to what the characters do.

  1. **Quote states** — only a quote character changes which literal is open (`Quote.next_eq_self`).
  2. **Showing** — a text *shows* a mark if the mark stands in it outside of literals, and *hides* it
     otherwise; a *balanced* text closes all its literals.
  3. **Thinning** — a text from which characters other than quotes are dropped.  The quote state at its
     end stays, and so does the hiding of a single character; a longer mark may come to be.
  4. **Tidying** — a tidied text is thinned; it has no line breaks, and no blank characters at its ends.
-/
import Mathlib.Data.List.TakeWhile
import StyleFold.Text.Quoted

namespace StyleFold

/-! ## Quote states

  The state is the quote that has opened a literal, or none. -/

namespace Quote

variable {q : Quote} {c : Char}

/-- Only a quote character opens a literal. -/
def Proper (q : Quote) : Prop := ∀ c, q = some c → isQuote c = true

theorem proper_none : Proper none := fun _ h => absurd h (by simp)

/-- A quote that opens is a quote character, and so it stays. -/
theorem Proper.next (h : q.Proper) (c : Char) : (q.next c).Proper := by
  intro d hd
  cases q with
  | none =>
    by_cases hc : isQuote c = true
    · obtain rfl : c = d := by simpa [Quote.next, hc] using hd
      exact hc
    · simp [Quote.next, hc] at hd
  | some opening =>
    by_cases hc : c = opening
    · simp [Quote.next, hc] at hd
    · obtain rfl : opening = d := by simpa [Quote.next, hc] using hd
      exact h opening rfl

theorem Proper.after : ∀ {t : Text} {q : Quote}, q.Proper → (q.after t).Proper
  | [], _, h => h
  | c :: t, q, h => Proper.after (t := t) (q := q.next c) (h.next c)

/-- What is no quote changes nothing. -/
theorem next_eq_self (h : q.Proper) (hc : isQuote c = false) : q.next c = q := by
  cases q with
  | none => simp [Quote.next, hc]
  | some opening =>
    have hne : c ≠ opening := by
      rintro rfl
      rw [h c rfl] at hc
      exact absurd hc (by decide)
    simp [Quote.next, hne]

theorem next_none (hc : isQuote c = false) : Quote.next none c = none :=
  next_eq_self proper_none hc

/-- Without quotes no literal opens. -/
theorem after_none : ∀ {t : Text}, (∀ c ∈ t, isQuote c = false) → Quote.after none t = none
  | [], _ => rfl
  | c :: t, h => by
    rw [after_cons, next_none (h c List.mem_cons_self)]
    exact after_none fun d hd => h d (List.mem_cons_of_mem c hd)

end Quote

namespace Text

variable {mark s t u v w : Text} {c d : Char} {q : Quote}

/-! ## Showing

  By a state that runs along, and by places in the text; the second is what most proofs want. -/

/-- Whether all literals of the text are closed. -/
def Balanced (t : Text) : Prop := Quote.after none t = none

instance : Decidable (Balanced t) := inferInstanceAs (Decidable (_ = _))

/-- Whether `mark` stands somewhere in the text outside of literals, `q` being open at its start. -/
def showsFrom (mark : Text) (q : Quote) : Text → Bool
  | [] => false
  | c :: t => (q == none && mark.isPrefixOf (c :: t)) || showsFrom mark (q.next c) t

/-- Whether `mark` stands nowhere in the text outside of literals. -/
def Hides (mark t : Text) : Prop := showsFrom mark none t = false

instance : Decidable (Hides mark t) := inferInstanceAs (Decidable (_ = _))

theorem balanced_nil : Balanced [] := rfl

theorem Balanced.append (hs : s.Balanced) (ht : t.Balanced) : (s ++ t).Balanced := by
  rw [Balanced, Quote.after_append, hs, ht]

/-- What follows a balanced part of a balanced text is balanced. -/
theorem Balanced.of_append (h : (s ++ t).Balanced) (hs : s.Balanced) : t.Balanced := by
  rw [Balanced, Quote.after_append, hs] at h
  exact h

theorem balanced_of_no_quotes (h : ∀ c ∈ t, isQuote c = false) : t.Balanced := Quote.after_none h

/-- A mark that is shown stands behind some text that ends outside of literals. -/
theorem showsFrom_iff (hmark : mark ≠ []) : ∀ {t : Text} {q : Quote},
    showsFrom mark q t = true ↔ ∃ v w, t = v ++ w ∧ q.after v = none ∧ mark <+: w
  | [], q => by
    constructor
    · intro h
      exact absurd h (by simp [showsFrom])
    · rintro ⟨v, w, he, -, hw⟩
      obtain ⟨-, rfl⟩ := List.append_eq_nil_iff.mp he.symm
      exact absurd (List.prefix_nil.mp hw) hmark
  | c :: t, q => by
    rw [showsFrom, Bool.or_eq_true, Bool.and_eq_true, beq_iff_eq, List.isPrefixOf_iff_prefix,
      showsFrom_iff hmark]
    -- the mark stands at the front, or somewhere behind the first character
    constructor
    · rintro (⟨hq, hp⟩ | ⟨v, w, rfl, hv, hw⟩)
      · exact ⟨[], c :: t, rfl, hq, hp⟩
      · exact ⟨c :: v, w, rfl, hv, hw⟩
    · rintro ⟨v, w, he, hv, hw⟩
      cases v with
      | nil =>
        obtain rfl : c :: t = w := he
        exact .inl ⟨hv, hw⟩
      | cons b v =>
        obtain ⟨rfl, rfl⟩ : c = b ∧ t = v ++ w := by simpa using he
        exact .inr ⟨v, w, rfl, hv, hw⟩

/-- A mark is hidden if it is not ahead at any place that no literal is open at. -/
theorem hides_iff (hmark : mark ≠ []) :
    Hides mark t ↔ ∀ v w, t = v ++ w → Balanced v → ¬ mark <+: w := by
  rw [Hides, ← Bool.not_eq_true, showsFrom_iff hmark]
  constructor
  · rintro h v w he hv hw
    exact h ⟨v, w, he, hv, hw⟩
  · rintro h ⟨v, w, he, hv, hw⟩
    exact h v w he hv hw

/-- What stands in a text outside of literals shows no more than the text. -/
theorem Hides.mid (hmark : mark ≠ []) (h : Hides mark (u ++ t ++ v)) (hu : u.Balanced) :
    Hides mark t := by
  rw [hides_iff hmark] at h ⊢
  rintro a b rfl ha hb
  refine h (u ++ a) (b ++ v) (by simp) (hu.append ha) ?_
  exact hb.trans (List.prefix_append b v)

/-- A single character that is hidden nowhere occurs outside of literals. -/
theorem Hides.append_single (hs : Hides [d] s) (ht : Hides [d] t) (hb : s.Balanced) :
    Hides [d] (s ++ t) := by
  rw [hides_iff (List.cons_ne_nil d [])] at hs ht ⊢
  rintro a b he ha hb'
  obtain ⟨r, rfl⟩ := hb'
  rcases List.append_eq_append_iff.mp he with ⟨x, rfl, hx⟩ | ⟨x, rfl, hx⟩
  · exact ht x ([d] ++ r) hx (ha.of_append hb) (List.prefix_append [d] r)
  · cases x with
    | nil => exact ht [] ([d] ++ r) (by simpa using hx.symm) rfl (List.prefix_append [d] r)
    | cons e x =>
      obtain ⟨rfl, rfl⟩ : d = e ∧ r = x ++ t := by simpa using hx
      exact hs a (d :: x) rfl ha (List.prefix_append [d] x)

theorem hides_nil (mark : Text) : Hides mark [] := rfl

theorem hides_of_notMem (h : d ∉ t) : Hides [d] t := by
  rw [hides_iff (List.cons_ne_nil d [])]
  rintro v w rfl - ⟨r, rfl⟩
  exact h (by simp)

/-! ## Thinning

  Dropping a character between two others brings these together; a quote that stands by itself does not
  care. -/

/-- `Thinned s t` — `s` is `t` without some characters that are no quotes. -/
inductive Thinned : Text → Text → Prop
  | nil : Thinned [] []
  | keep (c : Char) {s t : Text} : Thinned s t → Thinned (c :: s) (c :: t)
  | drop (c : Char) {s t : Text} : isQuote c = false → Thinned s t → Thinned s (c :: t)

namespace Thinned

theorem refl : ∀ t : Text, Thinned t t
  | [] => nil
  | c :: t => (refl t).keep c

/-- A text thinned twice is thinned. -/
theorem trans (hst : Thinned s t) (htu : Thinned t u) : Thinned s u := by
  induction htu generalizing s with
  | nil => exact hst
  | keep c _ ih =>
    cases hst with
    | keep _ hst => exact (ih hst).keep c
    | drop _ hc hst => exact (ih hst).drop c hc
  | drop c hc _ ih => exact (ih hst).drop c hc

/-- Texts are thinned part by part. -/
theorem append (hst : Thinned s t) (huv : Thinned u v) : Thinned (s ++ u) (t ++ v) := by
  induction hst with
  | nil => exact huv
  | keep c _ ih => exact ih.keep c
  | drop c hc _ ih => exact ih.drop c hc

theorem of_no_quotes : ∀ {t : Text}, (∀ c ∈ t, isQuote c = false) → Thinned [] t
  | [], _ => nil
  | c :: _, h => (of_no_quotes fun d hd => h d (List.mem_cons_of_mem c hd)).drop c
      (h c List.mem_cons_self)

/-- Dropping characters that are no quotes thins a text. -/
theorem filter {p : Char → Bool} (hp : ∀ c, p c = false → isQuote c = false) :
    ∀ t : Text, Thinned (t.filter p) t
  | [] => nil
  | c :: t => by
    cases hc : p c with
    | true => rw [List.filter_cons_of_pos hc]; exact (filter hp t).keep c
    | false =>
      rw [List.filter_cons_of_neg (by simp [hc])]
      exact (filter hp t).drop c (hp c hc)

/-- A thinned text leaves the same quote open. -/
theorem after (h : Thinned s t) : ∀ {q : Quote}, q.Proper → q.after s = q.after t := by
  induction h with
  | nil => exact fun _ => rfl
  | keep c _ ih => exact fun hq => ih (hq.next c)
  | drop c hc _ ih =>
    intro q hq
    rw [Quote.after_cons, Quote.next_eq_self hq hc]
    exact ih hq

/-- Thinning keeps literals closed. -/
theorem balanced_iff (h : Thinned s t) : s.Balanced ↔ t.Balanced := by
  rw [Balanced, Balanced, h.after Quote.proper_none]

/-- A delimiter that shows in a thinned text shows in the text. -/
theorem showsFrom_single (h : Thinned s t) : ∀ {q : Quote}, q.Proper →
    showsFrom [d] q s = true → showsFrom [d] q t = true := by
  induction h with
  | nil => exact fun _ h => h
  | keep c _ ih =>
    intro q hq hs
    rw [showsFrom, Bool.or_eq_true] at hs ⊢
    rcases hs with hs | hs
    · left
      simpa using hs
    · exact .inr (ih (hq.next c) hs)
  | drop c hc _ ih =>
    intro q hq hs
    rw [showsFrom, Quote.next_eq_self hq hc, ih hq hs, Bool.or_true]

/-- Thinning shows no character that was hidden. -/
theorem hides (h : Thinned s t) (ht : Hides [d] t) : Hides [d] s := by
  rw [Hides, Bool.eq_false_iff] at ht ⊢
  exact fun hs => ht (h.showsFrom_single Quote.proper_none hs)

end Thinned

/-! ## Tidying -/

theorem isBlank_of_isLineBreak (h : isLineBreak c = true) : isBlank c = true := by
  simp only [isLineBreak, Bool.or_eq_true, beq_iff_eq] at h
  rcases h with rfl | rfl <;> decide

theorem not_isQuote_of_isBlank (h : isBlank c = true) : isQuote c = false := by
  refine Bool.eq_false_iff.mpr fun hq => ?_
  simp only [isQuote, Bool.or_eq_true, beq_iff_eq] at hq
  rcases hq with rfl | rfl <;> exact absurd h (by decide)

/-- Whether all characters are blank. -/
def Blank (t : Text) : Prop := ∀ c ∈ t, isBlank c = true

theorem blank_nil : Blank [] := fun _ h => absurd h List.not_mem_nil

theorem Blank.append (hs : s.Blank) (ht : t.Blank) : (s ++ t).Blank := fun c hc =>
  (List.mem_append.mp hc).elim (hs c) (ht c)

theorem Blank.no_quotes (h : t.Blank) : ∀ c ∈ t, isQuote c = false := fun c hc =>
  not_isQuote_of_isBlank (h c hc)

theorem blank_takeWhile (t : Text) : Blank (t.takeWhile isBlank) := fun _ hc =>
  List.mem_takeWhile_imp hc

/-- Trimming takes blank characters off both ends. -/
theorem trim_spec (t : Text) : ∃ a b, t = a ++ trim t ++ b ∧ a.Blank ∧ b.Blank := by
  refine ⟨t.takeWhile isBlank, ((trimStart t).reverse.takeWhile isBlank).reverse, ?_,
    blank_takeWhile t, fun c hc => ?_⟩
  · rw [trim, trimEnd, List.append_assoc, ← List.reverse_append, List.takeWhile_append_dropWhile,
      List.reverse_reverse, trimStart, List.takeWhile_append_dropWhile]
  · exact blank_takeWhile _ c (List.mem_reverse.mp hc)

/-- Trimming thins a text, for quotes are not blank. -/
theorem thinned_trim (t : Text) : Thinned (trim t) t := by
  obtain ⟨a, b, ht, ha, hb⟩ := trim_spec t
  have h := ((Thinned.of_no_quotes ha.no_quotes).append (Thinned.refl (trim t))).append
    (Thinned.of_no_quotes hb.no_quotes)
  rwa [List.nil_append, List.append_nil, ← ht] at h

/-- Tidying drops no quotes. -/
theorem thinned_tidy (t : Text) : Thinned (tidy t) t :=
  (thinned_trim _).trans <| Thinned.filter
    (fun c hc => not_isQuote_of_isBlank (isBlank_of_isLineBreak (by simpa using hc))) t

/-- The text without its line breaks. -/
def unbroken (t : Text) : Text := t.filter fun c => !isLineBreak c

theorem unbroken_append (s t : Text) : unbroken (s ++ t) = unbroken s ++ unbroken t :=
  List.filter_append s t

theorem unbroken_cons (h : isLineBreak c = false) (t : Text) :
    unbroken (c :: t) = c :: unbroken t := List.filter_cons_of_pos (by rw [h]; rfl)

theorem unbroken_cons_break (h : isLineBreak c = true) (t : Text) : unbroken (c :: t) = unbroken t :=
  List.filter_cons_of_neg (by rw [h]; decide)

theorem unbroken_eq_self (h : ∀ c ∈ t, isLineBreak c = false) : unbroken t = t :=
  List.filter_eq_self.mpr fun c hc => by rw [h c hc]; rfl

/-- What a tidied text is like: no line breaks, and neither end is blank. -/
structure Tidied (t : Text) : Prop where
  no_breaks : ∀ c ∈ t, isLineBreak c = false
  head : ∀ c, t.head? = some c → isBlank c = false
  last : ∀ c, t.getLast? = some c → isBlank c = false

theorem tidied_nil : Tidied [] :=
  ⟨fun _ h => absurd h List.not_mem_nil, fun _ h => absurd h (by simp), fun _ h => absurd h (by simp)⟩

theorem dropWhile_eq_self {p : Char → Bool} (h : ∀ c, t.head? = some c → p c = false) :
    t.dropWhile p = t := by
  cases t with
  | nil => rfl
  | cons c t => exact List.dropWhile_cons_of_neg (by simp [h c rfl])

theorem head?_trimStart (h : (trimStart t).head? = some c) : isBlank c = false := by
  have := List.head?_dropWhile_not isBlank t
  rw [trimStart] at h
  rwa [h] at this

/-- Tidying leaves a tidied text. -/
theorem tidied_tidy (t : Text) : Tidied (tidy t) where
  no_breaks := by
    intro c hc
    obtain ⟨a, b, ht, -, -⟩ := trim_spec (t.filter fun c => !isLineBreak c)
    have hmem : c ∈ t.filter fun c => !isLineBreak c := by
      rw [ht]
      exact List.mem_append_left b (List.mem_append_right a hc)
    simpa using (List.mem_filter.mp hmem).2
  head := by
    intro c hc
    -- a text begins as what is left of it when its end is dropped
    have hprefix : tidy t <+: trimStart (t.filter fun c => !isLineBreak c) := by
      rw [tidy, trim, trimEnd, ← List.reverse_suffix, List.reverse_reverse]
      exact List.dropWhile_suffix isBlank
    obtain ⟨r, hr⟩ := hprefix
    refine head?_trimStart (t := t.filter fun c => !isLineBreak c) ?_
    rw [← hr, List.head?_append, hc]
    rfl
  last := by
    intro c hc
    rw [tidy, trim, trimEnd, List.getLast?_reverse] at hc
    exact head?_trimStart hc

/-- Blank characters around a tidied text are all that tidying drops. -/
theorem Tidied.tidy_append {a b : Text} (ht : Tidied t) (ha : a.Blank) (hb : b.Blank) :
    tidy (a ++ t ++ b) = t := by
  have hself : (t.filter fun c => !isLineBreak c) = t :=
    List.filter_eq_self.mpr fun c hc => by simp [ht.no_breaks c hc]
  have hblank : ∀ {u : Text}, u.Blank → Blank (u.filter fun c => !isLineBreak c) := fun hu c hc =>
    hu c (List.mem_filter.mp hc).1
  -- Tidying only takes away what is blank on both sides, for the middle begins and ends with
  -- something else.
  rw [tidy, List.filter_append, List.filter_append, hself, trim, trimStart, List.append_assoc,
    List.dropWhile_append_of_pos (hblank ha)]
  cases t with
  | nil =>
    rw [List.nil_append, List.dropWhile_eq_nil_iff.mpr (hblank hb)]
    rfl
  | cons c t =>
    rw [dropWhile_eq_self (by simpa using ht.head), trimEnd, List.reverse_append,
      List.dropWhile_append_of_pos fun d hd => hblank hb d (List.mem_reverse.mp hd),
      dropWhile_eq_self, List.reverse_reverse]
    intro d hd
    rw [List.head?_reverse] at hd
    exact ht.last d hd

/-- A tidied text stays as it is. -/
theorem Tidied.tidy_eq (h : t.Tidied) : t.tidy = t := by
  have hself := h.tidy_append blank_nil blank_nil
  rwa [List.append_nil, List.nil_append] at hself

end Text

end StyleFold
