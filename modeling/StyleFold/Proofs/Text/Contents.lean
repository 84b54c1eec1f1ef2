/-
  Contents — what a list or a header makes of a string literal, whatever stands in it.

  What is asked for is that the content of a literal has no influence on anything but itself.  A frame
  says that in a form in which it can be kept: by tidying, by cutting, and by putting lists of texts
  together.

  1. **Frames** — texts with a gap in at most one of them.  They tell what is left of a text that is read
     with a literal in it: everything but the literal is fixed, and the literal stands in one place or in
     none.
  2. **Tidying** — a literal is not trimmed, and the text around it is trimmed by itself.
  3. **Items** — a list is not cut in a literal, so its items are a frame around the literal.
  4. **Fronts** — a mark without quotes stands at the front of a text if it stands there before the first
     literal.
-/
import StyleFold.Proofs.Text.Items

namespace StyleFold

/-! ## Frames -/

/-- Texts with a gap in at most one of them. -/
inductive Frame
  /-- Texts without a gap. -/
  | closed (texts : List Text)
  /-- Texts of which one has a gap between `left` and `right`. -/
  | gap (before : List Text) (left right : Text) (after : List Text)

namespace Frame

/-- The texts with the gap filled. -/
def fill : Frame → Text → List Text
  | closed texts, _ => texts
  | gap before left right after, t => before ++ (left ++ t ++ right) :: after

/-- The frame with further texts around it. -/
def within (before after : List Text) : Frame → Frame
  | closed texts => closed (before ++ texts ++ after)
  | gap before' left right after' => gap (before ++ before') left right (after' ++ after)

/-- A frame within further texts is filled as before, and the texts stay around it. -/
@[simp] theorem fill_within (before after : List Text) (f : Frame) (t : Text) :
    (f.within before after).fill t = before ++ f.fill t ++ after := by
  cases f with
  | closed texts => rfl
  | gap before' left right after' => simp [within, fill]

/-- How many texts there are does not depend on the filling. -/
theorem length_fill (f : Frame) (s t : Text) : (f.fill s).length = (f.fill t).length := by
  cases f with
  | closed texts => rfl
  | gap before left right after => simp [fill]

end Frame

namespace Text

variable {c d q : Char} {a s t u v content mark : Text}

/-- The string literal with quotes `q` and some content. -/
def literal (q : Char) (content : Text) : Text := q :: (content ++ [q])

/-! ## Tidying

  The quotes stop the trimming, and line breaks in the literal are dropped like those outside. -/

theorem isBlank_of_isQuote (h : isQuote q = true) : isBlank q = false :=
  Bool.eq_false_iff.mpr fun hb => by
    rw [not_isQuote_of_isBlank hb] at h
    exact absurd h (by decide)

/-- Dropping in front stops at a character that is kept. -/
theorem dropWhile_append_cons {p : Char → Bool} (h : p c = false) (t : Text) : ∀ s : Text,
    (s ++ c :: t).dropWhile p = s.dropWhile p ++ c :: t
  | [] => List.dropWhile_cons_of_neg (by simp [h])
  | b :: s => by
    cases hb : p b with
    | true =>
      rw [List.cons_append, List.dropWhile_cons_of_pos hb, List.dropWhile_cons_of_pos hb,
        dropWhile_append_cons h t s]
    | false =>
      have hb : ¬ p b = true := by simp [hb]
      rw [List.cons_append, List.dropWhile_cons_of_neg hb, List.dropWhile_cons_of_neg hb]
      rfl

/-- The text before a literal and the text behind it are trimmed each at its own end. -/
theorem trim_literal (hq : isQuote q = true) (s content t : Text) :
    trim (s ++ literal q content ++ t) = trimStart s ++ literal q content ++ trimEnd t := by
  have hblank := isBlank_of_isQuote hq
  have hstart : trimStart (s ++ literal q content ++ t) = trimStart s ++ literal q content ++ t := by
    rw [trimStart, literal, List.append_assoc, List.cons_append, dropWhile_append_cons hblank]
    simp [trimStart]
  have hend : ∀ r, trimEnd (r ++ q :: t) = r ++ q :: trimEnd t := by
    intro r
    rw [trimEnd, List.reverse_append, List.reverse_cons, List.append_assoc, List.singleton_append,
      dropWhile_append_cons hblank]
    simp [trimEnd]
  have hcut : trimStart s ++ literal q content ++ t = (trimStart s ++ q :: content) ++ q :: t := by
    simp [literal]
  rw [trim, hstart, hcut, hend]
  simp [literal]

theorem isLineBreak_of_isQuote (h : isQuote q = true) : isLineBreak q = false :=
  Bool.eq_false_iff.mpr fun hb => by
    rw [not_isQuote_of_isBlank (isBlank_of_isLineBreak hb)] at h
    exact absurd h (by decide)

/-- Line breaks in a literal are dropped, and its quotes stay. -/
theorem unbroken_literal (hq : isQuote q = true) (u : Text) :
    unbroken (q :: (u ++ [q])) = q :: (unbroken u ++ [q]) := by
  rw [unbroken_cons (isLineBreak_of_isQuote hq), unbroken_append,
    unbroken_cons (isLineBreak_of_isQuote hq)]
  rfl

/-- A literal loses its line breaks when it is tidied, and nothing else. -/
theorem tidy_literal (hq : isQuote q = true) (s content t : Text) :
    tidy (s ++ literal q content ++ t) =
      trimStart (unbroken s) ++ literal q (unbroken content) ++ trimEnd (unbroken t) := by
  have hliteral : unbroken (literal q content) = literal q (unbroken content) := unbroken_literal hq content
  show trim (unbroken _) = _
  rw [unbroken_append, unbroken_append, hliteral, trim_literal hq]

/-! ## Items

  Cutting looks for a delimiter outside of literals, so it does not look into the literal. -/

/-- What stands before a place outside of literals gives some items and the beginning of the next. -/
theorem itemsFrom_append (d : Char) : ∀ (s a : Text) (q : Quote), ∃ before a', ∀ t,
    itemsFrom d a q (s ++ t) = before ++ itemsFrom d a' (q.after s) t
  | [], a, q => ⟨[], a, fun _ => rfl⟩
  | c :: s, a, q => by
    by_cases hcut : q = none ∧ ¬ isQuote c = true ∧ c = d
    · obtain ⟨before, a', h⟩ := itemsFrom_append d s [] none
      refine ⟨keep a ++ before, a', fun t => ?_⟩
      have hnext : q.next c = none := by
        rw [hcut.1]
        exact Quote.next_none (Bool.eq_false_iff.mpr hcut.2.1)
      rw [List.cons_append, itemsFrom, if_pos hcut, h, Quote.after_cons, hnext, List.append_assoc]
    · obtain ⟨before, a', h⟩ := itemsFrom_append d s (a ++ [c]) (q.next c)
      refine ⟨before, a', fun t => ?_⟩
      rw [List.cons_append, itemsFrom, if_neg hcut, h, Quote.after_cons]

/-- What stands behind the beginning of an item ends the item and gives some more. -/
theorem itemsFrom_rest (d : Char) : ∀ (t : Text) (q : Quote), ∃ rest after, ∀ a,
    itemsFrom d a q t = keep (a ++ rest) ++ after
  | [], q => ⟨[], [], fun a => by rw [itemsFrom, List.append_nil, List.append_nil]⟩
  | c :: t, q => by
    by_cases hcut : q = none ∧ ¬ isQuote c = true ∧ c = d
    · exact ⟨[], itemsFrom d [] none t, fun a => by rw [itemsFrom, if_pos hcut, List.append_nil]⟩
    · obtain ⟨rest, after, h⟩ := itemsFrom_rest d t (q.next c)
      refine ⟨c :: rest, after, fun a => ?_⟩
      rw [itemsFrom, if_neg hcut, h, List.append_assoc]
      rfl

/-- A list is not cut inside of a literal that is open. -/
theorem itemsFrom_open (d : Char) : ∀ {content a : Text}, q ∉ content → ∀ t,
    itemsFrom d a (some q) (content ++ q :: t) = itemsFrom d (a ++ (content ++ [q])) none t
  | [], a, _, t => by
    have hclose : Quote.next (some q) q = none := if_pos rfl
    rw [List.nil_append, itemsFrom, if_neg (by simp), hclose]
    rfl
  | c :: content, a, h, t => by
    have hne : c ≠ q := fun he => h (he ▸ List.mem_cons_self)
    have hnext : Quote.next (some q) c = some q := if_neg hne
    rw [List.cons_append, itemsFrom, if_neg (by simp), hnext,
      itemsFrom_open d (fun hmem => h (List.mem_cons_of_mem c hmem)), List.append_assoc]
    rfl

/-- A list is not cut in a literal. -/
theorem itemsFrom_literal (hq : isQuote q = true) (hcontent : q ∉ content) (a t : Text) :
    itemsFrom d a none (literal q content ++ t) = itemsFrom d (a ++ literal q content) none t := by
  have hopen : Quote.next none q = some q := if_pos hq
  have ht : literal q content ++ t = q :: (content ++ q :: t) := by simp [literal]
  rw [ht, itemsFrom, if_neg (by simp [hq]), hopen, itemsFrom_open d hcontent]
  simp [literal]

/-- The items of a list with a literal in it are the same whatever stands in the literal, but for the item
in which it stands. -/
theorem items_literal (d : Char) (hq : isQuote q = true) (hs : s.Balanced) (t : Text) :
    ∃ f : Frame, ∀ content, q ∉ content →
      items d (s ++ literal q content ++ t) = f.fill (literal q content.unbroken) := by
  obtain ⟨before, a, hfront⟩ := itemsFrom_append d s [] none
  obtain ⟨rest, after, hrest⟩ := itemsFrom_rest d t none
  refine ⟨.gap before (trimStart (unbroken a)) (trimEnd (unbroken rest)) after, fun content hcontent => ?_⟩
  have hkeep : keep (a ++ literal q content ++ rest) =
      [trimStart (unbroken a) ++ literal q (unbroken content) ++ trimEnd (unbroken rest)] := by
    rw [keep, tidy_literal hq, if_neg (by simp [literal])]
  rw [items_eq_itemsFrom, List.append_assoc, hfront, hs, itemsFrom_literal hq hcontent, hrest, hkeep]
  rfl

/-! ## Fronts -/

/-- A mark that does not have a character stands before it, or not at the front at all. -/
theorem prefix_append_cons_iff (hc : c ∉ mark) : mark <+: s ++ c :: t ↔ mark <+: s := by
  constructor
  · intro h
    rcases List.prefix_or_prefix_of_prefix h (List.prefix_append s (c :: t)) with hle | ⟨r, rfl⟩
    · exact hle
    · cases r with
      | nil => exact (List.append_nil s).symm ▸ List.prefix_rfl
      | cons b r =>
        obtain ⟨rfl, -⟩ := List.cons_prefix_cons.mp ((List.prefix_append_right_inj s).mp h)
        exact absurd (List.mem_append_right s List.mem_cons_self) hc
  · exact fun h => h.trans (List.prefix_append s (c :: t))

end Text

end StyleFold
