/-
  Seams — reading a printed sheet makes no words that show a mark.

  Tidying drops line breaks inside of a text, and what stood around them comes together.  In a printed
  sheet there is no such line break: each stands behind a brace.

  This is the half of the round trip that says what cannot happen.  If the words of a printed sheet
  showed a mark, reading the sheet would have acted on it; so the words of the tree that was read show
  none, and if this tree is the printed one, its words do not show any either.

  1. **Unbroken texts** — literals and marks in a text without its line breaks.
  2. **Firm line breaks** — where line breaks stand only behind braces, dropping them brings no mark
     about (`prefix_of_unbroken`).
  3. **Unmarked texts** — no mark begins in a text where another text follows.
  4. **Segments** — `Seamless` is kept by every lexeme, so the segments of a firm text show no mark.
  5. **Words** — nor do the words that are built of these segments (`Assembly.within_inert`).
  6. **Printed lines** are firm.
-/
import Mathlib.Data.List.Chain
import StyleFold.Proofs.Print.Settled
import StyleFold.Proofs.Text.Contents

namespace StyleFold

namespace Text

variable {mark s t u v : Text} {c d q : Char}

/-! ## Unbroken texts -/

/-- Without its line breaks a text has the same quotes in the same order. -/
theorem thinned_unbroken (t : Text) : Thinned (unbroken t) t :=
  Thinned.filter (fun _ hc => not_isQuote_of_isBlank (isBlank_of_isLineBreak (by simpa using hc))) t

/-- A balanced text stays so without its line breaks. -/
theorem Balanced.unbroken (h : t.Balanced) : (unbroken t).Balanced :=
  (thinned_unbroken t).balanced_iff.mpr h

/-- A text that shows no mark without its line breaks shows none when it is tidied. -/
theorem inert_tidy (h : Inert (unbroken t)) : Inert t.tidy := by
  obtain ⟨a, b, he, ha, -⟩ := trim_spec (unbroken t)
  rw [he] at h
  exact h.mid ha.balanced

/-! ## Firm line breaks

  A mark has neither braces nor line breaks, so it cannot come to stand across a line break that is
  dropped behind a brace. -/

/-- Whether the character may stand before a line break. -/
def Firm (c : Char) : Prop := c = '{' ∨ c = '}' ∨ isLineBreak c = true

instance (c : Char) : Decidable (Firm c) := inferInstanceAs (Decidable (_ ∨ _ ∨ _))

/-- Whether line breaks stand only at the front of the text, behind braces and behind line breaks. -/
def FirmBreaks (t : Text) : Prop := t.IsChain fun c d => isLineBreak d = true → Firm c

/-- No character of a mark may stand before a line break in a printed sheet. -/
theorem not_firm_of_mem_marks : ∀ mark ∈ marks, ∀ c ∈ mark, ¬ Firm c := by decide

/-- A text without line breaks that is there when line breaks are dropped was there before. -/
theorem prefix_of_unbroken : ∀ {s t : Text} {c : Char}, FirmBreaks (c :: t) → isLineBreak c = false →
    (∀ d ∈ c :: s, ¬ Firm d) → s <+: unbroken t → s <+: t
  | [], _, _, _, _, _, _ => List.nil_prefix
  | d :: s, [], _, _, _, _, h => absurd (List.prefix_nil.mp h) (List.cons_ne_nil d s)
  | d :: s, b :: t, c, ht, hc, hs, h => by
    obtain ⟨hcb, ht⟩ := List.isChain_cons_cons.mp ht
    have hb : isLineBreak b = false := Bool.eq_false_iff.mpr fun hb => hs c List.mem_cons_self (hcb hb)
    rw [unbroken_cons hb, List.cons_prefix_cons] at h
    obtain ⟨rfl, h⟩ := h
    rw [List.cons_prefix_cons]
    exact ⟨rfl, prefix_of_unbroken ht hb (fun e he => hs e (List.mem_cons_of_mem c he)) h⟩

/-- Dropping firm line breaks brings no mark to the front. -/
theorem not_markAhead_unbroken (ht : FirmBreaks (c :: t)) (hc : isLineBreak c = false)
    (h : ¬ Lookahead.MarkAhead (c :: t)) : ¬ Lookahead.MarkAhead (c :: unbroken t) := by
  rw [markAhead_iff] at h ⊢
  rintro ⟨mark, hmark, hp⟩
  refine h ⟨mark, hmark, ?_⟩
  cases hm : mark with
  | nil => exact List.nil_prefix
  | cons d s =>
    rw [hm, List.cons_prefix_cons] at hp
    obtain ⟨rfl, hp⟩ := hp
    rw [List.cons_prefix_cons]
    exact ⟨rfl, prefix_of_unbroken ht hc (hm ▸ not_firm_of_mem_marks mark hmark) hp⟩

/-! ## Unmarked texts -/

/-- No mark begins in `u`, outside of literals, where `t` follows. -/
def Unmarked (u t : Text) : Prop := ∀ mark ∈ marks, ∀ x y, u = x ++ y → Balanced x → y ≠ [] →
  ¬ mark <+: y ++ t

theorem unmarked_nil : Unmarked [] t := fun _ _ _ _ he _ hy =>
  absurd (List.append_eq_nil_iff.mp he.symm).2 hy

/-- No mark begins in two texts if none does in either, each with what follows it. -/
theorem Unmarked.append (hu : Unmarked u (v ++ t)) (hb : Balanced u) (hv : Unmarked v t) :
    Unmarked (u ++ v) t := by
  rintro mark hmark x y he hx hy
  rcases List.append_eq_append_iff.mp he with ⟨a, rfl, rfl⟩ | ⟨a, rfl, rfl⟩
  · exact hv mark hmark a y rfl (hx.of_append hb) hy
  · cases a with
    | nil => exact hv mark hmark [] v rfl balanced_nil hy
    | cons d a =>
      rw [List.append_assoc]
      exact hu mark hmark x (d :: a) rfl hx (List.cons_ne_nil d a)

/-- Where no mark begins, none is shown. -/
theorem Unmarked.inert (h : Unmarked u t) : Inert u := by
  intro mark hmark
  have hne := ne_nil_of_mem_marks mark hmark
  rw [hides_iff hne]
  rintro x y he hx hp
  refine h mark hmark x y he hx ?_ (hp.trans (List.prefix_append y t))
  rintro rfl
  exact hne (List.prefix_nil.mp hp)

/-- In filler, no mark begins. -/
theorem Filler.unmarked (h : u.Filler) : Unmarked u t := by
  rintro mark hmark x y rfl - hy hp
  obtain ⟨c, y, rfl⟩ := List.exists_cons_of_ne_nil hy
  exact (h c (List.mem_append_right x List.mem_cons_self)).1.begins_no_mark hmark hp

/-- In a single character no mark begins where none is ahead. -/
theorem unmarked_singleton (h : ¬ Lookahead.MarkAhead (c :: t)) : Unmarked [c] t := by
  rintro mark hmark x y he - hy hp
  cases x with
  | nil =>
    obtain rfl : [c] = y := he
    exact h (markAhead_iff.mpr ⟨mark, hmark, hp⟩)
  | cons d x => exact absurd (List.append_eq_nil_iff.mp (List.cons.inj he).2.symm).2 hy

/-- A literal has no mark at its front, and behind that the text is not outside of literals. -/
theorem unmarked_literal (hq : isQuote q = true) (hu : q ∉ u) : Unmarked (q :: (u ++ [q])) t := by
  have hquote : ∀ mark ∈ marks, ∀ d ∈ mark, isQuote d = false := by decide
  rintro mark hmark x y he hx hy hp
  -- A mark inside the literal would begin at the quote, which no mark has, or behind it, where the
  -- text in front is not balanced.
  cases x with
  | nil =>
    obtain rfl : q :: (u ++ [q]) = y := he
    cases hm : mark with
    | nil => exact ne_nil_of_mem_marks mark hmark hm
    | cons d m =>
      obtain rfl : d = q := (List.cons_prefix_cons.mp (hm ▸ hp)).1
      have := hquote mark hmark d (hm ▸ List.mem_cons_self)
      rw [hq] at this
      exact absurd this (by decide)
  | cons d x =>
    obtain ⟨rfl, hrest⟩ : q = d ∧ u ++ [q] = x ++ y := by simpa using he
    obtain ⟨w, rfl, -⟩ := eq_append_of_suffix_append hy ⟨x, hrest.symm⟩
    rw [← List.append_assoc] at hrest
    obtain rfl := List.append_cancel_right hrest
    have hopen : Quote.next none q = some q := by simp [Quote.next, hq]
    have hx' := after_some_of_notMem fun hmem => hu (List.mem_append_left w hmem)
    rw [Balanced, Quote.after_cons, hopen, hx'] at hx
    exact absurd hx (by simp)

end Text

open Text

namespace Lookahead

variable {t u v rest : Text} {c q : Char}

/-! ## Segments

  The invariant says of the pending text that nothing begins in it that the text ahead would complete. -/

/-- What is pending, line breaks dropped, shows no mark, not even one that the text behind it ends. -/
structure Seamless (u t : Text) : Prop where
  firm : FirmBreaks t
  balanced : Balanced (unbroken u)
  unmarked : Unmarked (unbroken u) (unbroken t)

/-- Where nothing is pending there is no seam. -/
theorem Seamless.fresh (h : Seamless u t) (hrest : rest <:+ t) : Seamless [] rest :=
  ⟨h.firm.suffix hrest, balanced_nil, unmarked_nil⟩

/-- A literal keeps a text seamless. -/
theorem Seamless.literal (hq : isQuote q = true) (hv : q ∉ v)
    (h : Seamless u (q :: (v ++ [q]) ++ rest)) : Seamless (u ++ q :: (v ++ [q])) rest := by
  have hv' : q ∉ unbroken v := fun hmem => hv (List.mem_filter.mp hmem).1
  have hunmarked := h.unmarked
  rw [unbroken_append, unbroken_literal hq] at hunmarked
  refine ⟨h.firm.suffix (List.suffix_append _ rest), ?_, ?_⟩
  · rw [unbroken_append, unbroken_literal hq]
    exact h.balanced.append (balanced_literal hq hv')
  · rw [unbroken_append, unbroken_literal hq]
    exact hunmarked.append h.balanced (unmarked_literal hq hv')

/-- So does a plain character that begins no mark. -/
theorem Seamless.plain (hm : ¬ MarkAhead (c :: t)) (hq : isQuote c = false)
    (h : Seamless u (c :: t)) : Seamless (u ++ [c]) t := by
  have hc : Balanced [c] := balanced_of_no_quotes fun d hd => by rwa [List.mem_singleton.mp hd]
  have hunmarked := h.unmarked
  refine ⟨h.firm.suffix (List.suffix_cons c t), ?_, ?_⟩
  · rw [unbroken_append]
    exact h.balanced.append hc.unbroken
  · by_cases hbreak : isLineBreak c = true
    · -- a line break is pending, but what is left of the pending text stays the same
      rw [unbroken_cons_break hbreak] at hunmarked
      rw [unbroken_append, unbroken_cons_break hbreak]
      exact (List.append_nil (unbroken u)).symm ▸ hunmarked
    · have hbreak : isLineBreak c = false := Bool.eq_false_iff.mpr hbreak
      rw [unbroken_cons hbreak] at hunmarked
      rw [unbroken_append, unbroken_cons hbreak]
      exact hunmarked.append h.balanced (unmarked_singleton (not_markAhead_unbroken h.firm hbreak hm))

/-- A text with firm line breaks that holds no statement has no segment that shows a mark, even
without its line breaks. -/
theorem Reading.inert_segments (t : Text) : ∀ {p : Position} {u : Text}, Seamless u t →
    (of p u (Lexeme.all t)).statements = [] →
      ∀ s ∈ (of p u (Lexeme.all t)).segments, Inert (unbroken s.pending) := by
  -- Lexeme by lexeme, with the pending text in front of them: a comment and a brace begin it anew,
  -- a literal and a plain character add to it.
  induction t using Lexeme.all_ind with
  | nil =>
    intro p u _ _
    rw [Lexeme.all_nil]
    exact fun s hs => absurd hs List.not_mem_nil
  | @comment t body rest h ih =>
    intro p u hu hst
    rw [Lexeme.all_comment h] at hst ⊢
    have hrest : rest <:+ Comments.openMark ++ t := by
      rw [← through?_append h, ← List.append_assoc]
      exact List.suffix_append _ rest
    exact ih (hu.fresh hrest) hst
  | openComment h =>
    intro p u _ _
    rw [Lexeme.all_openComment h]
    exact fun s hs => absurd hs List.not_mem_nil
  | closeMark t =>
    intro p u _ _
    rw [Lexeme.all_closeMark]
    exact fun s hs => absurd hs List.not_mem_nil
  | statement h ih =>
    intro p u _ hst
    rw [Lexeme.all_statement h] at hst
    exact absurd hst (List.cons_ne_nil _ _)
  | brokenStatement h =>
    intro p u _ _
    rw [Lexeme.all_brokenStatement h]
    exact fun s hs => absurd hs List.not_mem_nil
  | openStatement h =>
    intro p u _ _
    rw [Lexeme.all_openStatement h]
    exact fun s hs => absurd hs List.not_mem_nil
  | @literal c t body rest hm hq h ih =>
    intro p u hu hst
    rw [Lexeme.all_literal hm hq h] at hst ⊢
    obtain ⟨v, rfl, hv⟩ := through?_single h
    obtain rfl : v ++ [c] ++ rest = t := through?_append h
    exact ih (Seamless.literal hq hv hu) hst
  | openLiteral hm hq h =>
    intro p u _ _
    rw [Lexeme.all_openLiteral hm hq h]
    exact fun s hs => absurd hs List.not_mem_nil
  | brace opens t ih =>
    intro p u hu hst
    rw [Lexeme.all_brace] at hst ⊢
    refine List.forall_mem_cons.mpr ⟨hu.unmarked.inert, ?_⟩
    exact ih (hu.fresh (List.suffix_cons _ t)) hst
  | plain hm hq hopen hclose ih =>
    intro p u hu hst
    rw [Lexeme.all_plain hm hq hopen hclose] at hst ⊢
    exact ih (Seamless.plain hm hq hu) hst

/-! ## Words -/

/-- Items of a text that shows no mark show none. -/
theorem inert_items {d : Char} (hd : isQuote d = false) (hb : Balanced u) (h : Inert (unbroken u)) :
    ∀ s ∈ items d u, Inert s := by
  intro s hs
  obtain ⟨-, x, piece, y, rfl, hx, rfl⟩ := item_spec hd hb hs
  rw [unbroken_append, unbroken_append] at h
  exact inert_tidy (h.mid hx.unbroken)

/-- The block that a header begins has inert words, if the header shows no mark without its line
breaks. -/
theorem inert_nodeOf (hb : Balanced u) (h : Inert (unbroken u)) (line : Nat) :
    (Blocks.nodeOf u.tidy line).Within Word.Inert := by
  have htidy : Inert u.tidy := inert_tidy h
  unfold Blocks.nodeOf
  split
  · exact Node.within_block htidy fun c hc => absurd hc List.not_mem_nil
  · refine Node.within_rule_iff.mpr ⟨?_, fun d hd => absurd hd List.not_mem_nil⟩
    have hself : unbroken u.tidy = u.tidy := unbroken_eq_self (tidied_tidy u).no_breaks
    exact inert_items (by decide) ((thinned_tidy u).balanced_iff.mpr hb) (hself.symm ▸ htidy)

/-- A text with firm line breaks and no statement builds nothing that shows a mark. -/
theorem Assembly.within_inert {input t : Text} {p : Position} {u : Text} {a : Assembly}
    (ht : FirmBreaks t) (hu : Filler u)
    (hstatements : (Reading.of p u (Lexeme.all t)).statements = [])
    (hbuild : Assembly.build input {} (Reading.of p u (Lexeme.all t)).segments = .ok a) :
    a.Within Word.Inert := by
  have hfiller : Filler (unbroken u) := fun c hc => hu c (List.mem_filter.mp hc).1
  have hneat := Reading.neat_segments (p := p) (Lexeme.sound_all t) hu.passive.neat
  have hinert := Reading.inert_segments t (p := p) ⟨ht, hu.blank.balanced.unbroken, hfiller.unmarked⟩
    hstatements
  refine Assembly.within_start.build (fun s hs => ?_) hbuild
  exact ⟨inert_nodeOf (hneat s hs).balanced (hinert s hs),
    inert_items (by decide) (hneat s hs).balanced (hinert s hs)⟩

end Lookahead

/-! ## Printed lines

  The only line breaks of a printed sheet are those between its lines. -/

namespace Text

/-- A text without line breaks that ends so that a line break may follow. -/
def Braced (t : Text) : Prop :=
  (∀ c ∈ t, isLineBreak c = false) ∧ ∃ v c, t = v ++ [c] ∧ Firm c

/-- A text without line breaks has none that is not firm. -/
theorem firmBreaks_of_no_breaks : ∀ {t : Text}, (∀ c ∈ t, isLineBreak c = false) → FirmBreaks t
  | [], _ => List.IsChain.nil
  | [c], _ => List.IsChain.singleton c
  | c :: d :: t, h => by
    have htail : ∀ e ∈ d :: t, isLineBreak e = false := fun e he => h e (List.mem_cons_of_mem c he)
    refine List.isChain_cons_cons.mpr ⟨fun hd => ?_, firmBreaks_of_no_breaks htail⟩
    rw [htail d List.mem_cons_self] at hd
    exact absurd hd (by decide)

/-- Behind a braced text anything may follow. -/
theorem Braced.append (hs : s.Braced) (ht : FirmBreaks t) : FirmBreaks (s ++ t) := by
  obtain ⟨hbreaks, v, c, rfl, hc⟩ := hs
  refine (firmBreaks_of_no_breaks hbreaks).append ht fun d hd _ _ _ => ?_
  obtain rfl : c = d := by simpa using hd
  exact hc

end Text

namespace Node

variable {layout : Layout}

/-- Printed lines end with braces, so the breaks between them are firm. -/
theorem firmBreaks_render (hcolor : layout.color = false) : ∀ {ls : List Line},
    (∀ l ∈ ls, l.text.Braced) → FirmBreaks (ls.flatMap (Line.render layout))
  | [], _ => List.IsChain.nil
  | l :: ls, h => by
    have hrest : FirmBreaks (layout.lineEnd ++ ls.flatMap (Line.render layout)) := by
      have ih := firmBreaks_render hcolor fun l' hl' => h l' (List.mem_cons_of_mem l hl')
      unfold Layout.lineEnd
      split
      · exact List.isChain_cons.mpr ⟨fun _ _ _ => by decide, ih⟩
      · exact ih
    obtain ⟨hbreaks, v, c, he, hc⟩ := h l List.mem_cons_self
    have hline : Braced (layout.margin l.depth ++ l.text) := by
      refine ⟨fun d hd => ?_, layout.margin l.depth ++ v, c, by rw [he, List.append_assoc], hc⟩
      rcases List.mem_append.mp hd with hd | hd
      · rcases Layout.mem_margin hd with rfl | rfl <;> decide
      · exact hbreaks d hd
    have := hline.append hrest
    rwa [← List.append_assoc, ← Line.render_eq hcolor, ← List.flatMap_cons] at this

/-- The line of a rule ends with its brace. -/
theorem braced_ruleText {selectors declarations : List Text}
    (hss : ∀ s ∈ selectors, Tidied s) (hds : ∀ d ∈ declarations, Tidied d) :
    Braced (ruleText selectors declarations) := by
  have hs : ∀ c ∈ join ',' selectors, isLineBreak c = false :=
    (tidied_join (by decide) hss).no_breaks
  have hd : ∀ c ∈ join ';' declarations, isLineBreak c = false :=
    (tidied_join (by decide) hds).no_breaks
  have hopen : ∀ c ∈ " \x7b ".toList, isLineBreak c = false := by decide
  have hclose : ∀ c ∈ " \x7d".toList, isLineBreak c = false := by decide
  refine ⟨?_, _, '}', (List.append_assoc _ [' '] ['}']).symm, by decide⟩
  simp only [ruleText, List.forall_mem_append]
  exact ⟨⟨⟨hs, hopen⟩, hd⟩, hclose⟩

/-- The line that opens an at-rule ends with its brace. -/
theorem braced_openingText {header : Text} (h : Tidied header) : Braced (openingText header) := by
  have hopen : ∀ c ∈ " \x7b".toList, isLineBreak c = false := by decide
  refine ⟨?_, _, '{', (List.append_assoc _ [' '] ['{']).symm, by decide⟩
  simp only [openingText, List.forall_mem_append]
  exact ⟨h.no_breaks, hopen⟩

/-- So does the line that closes it. -/
theorem braced_closingText : Braced closingText := ⟨by decide, [], '}', rfl, by decide⟩

/-- All lines of a legible node are braced. -/
theorem braced_lines (n : Node) : n.Within Word.Legible → ∀ depth, ∀ l ∈ n.lines depth, l.text.Braced := by
  induction n using Node.ind with
  | rule line origin selectors declarations =>
    intro h depth
    obtain ⟨hss, hds⟩ := within_rule_iff.mp h
    rw [lines, List.forall_mem_singleton]
    exact braced_ruleText (fun s hs => (hss s hs).1.tidied) fun d hd => (hds d hd).1.tidied
  | importStatement line origin statement =>
    intro h
    exact (within_importStatement_iff.mp h).elim
  | block line origin head reduced children ih =>
    intro h depth
    obtain ⟨⟨kind, header, rfl, -, htidied, -⟩, hchildren⟩ := within_block_iff.mp h
    rw [lines, siblingLines_of_legible _ hchildren, List.forall_mem_append, List.forall_mem_cons,
      List.forall_mem_singleton, List.forall_mem_flatMap]
    refine ⟨⟨braced_openingText htidied, fun c hc => ih c hc (hchildren c hc) (depth + 1)⟩, ?_⟩
    exact braced_closingText

end Node

end StyleFold
