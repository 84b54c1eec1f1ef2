/-
  Passive — text that a reader takes as it stands.

  A printed line is made of words that were cut out of one text and are put together in another.  A mark
  that no word shows could still come to stand across the seam of two of them; between words there are
  only characters that are in no mark, and that is why it never does.

  1. **Marks** — the three marks that a reader acts on outside of literals; a text is *inert* if it
     shows none of them.
  2. **Bridges** — two inert texts put together are inert unless a mark begins in the one and ends in the
     other, and no mark goes across a character that is in no mark.
  3. **Passive texts** — neat and inert; a character that never means anything may join them.
  4. **Reading** — a passive text becomes pending as a whole (`Reading.of_append`).
-/
import StyleFold.Proofs.Lookahead.Legible

namespace StyleFold

namespace Text

variable {mark s t u v rest : Text} {c d : Char}

/-! ## Marks

  One list, so that what holds of all three is said once. -/

/-- What a reader acts on outside of literals, braces apart. -/
def marks : List Text := [Comments.openMark, Comments.closeMark, Imports.keyword]

/-- No mark is empty, so each has a first and a last character. -/
theorem ne_nil_of_mem_marks : ∀ mark ∈ marks, mark ≠ [] := by decide

/-- A mark is ahead if one of the three stands at the front. -/
theorem markAhead_iff : Lookahead.MarkAhead t ↔ ∃ mark ∈ marks, mark <+: t := by
  simp only [Lookahead.MarkAhead, marks, List.mem_cons, List.not_mem_nil, or_false]
  constructor
  · rintro (h | h | h)
    · exact ⟨_, .inl rfl, h⟩
    · exact ⟨_, .inr (.inl rfl), h⟩
    · exact ⟨_, .inr (.inr rfl), h⟩
  · rintro ⟨mark, rfl | rfl | rfl, h⟩
    · exact .inl h
    · exact .inr (.inl h)
    · exact .inr (.inr h)

/-- Whether the text shows no mark. -/
def Inert (t : Text) : Prop := ∀ mark ∈ marks, Hides mark t

instance : Decidable (Inert t) := inferInstanceAs (Decidable (∀ mark ∈ marks, Hides mark t))

/-! ## Bridges

  A mark that goes across a seam begins in the one text and ends in the other; either end rules it out. -/

/-- No mark begins in `s` and ends in `t`. -/
def Unbridged (s t : Text) : Prop := ∀ mark ∈ marks, ∀ a b, s = a ++ b → b ≠ [] →
  mark <+: b ++ t → mark <+: b

/-- What no mark goes across, none goes across from a part further on. -/
theorem Unbridged.suffix (h : Unbridged (u ++ s) t) : Unbridged s t := by
  rintro mark hmark a b rfl
  exact h mark hmark (u ++ a) b (List.append_assoc u a b).symm

/-- A text that does not begin with a character of a mark continues none. -/
theorem unbridged_of_head (h : ∀ c, t.head? = some c → ∀ mark ∈ marks, c ∉ mark) :
    Unbridged s t := by
  rintro mark hmark a b - hb hp
  rcases Nat.le_total mark.length b.length with hle | hle
  · exact List.prefix_of_prefix_length_le hp (List.prefix_append b t) hle
  · obtain ⟨m, rfl⟩ := List.prefix_of_prefix_length_le (List.prefix_append b t) hp hle
    cases m with
    | nil => simp
    | cons d m =>
      obtain ⟨r, hr⟩ := (List.prefix_append_right_inj b).mp hp
      exact absurd (List.mem_append_right b List.mem_cons_self)
        (h d (by rw [← hr]; rfl) _ hmark)

/-- A text that ends with a character of no mark begins none that goes on. -/
theorem unbridged_of_last (h : ∀ mark ∈ marks, c ∉ mark) : Unbridged (s ++ [c]) t := by
  rintro mark hmark a b he hb hp
  obtain ⟨b', rfl, -⟩ := eq_append_of_suffix_append hb ⟨a, he.symm⟩
  rcases Nat.le_total mark.length (b' ++ [c]).length with hle | hle
  · exact List.prefix_of_prefix_length_le hp (List.prefix_append _ t) hle
  · have := (List.prefix_of_prefix_length_le (List.prefix_append _ t) hp hle).subset
      (List.mem_append_right b' List.mem_cons_self)
    exact absurd this (h mark hmark)

/-- Inert texts make an inert text where no mark goes across. -/
theorem Inert.append (hs : Inert s) (ht : Inert t) (hb : Balanced s) (hu : Unbridged s t) :
    Inert (s ++ t) := by
  intro mark hmark
  have hne := ne_nil_of_mem_marks mark hmark
  rw [hides_iff hne]
  rintro v w he hv hw
  rcases List.append_eq_append_iff.mp he with ⟨a, rfl, rfl⟩ | ⟨a, rfl, rfl⟩
  · exact (hides_iff hne).mp (ht mark hmark) a w rfl (hv.of_append hb) hw
  · cases a with
    | nil => exact (hides_iff hne).mp (ht mark hmark) [] t rfl balanced_nil hw
    | cons d a =>
      have hw' := hu mark hmark v (d :: a) rfl (List.cons_ne_nil d a) hw
      exact (hides_iff hne).mp (hs mark hmark) v (d :: a) rfl hv hw'

/-- A part of an inert text is inert, if no literal is open in front of it. -/
theorem Inert.mid (h : Inert (u ++ t ++ v)) (hu : Balanced u) : Inert t := fun mark hmark =>
  (h mark hmark).mid (ne_nil_of_mem_marks mark hmark) hu

/-! ## Passive texts -/

/-- A character without any meaning to a reader. -/
structure Idle (c : Char) : Prop where
  not_quote : isQuote c = false
  ne_open : c ≠ '{'
  ne_close : c ≠ '}'
  notMem : ∀ mark ∈ marks, c ∉ mark

instance (c : Char) : Decidable (Idle c) := decidable_of_iff
  (isQuote c = false ∧ c ≠ '{' ∧ c ≠ '}' ∧ ∀ mark ∈ marks, c ∉ mark)
  ⟨fun ⟨hq, ho, hc, hm⟩ => ⟨hq, ho, hc, hm⟩, fun ⟨hq, ho, hc, hm⟩ => ⟨hq, ho, hc, hm⟩⟩

/-- No mark begins with a character without meaning. -/
theorem Idle.begins_no_mark (h : Idle c) (hmark : mark ∈ marks) : ¬ mark <+: c :: t := by
  intro hp
  cases hm : mark with
  | nil => exact ne_nil_of_mem_marks mark hmark hm
  | cons d m =>
    obtain rfl : d = c := (List.cons_prefix_cons.mp (hm ▸ hp)).1
    exact h.notMem mark hmark (hm ▸ List.mem_cons_self)

/-- A text that becomes pending as it stands. -/
structure Passive (t : Text) : Prop where
  neat : Lookahead.Neat t
  inert : Inert t

theorem passive_nil : Passive [] := ⟨Lookahead.neat_nil, fun mark _ => hides_nil mark⟩

/-- A character without meaning is a passive text. -/
theorem Idle.passive (h : Idle c) : Passive [c] where
  neat := Lookahead.neat_singleton h.not_quote h.ne_open h.ne_close
  inert := by
    intro mark hmark
    rw [hides_iff (ne_nil_of_mem_marks mark hmark)]
    rintro v w he - hp
    cases v with
    | nil =>
      obtain rfl : [c] = w := he
      exact h.begins_no_mark hmark hp
    | cons d v =>
      obtain ⟨-, rfl⟩ := List.append_eq_nil_iff.mp (List.cons.inj he).2.symm
      exact ne_nil_of_mem_marks mark hmark (List.prefix_nil.mp hp)

/-- Passive texts make a passive text where no mark goes across. -/
theorem Passive.append (hs : Passive s) (ht : Passive t) (hu : Unbridged s t) : Passive (s ++ t) :=
  ⟨hs.neat.append ht.neat, hs.inert.append ht.inert hs.neat.balanced hu⟩

/-- Passive texts with a meaningless character between them are passive. -/
theorem Passive.append_cons (hs : Passive s) (hc : Idle c) (ht : Passive t) :
    Passive (s ++ c :: t) := by
  have hleft : Passive (s ++ [c]) := hs.append hc.passive <| unbridged_of_head fun d hd => by
    obtain rfl : c = d := by simpa using hd
    exact hc.notMem
  have h := hleft.append ht (unbridged_of_last hc.notMem)
  rwa [List.append_assoc] at h

theorem Passive.concat (hs : Passive s) (hc : Idle c) : Passive (s ++ [c]) :=
  hs.append_cons hc passive_nil

theorem Passive.cons (hc : Idle c) (ht : Passive t) : Passive (c :: t) :=
  passive_nil.append_cons hc ht

/-- A text of characters without meaning is passive. -/
theorem passive_of_idle : ∀ {t : Text}, (∀ c ∈ t, Idle c) → Passive t
  | [], _ => passive_nil
  | c :: _, h => (passive_of_idle fun d hd => h d (List.mem_cons_of_mem c hd)).cons
      (h c List.mem_cons_self)

/-- Passive texts are joined to a passive one by a meaningless character. -/
theorem passive_join {ts : List Text} (hd : Idle d) (h : ∀ t ∈ ts, Passive t) : Passive (join d ts) :=
  join_ind passive_nil (fun hs ht => hs.append_cons hd ht) h

/-- What follows a balanced part of a passive text is passive. -/
theorem Passive.suffix (h : Passive (u ++ t)) (hu : Balanced u) : Passive t := by
  have hself : u ++ t = u ++ t ++ [] := (List.append_nil _).symm
  refine ⟨Lookahead.Neat.mid (hself ▸ h.neat) hu (h.neat.balanced.of_append hu), ?_⟩
  exact Inert.mid (hself ▸ h.inert) hu

end Text

namespace Lookahead

open Text

variable {t rest : Text} {c q : Char}

/-! ## Reading

  Passive text is read character by character and lands in the pending text unchanged. -/

/-- A literal that is closed somewhere is closed at the first quote of its kind. -/
theorem through?_of_after : ∀ {t : Text}, Quote.after (some q) t = none →
    ∃ body r, t = body ++ r ∧ Balanced r ∧
      ∀ rest, through? [q] (t ++ rest) = some (body, r ++ rest)
  | [], h => absurd h (by simp)
  | c :: t, h => by
    by_cases hc : c = q
    · subst hc
      have hnext : Quote.next (some c) c = none := if_pos rfl
      rw [Quote.after_cons, hnext] at h
      exact ⟨[c], t, rfl, h, fun rest => by simp [through?]⟩
    · have hnext : Quote.next (some q) c = some q := if_neg hc
      rw [Quote.after_cons, hnext] at h
      obtain ⟨body, r, rfl, hr, hcut⟩ := through?_of_after h
      refine ⟨c :: body, r, rfl, hr, fun rest => ?_⟩
      have hne : ¬ q = c := fun he => hc he.symm
      rw [List.cons_append, through?, hcut rest]
      simp [hne]

/-- A passive text begins with a character that is pending as it stands, or with a literal. -/
theorem passive_cons (ht : Passive (c :: t)) :
    (isQuote c = false ∧ c ≠ '{' ∧ c ≠ '}' ∧ Passive t) ∨
      isQuote c = true ∧ ∃ body r, t = body ++ r ∧ Passive r ∧
        ∀ rest, through? [c] (t ++ rest) = some (body, r ++ rest) := by
  -- A quote in front opens a literal, and balance closes it again; what is behind it is passive as
  -- well.
  by_cases hq : isQuote c = true
  · right
    have hopen : Quote.next none c = some c := by simp [Quote.next, hq]
    have hafter : Quote.after (some c) t = none := by
      have := ht.neat.balanced
      rwa [Text.Balanced, Quote.after_cons, hopen] at this
    obtain ⟨body, r, rfl, hr, hcut⟩ := through?_of_after hafter
    have hbody : Balanced (c :: body) := by
      obtain ⟨v, rfl, hv⟩ := through?_single (hcut [])
      exact balanced_literal hq hv
    exact ⟨hq, body, r, rfl, Passive.suffix (u := c :: body) ht hbody, hcut⟩
  · left
    have hnq : isQuote c = false := Bool.eq_false_iff.mpr hq
    have hopen : c ≠ '{' := by
      rintro rfl
      exact (hides_iff (by decide)).mp ht.neat.hides_open [] _ rfl balanced_nil
        (List.prefix_append ['{'] t)
    have hclose : c ≠ '}' := by
      rintro rfl
      exact (hides_iff (by decide)).mp ht.neat.hides_close [] _ rfl balanced_nil
        (List.prefix_append ['}'] t)
    have hc : Balanced [c] := balanced_of_no_quotes fun d hd => by rwa [List.mem_singleton.mp hd]
    exact ⟨hnq, hopen, hclose, Passive.suffix (u := [c]) ht hc⟩

/-- A passive text is pending when it was read, if no mark goes from it into the text behind it. -/
theorem Reading.of_append : ∀ {t : Text}, Passive t → ∀ {rest : Text}, Unbridged t rest →
    ∀ (p : Position) (u : Text), Reading.of p u (Lexeme.all (t ++ rest)) =
      Reading.of (p.past t) (u ++ t) (Lexeme.all rest)
  | [], _, rest, _, p, u => by rw [List.nil_append, Position.past_nil, List.append_nil]
  | c :: t, ht, rest, hu, p, u => by
    have hm : ¬ MarkAhead (c :: (t ++ rest)) := by
      rw [markAhead_iff]
      rintro ⟨mark, hmark, hp⟩
      -- a mark that begins in the text ends in it, and the text shows none
      have hself := hu mark hmark [] (c :: t) rfl (List.cons_ne_nil c t) hp
      exact (hides_iff (ne_nil_of_mem_marks mark hmark)).mp (ht.inert mark hmark) [] (c :: t) rfl
        balanced_nil hself
    rw [List.cons_append]
    rcases passive_cons ht with ⟨hq, hopen, hclose, hrest⟩ | ⟨hq, body, r, rfl, hrest, hcut⟩
    · rw [Lexeme.all_plain hm hq hopen hclose]
      have ih := Reading.of_append hrest (Unbridged.suffix (u := [c]) hu) (p.past [c]) (u ++ [c])
      refine ih.trans ?_
      rw [Position.past_past, List.append_assoc]
      rfl
    · have hlength : r.length < (c :: (body ++ r)).length := by
        simp only [List.length_cons, List.length_append]
        omega
      rw [Lexeme.all_literal hm hq (hcut rest)]
      have ih := Reading.of_append hrest (Unbridged.suffix (u := c :: body) hu)
        (p.past (c :: body)) (u ++ c :: body)
      refine ih.trans ?_
      rw [Position.past_past, List.append_assoc]
      rfl
termination_by t => t.length

end Lookahead

end StyleFold
