/-
  Windows — finding a mark by its last characters and finding it by its first are the same.

  A filter keeps the last characters of the text in a window as long as its mark and acts when the
  window *is* the mark.  A reader with lookahead acts when the mark stands at the front of what is
  still to be read.  The two agree as long as no mark *straddles* the place where they stand.

  This is about marks and texts alone; neither scan nor reader occurs.  It is the reason why a device
  that remembers a few characters recognises the same marks as one that looks ahead.

  1. **Straddling** — a mark that begins in the text behind and ends in the text ahead.
  2. **One character** — nothing straddles at the start; if nothing straddles, no window fills up with
     the next character (`remember_ne_of_not_straddles`), and nothing straddles behind that
     character either, unless a mark stood ahead (`not_straddles_remember`).
  3. **A whole mark** — once all its characters were shown, the window is the mark.
-/
import StyleFold.Text.Basic

namespace StyleFold.Text

/-! ## Straddling

  The one way in which the two could differ: the device has seen the front of a mark already when the
  reader begins. -/

/-- A part of `mark` ends the text seen, and the other part begins the text ahead. -/
def Straddles (mark seen ahead : Text) : Prop :=
  ∃ a b : Text, a ≠ [] ∧ b ≠ [] ∧ a ++ b = mark ∧ a <:+ seen ∧ b <+: ahead

theorem not_straddles_nil (mark ahead : Text) : ¬ Straddles mark [] ahead := by
  rintro ⟨a, b, ha, -, -, hseen, -⟩
  exact ha (List.suffix_nil.mp hseen)

/-! ## One character

  Each lemma is about one mark and the window that looks for it; what is straddled by another mark is of
  no concern to it. -/

/-- A window holds an end of what was shown. -/
theorem remember_suffix (limit : Nat) (seen : Text) (c : Char) :
    remember limit seen c <:+ seen ++ [c] := List.drop_suffix _ _

/-- What ends a text that ends with `c` is nothing, or ends with `c` itself. -/
theorem eq_append_of_suffix_append {a seen : Text} {c : Char} (ha : a ≠ [])
    (h : a <:+ seen ++ [c]) : ∃ a', a = a' ++ [c] ∧ a' <:+ seen := by
  obtain ⟨u, hu⟩ := h
  rcases List.eq_nil_or_concat a with rfl | ⟨a', d, rfl⟩
  · exact absurd rfl ha
  · rw [List.concat_eq_append, ← List.append_assoc] at hu
    obtain ⟨hseen, hd⟩ := List.append_inj' hu rfl
    obtain rfl : d = c := by simpa using hd
    exact ⟨a', List.concat_eq_append, ⟨u, hseen⟩⟩

/-- A window is a mark only if the character just shown ends the mark. -/
theorem remember_ne_of_getLast? {mark seen : Text} {c : Char} {limit : Nat} (hne : mark ≠ [])
    (hlast : mark.getLast? ≠ some c) : remember limit seen c ≠ mark := by
  intro h
  obtain ⟨a', he, -⟩ := eq_append_of_suffix_append hne (h ▸ remember_suffix limit seen c)
  exact hlast (by rw [he, List.getLast?_concat])

/-- Where nothing straddles, the next character does not fill a window. -/
theorem remember_ne_of_not_straddles {mark seen ahead : Text} {c : Char} {limit : Nat}
    (hlen : 1 < mark.length) (h : ¬ Straddles mark seen (c :: ahead)) :
    remember limit seen c ≠ mark := by
  intro hmark
  have hne : mark ≠ [] := by
    rintro rfl
    exact absurd hlen (by decide)
  obtain ⟨a', he, hseen⟩ :=
    eq_append_of_suffix_append hne (hmark ▸ remember_suffix limit seen c)
  refine h ⟨a', [c], ?_, List.cons_ne_nil c [], he.symm, hseen, ?_⟩
  · rintro rfl
    rw [he] at hlen
    exact absurd hlen (by simp)
  · exact List.prefix_append [c] ahead

/-- Where nothing straddles and no mark begins, nothing straddles one character later. -/
theorem not_straddles_remember {mark seen ahead : Text} {c : Char} {limit : Nat}
    (h : ¬ Straddles mark seen (c :: ahead)) (hahead : ¬ mark <+: c :: ahead) :
    ¬ Straddles mark (remember limit seen c) ahead := by
  rintro ⟨a, b, ha, hb, hab, hseen, hb'⟩
  obtain ⟨a', rfl, ha'⟩ :=
    eq_append_of_suffix_append ha (hseen.trans (remember_suffix limit seen c))
  have hcb : c :: b <+: c :: ahead := List.cons_prefix_cons.mpr ⟨rfl, hb'⟩
  -- the part that was seen ends with `c`: it is `c` alone, or it straddled before `c`
  rcases List.eq_nil_or_concat a' with rfl | ⟨_, _, hne⟩
  · exact hahead (hab ▸ hcb)
  · refine h ⟨a', c :: b, ?_, List.cons_ne_nil c b, ?_, ha', hcb⟩
    · rw [hne]
      simp
    · rw [← hab, List.append_assoc]
      rfl

/-- A character that is not in the mark lets nothing straddle. -/
theorem not_straddles_of_notMem {mark seen : Text} {c : Char} {limit : Nat} (hc : c ∉ mark)
    (ahead : Text) : ¬ Straddles mark (remember limit seen c) ahead := by
  rintro ⟨a, b, ha, -, hab, hseen, -⟩
  obtain ⟨a', rfl, -⟩ :=
    eq_append_of_suffix_append ha (hseen.trans (remember_suffix limit seen c))
  exact hc (hab ▸ by simp)

/-! ## A whole mark

  A mark shown in full fills a window of its length. -/

/-- A window holds as much as it may, of what there is. -/
theorem length_remember (limit : Nat) (seen : Text) (c : Char) :
    (remember limit seen c).length = min limit (seen.length + 1) := by
  simp only [remember, List.length_drop, List.length_append, List.length_cons, List.length_nil]
  omega

/-- A window holds the last of what it was shown. -/
theorem foldl_remember_suffix (limit : Nat) :
    ∀ t seen : Text, t.foldl (remember limit) seen <:+ seen ++ t
  | [], seen => by simp
  | c :: t, seen => by
    obtain ⟨u, hu⟩ := remember_suffix limit seen c
    have h := foldl_remember_suffix limit t (remember limit seen c)
    refine h.trans ⟨u, ?_⟩
    rw [← List.append_assoc, hu, List.append_assoc, List.singleton_append]

/-- A window is as full as what it was shown allows. -/
theorem length_le_foldl_remember (limit : Nat) : ∀ t seen : Text,
    min limit (seen.length + t.length) ≤ (t.foldl (remember limit) seen).length
  | [], seen => Nat.min_le_right limit seen.length
  | c :: t, seen => by
    have h := length_le_foldl_remember limit t (remember limit seen c)
    rw [length_remember] at h
    rw [List.foldl_cons, List.length_cons]
    omega

/-- A window that was shown a text of its own length holds that text. -/
theorem remember_foldl_eq {t : Text} {c : Char} {limit : Nat} (hlen : t.length + 1 = limit)
    (seen : Text) : remember limit (t.foldl (remember limit) seen) c = t ++ [c] := by
  have hshown : remember limit (t.foldl (remember limit) seen) c <:+ seen ++ (t ++ [c]) := by
    have h := foldl_remember_suffix limit (t ++ [c]) seen
    rwa [List.foldl_append] at h
  have hself : t ++ [c] <:+ seen ++ (t ++ [c]) := List.suffix_append seen (t ++ [c])
  have hlength : (remember limit (t.foldl (remember limit) seen) c).length = (t ++ [c]).length := by
    have := length_le_foldl_remember limit t seen
    rw [length_remember, List.length_append, List.length_singleton]
    omega
  -- two ends of one text, equally long
  exact (List.suffix_of_suffix_length_le hshown hself (Nat.le_of_eq hlength)).eq_of_length hlength

end StyleFold.Text
