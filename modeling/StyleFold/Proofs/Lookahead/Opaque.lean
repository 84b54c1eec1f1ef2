/-
  Opaque — what stands in a string literal acts on nothing but the words that keep the literal.

  Literals are to be passed through as they are.  They are, for the scan of blocks; an import statement
  is read by other rules, and there two things in a literal are not passed over.  The theorem says for
  which contents a literal may stand in for another, and that nothing else in the tree changes.

  1. **Literals ahead** — no mark has a quote, so a literal is one lexeme whatever stands in it.  Inside of
     an import statement a line feed or the keyword in a literal is a fault, and all else is passed over
     (`StatementEnd.closed_literal_iff`).
  2. **Refilled texts** — texts that differ in the content of one literal make entries that differ in one
     word at most (`correspondence_refilled`), and of this word in the literal alone (`frame_entries`).
  3. **Outside and in statements** — so the trees of a text and of the text with another literal differ in
     one word at most, and of this word in the literal alone.
  4. **Trees** — any content without line breaks may stand in a literal of an accepted text, but for the
     keyword in a literal of an import statement (`Node.parse_literal_iff`).
-/
import StyleFold.Proofs.Lookahead.LineBreaks
import StyleFold.Proofs.Lookahead.Texts
import StyleFold.Proofs.Text.Contents

namespace StyleFold

open Text

/-! ## Literals ahead

  The reader passes from one quote to the next of the same kind and looks at nothing in between. -/

section

variable {c q : Char} {mark content v body rest : Text}

/-- A mark without a character does not straddle a place before the character. -/
theorem Text.not_straddles_cons (hc : c ∉ mark) (seen t : Text) : ¬ Straddles mark seen (c :: t) := by
  rintro ⟨a, b, -, hb, hab, -, hahead⟩
  cases b with
  | nil => exact hb rfl
  | cons d b =>
    obtain ⟨rfl, -⟩ := List.cons_prefix_cons.mp hahead
    exact hc (hab ▸ List.mem_append_right a List.mem_cons_self)

/-- No mark has a quote. -/
theorem notMem_marks_of_isQuote (hq : isQuote q = true) :
    q ∉ Comments.openMark ∧ q ∉ Comments.closeMark ∧ q ∉ Imports.keyword := by
  have h := Scan.State.not_inMarks_of_isQuote hq
  simp only [Scan.State.inMarks, Bool.or_eq_false_iff, List.contains_eq_mem, decide_eq_false_iff_not] at h
  exact ⟨h.1.1, h.1.2, h.2⟩

/-- In front of a quote, no mark straddles. -/
theorem Scan.State.clear_quote (hq : isQuote q = true) (marks words t : Text) :
    Clear marks words (q :: t) := by
  obtain ⟨hopen, hclose, hkeyword⟩ := notMem_marks_of_isQuote hq
  exact ⟨not_straddles_cons hopen _ _, not_straddles_cons hclose _ _, not_straddles_cons hkeyword _ _⟩

namespace Lookahead

/-- No mark begins with a quote. -/
theorem not_markAhead_quote (hq : isQuote q = true) (t : Text) : ¬ MarkAhead (q :: t) := by
  obtain ⟨hopen, hclose, hkeyword⟩ := notMem_marks_of_isQuote hq
  have hfront : ∀ mark : Text, mark ≠ [] → q ∉ mark → ¬ mark <+: q :: t := by
    intro mark hne hmark hp
    obtain ⟨c, mark, rfl⟩ := List.exists_cons_of_ne_nil hne
    obtain ⟨rfl, -⟩ := List.cons_prefix_cons.mp hp
    exact hmark List.mem_cons_self
  rintro (h | h | h)
  · exact hfront _ (by decide) hopen h
  · exact hfront _ (by decide) hclose h
  · exact hfront _ (by decide) hkeyword h

/-- The first quote of its kind ends a literal. -/
theorem through?_quote : ∀ {content : Text}, q ∉ content → ∀ v,
    through? [q] (content ++ q :: v) = some (content ++ [q], v)
  | [], _, v => by simp [through?]
  | c :: content, h, v => by
    have hc : ¬ q = c := fun he => h (he ▸ List.mem_cons_self)
    have hrest := through?_quote (fun hmem => h (List.mem_cons_of_mem c hmem)) v
    rw [List.cons_append, through?, hrest]
    simp [hc]

/-- A literal is one lexeme. -/
theorem Lexeme.all_literal_append (hq : isQuote q = true) (hcontent : q ∉ content) (v : Text) :
    all (Text.literal q content ++ v) = literal (Text.literal q content) :: all v := by
  have hcut := through?_quote hcontent v
  rw [List.append_cons] at hcut
  exact all_literal (not_markAhead_quote hq _) hq hcut

namespace StatementEnd

/-- A character behind which a statement goes on. -/
theorem closed_cons_iff {quote : Quote} (hinside : ¬ (c = ';' ∧ quote.next c = none)) :
    StatementEnd.of quote (c :: v) = .closed body rest ↔ ¬ Imports.keyword <+: c :: v ∧ c ≠ '\n' ∧
      ∃ b, StatementEnd.of (quote.next c) v = .closed b rest ∧ body = c :: b := by
  constructor
  · intro h
    obtain ⟨hkeyword, hfeed, ⟨hend, -⟩ | ⟨-, hb⟩⟩ := closed_cons h
    · exact absurd hend hinside
    · exact ⟨hkeyword, hfeed, hb⟩
  · rintro ⟨hkeyword, hfeed, b, hb, rfl⟩
    rw [StatementEnd.of, if_neg fun hp => hkeyword (List.isPrefixOf_iff_prefix.mp hp), if_neg hfeed,
      if_neg hinside, hb]
    rfl

/-- The rest of a statement that begins in a literal. -/
theorem closed_open_iff (hq : isQuote q = true) : ∀ {content body : Text}, q ∉ content →
    (StatementEnd.of (some q) (content ++ q :: v) = .closed body rest ↔
      ¬ Imports.keyword <:+: content ∧ '\n' ∉ content ∧
        ∃ b, StatementEnd.of none v = .closed b rest ∧ body = content ++ q :: b)
  | [], body, _ => by
    -- The literal closes: the quote is neither the semicolon, nor a line feed, nor a character of
    -- the keyword.
    have hclose : Quote.next (some q) q = none := if_pos rfl
    have hsemicolon : q ≠ ';' := by
      rintro rfl
      exact absurd hq (by decide)
    have hfeed : q ≠ '\n' := by
      rintro rfl
      exact absurd hq (by decide)
    have hfront : ¬ Imports.keyword <+: q :: v := fun hp => not_markAhead_quote hq v (.inr (.inr hp))
    have hempty : ¬ Imports.keyword <:+: [] := by decide
    rw [List.nil_append, closed_cons_iff fun h => hsemicolon h.1, hclose]
    exact ⟨fun ⟨_, _, hb⟩ => ⟨hempty, List.not_mem_nil, hb⟩, fun ⟨_, _, hb⟩ => ⟨hfront, hfeed, hb⟩⟩
  | c :: content, body, h => by
    have hne : c ≠ q := fun he => h (he ▸ List.mem_cons_self)
    have hnext : Quote.next (some q) c = some q := if_neg hne
    -- A quote stands behind the content, and the keyword has none: the keyword is in front exactly
    -- if the content begins with it.
    have hfront : Imports.keyword <+: c :: (content ++ q :: v) ↔ Imports.keyword <+: c :: content :=
      prefix_append_cons_iff (s := c :: content) (notMem_marks_of_isQuote hq).2.2
    have ih := @closed_open_iff hq content
    rw [List.cons_append, closed_cons_iff fun hend => by simp [hnext] at hend, hnext, hfront,
      List.infix_cons_iff, List.mem_cons, not_or, not_or]
    constructor
    · rintro ⟨hkeyword, hfeed, b, hb, rfl⟩
      obtain ⟨hwords, hfeeds, b', hb', rfl⟩ := (ih fun hmem => h (List.mem_cons_of_mem c hmem)).mp hb
      exact ⟨⟨hkeyword, hwords⟩, ⟨Ne.symm hfeed, hfeeds⟩, b', hb', rfl⟩
    · rintro ⟨⟨hkeyword, hwords⟩, ⟨hfeed, hfeeds⟩, b, hb, rfl⟩
      refine ⟨hkeyword, Ne.symm hfeed, _, (ih fun hmem => h (List.mem_cons_of_mem c hmem)).mpr ?_, rfl⟩
      exact ⟨hwords, hfeeds, b, hb, rfl⟩

/-- A statement goes on behind a literal, unless the keyword or a line feed stands in the literal. -/
theorem closed_literal_iff (hq : isQuote q = true) (hcontent : q ∉ content) :
    StatementEnd.of none (Text.literal q content ++ v) = .closed body rest ↔
      ¬ Imports.keyword <:+: content ∧ '\n' ∉ content ∧
        ∃ b, StatementEnd.of none v = .closed b rest ∧ body = Text.literal q content ++ b := by
  have hopen : Quote.next none q = some q := if_pos hq
  have hfront : ¬ Imports.keyword <+: q :: (content ++ q :: v) := fun hp =>
    not_markAhead_quote hq _ (.inr (.inr hp))
  have hfeed : q ≠ '\n' := by
    rintro rfl
    exact absurd hq (by decide)
  have htext : ∀ t, Text.literal q content ++ t = q :: (content ++ q :: t) := fun t => by
    simp [Text.literal]
  rw [htext, closed_cons_iff fun h => by simp [hopen] at h, hopen]
  constructor
  · rintro ⟨-, -, b, hb, rfl⟩
    obtain ⟨hwords, hfeeds, b', hb', rfl⟩ := (closed_open_iff hq hcontent).mp hb
    exact ⟨hwords, hfeeds, b', hb', (htext b').symm⟩
  · rintro ⟨hwords, hfeeds, b, hb, rfl⟩
    exact ⟨hfront, hfeed, _, (closed_open_iff hq hcontent).mpr ⟨hwords, hfeeds, b, hb, rfl⟩, htext b⟩

end StatementEnd

end Lookahead

end

/-! ## Refilled texts

  Everything that is done to pending text, cutting and tidying, goes around a literal. -/

section

variable {q : Char} {s t u : Text}

/-- Texts that are the same but for the content of one literal. -/
inductive Text.Refilled (q : Char) : Text → Text → Prop
  | same (t : Text) : Refilled q t t
  | content {u old new : Text} (v : Text) : u.Balanced → q ∉ old → q ∉ new →
      Refilled q (u ++ literal q old ++ v) (u ++ literal q new ++ v)

namespace Text

/-- The same text may stand behind refilled texts. -/
theorem Refilled.append (h : Refilled q s t) (v : Text) : Refilled q (s ++ v) (t ++ v) := by
  cases h with
  | same => exact .same _
  | content v' hu hold hnew =>
    rw [List.append_assoc _ v' v, List.append_assoc _ v' v]
    exact .content (v' ++ v) hu hold hnew

/-- Refilled texts have as many items. -/
theorem Refilled.length_items (h : Refilled q s t) (hq : isQuote q = true) (d : Char) :
    (items d s).length = (items d t).length := by
  cases h with
  | same => rfl
  | content v hu hold hnew =>
    obtain ⟨f, hf⟩ := items_literal d hq hu v
    rw [hf _ hold, hf _ hnew, f.length_fill]

/-- Refilled headers open the same at-rule. -/
theorem Refilled.ofHeader?_tidy (h : Refilled q s t) (hq : isQuote q = true) :
    AtKind.ofHeader? s.tidy = AtKind.ofHeader? t.tidy := by
  cases h with
  | same => rfl
  | @content u old new v hu hold hnew =>
    refine AtKind.ofHeader?_congr fun opener hopener => ?_
    have hnot : ∀ opener ∈ AtKind.openers, ∀ c ∈ opener.1, isQuote c = false := by decide +kernel
    have hmem : q ∉ opener.1 := by
      intro hmem
      rw [hnot opener hopener q hmem] at hq
      exact absurd hq (by decide)
    -- a word that opens an at-rule stands before the literal
    have hfront : ∀ content, opener.1 <+: tidy (u ++ literal q content ++ v) ↔
        opener.1 <+: trimStart (unbroken u) := by
      intro content
      rw [tidy_literal hq, List.append_assoc]
      exact prefix_append_cons_iff hmem
    rw [hfront, hfront]

end Text

namespace Lookahead

/-- Words and lines apart, it does not count what stands in a literal. -/
theorem correspondence_refilled (hq : isQuote q = true) :
    Reading.Correspondence .wordless .wordless (fun _ _ => True) (Refilled q) where
  past _ _ := trivial
  of _ _ := trivial
  nil := .same []
  append t h := h.append t
  entry := by
    intro p p' s t inRule opens _ h
    -- A view without words keeps of a list of texts only how many there are.
    have hblank : ∀ {ss ts : List Text}, ss.length = ts.length →
        ss.map View.wordless.onText = ts.map View.wordless.onText := by
      intro ss ts hlength
      show ss.map (fun _ => []) = ts.map (fun _ => [])
      rw [List.map_const', List.map_const', hlength]
    cases opens with
    | true =>
      have hitems := hblank (h.length_items hq ',')
      have hnode : (Blocks.nodeOf s.tidy p.line).seen .wordless =
          (Blocks.nodeOf t.tidy p'.line).seen .wordless := by
        rw [Blocks.seen_nodeOf, Blocks.seen_nodeOf, h.ofHeader?_tidy hq, items_tidy (by decide),
          items_tidy (by decide), hitems]
        rfl
      exact congrArg Entry.opened hnode
    | false =>
      cases inRule with
      | false => rfl
      | true => exact congrArg Entry.closed (hblank (h.length_items hq ';'))

/-- The texts of an entry are the same whatever stands in a literal, but for the text in which it stands. -/
theorem frame_entry (hq : isQuote q = true) (hu : u.Balanced) (v : Text) (inRule opens : Bool) :
    ∃ f : Frame, ∀ content, q ∉ content → ∀ p,
      (Segment.entry inRule ⟨u ++ literal q content ++ v, opens, p⟩).texts =
        f.fill (literal q content.unbroken) := by
  cases opens with
  | true =>
    -- What kind of block is opened does not depend on the content, so the frame can be chosen
    -- before it.
    have hkind : ∀ content, q ∉ content → AtKind.ofHeader? (tidy (u ++ literal q content ++ v)) =
        AtKind.ofHeader? (tidy (u ++ literal q [] ++ v)) := fun content hcontent =>
      (Refilled.content v hu hcontent List.not_mem_nil).ofHeader?_tidy hq
    cases hempty : AtKind.ofHeader? (tidy (u ++ literal q [] ++ v)) with
    | none =>
      obtain ⟨f, hf⟩ := items_literal ',' hq hu v
      refine ⟨f, fun content hcontent p => ?_⟩
      have htexts := Blocks.texts_nodeOf (tidy (u ++ literal q content ++ v)) p.line
      rw [hkind content hcontent, hempty, items_tidy (by decide), hf content hcontent] at htexts
      exact htexts
    | some kind =>
      refine ⟨.gap [] (trimStart (unbroken u)) (trimEnd (unbroken v)) [], fun content hcontent p => ?_⟩
      have htexts := Blocks.texts_nodeOf (tidy (u ++ literal q content ++ v)) p.line
      rw [hkind content hcontent, hempty] at htexts
      refine htexts.trans ?_
      show [tidy _] = _
      rw [tidy_literal hq]
      rfl
  | false =>
    cases inRule with
    | false => exact ⟨.closed [], fun _ _ _ => rfl⟩
    | true =>
      obtain ⟨f, hf⟩ := items_literal ';' hq hu v
      exact ⟨f, fun content hcontent _ => hf content hcontent⟩

/-- The texts of a reading are the same whatever stands in a literal that is pending, but for the text in
which it stands, if any. -/
theorem frame_entries (hq : isQuote q = true) (hu : u.Balanced) : ∀ (ls : List Lexeme) (v : Text)
    (inRule : Bool), ∃ f : Frame, ∀ content, q ∉ content → ∀ p,
      (entries inRule (Reading.of p (u ++ literal q content ++ v) ls).segments).flatMap Entry.texts =
        f.fill (literal q content.unbroken)
  | [], _, _ => ⟨.closed [], fun _ _ _ => rfl⟩
  | l :: ls, v, inRule => by
    cases l with
    | plain c =>
      obtain ⟨f, hf⟩ := frame_entries hq hu ls (v ++ [c]) inRule
      refine ⟨f, fun content hcontent p => ?_⟩
      rw [Reading.of, List.append_assoc]
      exact hf content hcontent _
    | literal t =>
      obtain ⟨f, hf⟩ := frame_entries hq hu ls (v ++ t) inRule
      refine ⟨f, fun content hcontent p => ?_⟩
      rw [Reading.of, List.append_assoc]
      exact hf content hcontent _
    | comment t =>
      -- the comment drops what is pending, and the literal with it
      refine ⟨.closed ((entries inRule (Reading.of {} [] ls).segments).flatMap Entry.texts), ?_⟩
      exact fun content _ p => Reading.texts_of_place inRule [] ls (p.past t) {}
    | statement t =>
      obtain ⟨f, hf⟩ := frame_entries hq hu ls v inRule
      exact ⟨f, fun content hcontent p => hf content hcontent (p.past t)⟩
    | brace opens =>
      obtain ⟨f, hf⟩ := frame_entry hq hu v inRule opens
      let behind := Segment.opensRule ⟨u ++ literal q [] ++ v, opens, {}⟩
      refine ⟨f.within [] ((entries behind (Reading.of {} [] ls).segments).flatMap Entry.texts), ?_⟩
      intro content hcontent p
      have hrefilled : Refilled q (u ++ literal q content ++ v) (u ++ literal q [] ++ v) :=
        .content v hu hcontent List.not_mem_nil
      have hrule : Segment.opensRule ⟨u ++ literal q content ++ v, opens, p⟩ = behind :=
        opensRule_of_entry ((correspondence_refilled hq).entry false opens trivial hrefilled)
      rw [Frame.fill_within, ← hf content hcontent p,
        Reading.texts_of_place behind [] ls {} (p.past (Lexeme.brace opens).text), ← hrule]
      rfl
    | unclosed t => exact ⟨.closed [], fun _ _ _ => rfl⟩
    | openStatement t => exact ⟨.closed [], fun _ _ _ => rfl⟩
    | faulty before offending fault => exact ⟨.closed [], fun _ _ _ => rfl⟩

end Lookahead

end

/-! ## Outside and in statements

  Two cases, by where the literal stands; a literal in a comment is none. -/

namespace Lookahead.Reading

variable {q : Char} {s t input input' : Text} {a : Assembly} {ls : List Lexeme} {p p' : Position}
  {records records' : List ImportRecord} {tree : Node}

/-- The texts of the tree when lexemes are read behind import statements. -/
theorem texts_of_answer_after (ha : a.Proper)
    (h : ((Reading.of p s ls).after records).answer input a = .ok tree) :
    tree.texts = a.listing.flatMap Entry.texts ++
      (entries a.inRule (Reading.of p s ls).segments).flatMap Entry.texts ++
        (records.map ImportRecord.statement ++
          (Reading.of {} [] ls).statements.map ImportRecord.statement) := by
  rw [texts_of_answer ha h, ← statements_of_place ls s [] p {}, ← List.map_append]
  rfl

/-- The same lexemes behind refilled texts give trees with one outline. -/
theorem outline_of_refilled (hq : isQuote q = true) (hrefilled : Refilled q s t) (ha : a.Proper)
    (hrecords : records.length = records'.length)
    (h : ((Reading.of p s ls).after records).answer input a = .ok tree) :
    ∃ tree', ((Reading.of p' t ls).after records').answer input' a = .ok tree' ∧
      tree'.outline = tree.outline := by
  have hagree : Agree .wordless .wordless (fun _ _ => True) a.inRule (Reading.of p s ls)
      (Reading.of p' t ls) := (correspondence_refilled hq).agree ls a.inRule trivial hrefilled
  have hstatements := congrArg List.length (statements_of_place ls s t p p')
  rw [List.length_map, List.length_map] at hstatements
  refine (hagree.after records records').outline ?_ ha h
  simp only [Reading.after, List.length_append, hrecords, hstatements]

end Lookahead.Reading

namespace Node

open Lookahead Scan

variable {q : Char} {u v old content begun : Text} {o : State.Outlook} {a : Assembly} {tree : Node}

/-- Outside, the reader goes on behind a literal with the literal pending. -/
theorem parse_literal (hrun : State.run u {} u = .ok (State.outside o)) (hb : o.blocks = a.blocks)
    (hsound : a.Sound) (hq : isQuote q = true) (hcontent : q ∉ content) :
    parse (u ++ literal q content ++ v) = ((Reading.of (o.position.past (literal q content))
      (o.pending ++ literal q content) (Lexeme.all v)).after o.records).answer
        (u ++ literal q content ++ v) a := by
  have hparse := State.parse_append_of_clear (v := literal q content ++ v) hrun hb hsound
    (State.clear_quote hq o.marks o.words _)
  rw [Lexeme.all_literal_append hq hcontent, Reading.of, ← List.append_assoc] at hparse
  exact hparse

/-- Outside, any content of a literal makes the same tree, but for the literal. -/
theorem refill_outside (hrun : State.run u {} u = .ok (State.outside o)) (hb : o.blocks = a.blocks)
    (hproper : a.Proper) (hpending : o.pending.Balanced) (hq : isQuote q = true) (hold : q ∉ old)
    (h : parse (u ++ literal q old ++ v) = .ok tree) :
    ∃ f : Frame, tree.texts = f.fill (literal q old.unbroken) ∧ ∀ new, q ∉ new →
      ∃ tree', parse (u ++ literal q new ++ v) = .ok tree' ∧ tree'.outline = tree.outline ∧
        tree'.texts = f.fill (literal q new.unbroken) := by
  have hparse : ∀ content, q ∉ content → _ := fun content hcontent =>
    parse_literal (v := v) hrun hb hproper.sound hq hcontent
  obtain ⟨f, hf⟩ := frame_entries hq hpending (Lexeme.all v) [] a.inRule
  let front := a.listing.flatMap Entry.texts
  let statements := o.records.map ImportRecord.statement ++
    (Reading.of {} [] (Lexeme.all v)).statements.map ImportRecord.statement
  have htexts : ∀ content, q ∉ content → ∀ tree, parse (u ++ literal q content ++ v) = .ok tree →
      tree.texts = (f.within front statements).fill (literal q content.unbroken) := by
    intro content hcontent tree h
    rw [hparse content hcontent] at h
    have hentries := hf content hcontent (o.position.past (literal q content))
    rw [List.append_nil] at hentries
    rw [Reading.texts_of_answer_after hproper h, Frame.fill_within, hentries]
  refine ⟨_, htexts old hold tree h, fun new hnew => ?_⟩
  rw [hparse old hold] at h
  have hrefilled : Refilled q (o.pending ++ literal q old) (o.pending ++ literal q new) := by
    have := Refilled.content [] hpending hold hnew
    rwa [List.append_nil, List.append_nil] at this
  obtain ⟨tree', h', houtline⟩ := Reading.outline_of_refilled hq hrefilled hproper rfl h
  rw [← hparse new hnew] at h'
  exact ⟨tree', h', houtline, htexts new hnew tree' h'⟩

/-- Inside a statement, the rest of an accepted text behind a literal ends the statement. -/
theorem closed_of_parse (hrun : State.run u {} u = .ok (State.inStatement begun none o))
    (hq : isQuote q = true) (hcontent : q ∉ content) (h : parse (u ++ literal q content ++ v) = .ok tree) :
    ¬ Imports.keyword <:+: content ∧ '\n' ∉ content ∧
      ∃ b rest, StatementEnd.of none v = .closed b rest := by
  have hclear : ¬ Straddles Imports.keyword o.words (literal q content ++ v) :=
    not_straddles_cons (notMem_marks_of_isQuote hq).2.2 _ _
  by_contra hnot
  have hopen : ∀ body rest, StatementEnd.of none (literal q content ++ v) ≠ .closed body rest := by
    intro body rest hbody
    obtain ⟨hkeyword, hfeed, b, hend, -⟩ := (StatementEnd.closed_literal_iff hq hcontent).mp hbody
    exact hnot ⟨hkeyword, hfeed, b, rest, hend⟩
  obtain ⟨failure, hfailure⟩ := State.parse_append_of_not_closed hrun hclear hopen
  rw [← List.append_assoc] at hfailure
  exact absurd (h.symm.trans hfailure) (by simp)

/-- Inside a statement, the reader goes on where the rest behind the literal ends the statement. -/
theorem parse_literal_inStatement {b rest : Text}
    (hrun : State.run u {} u = .ok (State.inStatement begun none o)) (hb : o.blocks = a.blocks)
    (hsound : a.Sound) (hq : isQuote q = true) (hcontent : q ∉ content) (hfeed : '\n' ∉ content)
    (hkeyword : ¬ Imports.keyword <:+: content) (hend : StatementEnd.of none v = .closed b rest) :
    parse (u ++ literal q content ++ v) =
      ((Reading.of (o.position.past (literal q content ++ b)) o.pending (Lexeme.all rest)).after
        (o.records ++ [⟨begun ++ (literal q content ++ b),
          (o.position.past (literal q content ++ b)).line⟩])).answer (u ++ literal q content ++ v) a := by
  have hbody := (StatementEnd.closed_literal_iff hq hcontent).mpr ⟨hkeyword, hfeed, b, hend, rfl⟩
  rw [List.append_assoc]
  exact State.parse_append_of_closed hrun hb hsound
    (not_straddles_cons (notMem_marks_of_isQuote hq).2.2 _ _) hbody

/-- Inside a statement, any content of a literal but the keyword or a line feed makes the same tree, but for
the literal. -/
theorem refill_inStatement (hrun : State.run u {} u = .ok (State.inStatement begun none o))
    (hb : o.blocks = a.blocks) (hproper : a.Proper) (hq : isQuote q = true) (hold : q ∉ old)
    (h : parse (u ++ literal q old ++ v) = .ok tree) :
    ∃ f : Frame, tree.texts = f.fill (literal q old) ∧ ∀ new, q ∉ new → '\n' ∉ new →
      ((∃ tree', parse (u ++ literal q new ++ v) = .ok tree' ∧ tree'.outline = tree.outline ∧
        tree'.texts = f.fill (literal q new)) ↔ ¬ Imports.keyword <:+: new) := by
  obtain ⟨hkeyword, hfeed, b, rest, hend⟩ := closed_of_parse hrun hq hold h
  let front := a.listing.flatMap Entry.texts ++ (Lookahead.entries a.inRule
    (Reading.of {} o.pending (Lexeme.all rest)).segments).flatMap Entry.texts ++
      o.records.map ImportRecord.statement
  let behind := (Reading.of {} [] (Lexeme.all rest)).statements.map ImportRecord.statement
  -- The frame is read off the front, the statement and what is behind: none of them depends on the
  -- content.
  have htexts : ∀ content, q ∉ content → '\n' ∉ content → ¬ Imports.keyword <:+: content → ∀ tree,
      parse (u ++ literal q content ++ v) = .ok tree →
        tree.texts = (Frame.gap front begun b behind).fill (literal q content) := by
    intro content hcontent hfeed hkeyword tree h
    rw [parse_literal_inStatement hrun hb hproper.sound hq hcontent hfeed hkeyword hend] at h
    rw [Reading.texts_of_answer_after hproper h, Reading.texts_of_place a.inRule o.pending _ _ {}]
    simp [Frame.fill, front, behind]
  refine ⟨_, htexts old hold hfeed hkeyword tree h, fun new hnew hfeed' => ?_⟩
  constructor
  · rintro ⟨tree', h', -, -⟩
    exact (closed_of_parse hrun hq hnew h').1
  · intro hkeyword'
    -- Conversely the two readings differ in one record only, and the outline does not see its text.
    rw [parse_literal_inStatement hrun hb hproper.sound hq hold hfeed hkeyword hend] at h
    have hlength : ∀ r r' : ImportRecord, (o.records ++ [r]).length = (o.records ++ [r']).length := by simp
    obtain ⟨tree', h', houtline⟩ :=
      Reading.outline_of_refilled hq (Refilled.same o.pending) hproper (hlength _ _) h
    rw [← parse_literal_inStatement hrun hb hproper.sound hq hnew hfeed' hkeyword' hend] at h'
    exact ⟨tree', h', houtline, htexts new hnew hfeed' hkeyword' tree' h'⟩

/-! ## Trees

  Both cases as one theorem, with the condition that the second of them needs. -/

variable {s : State}

/-- A literal that is closed, outside of comments: with any other content without line breaks the text has
the same tree, lines apart, but for the content where the tree keeps the literal — unless the literal stands
in an import statement and the new content has the keyword, which breaks the statement. -/
theorem parse_literal_iff (hrun : State.run u {} u = .ok s) (hcomment : s.comments.active = false)
    (hquote : s.cursor.quote = none) (hq : isQuote q = true) (hold : q ∉ old)
    (h : parse (u ++ literal q old ++ v) = .ok tree) :
    ∃ f : Frame, tree.texts = f.fill (literal q (if s.imports.active then old else old.unbroken)) ∧
      ∀ new, q ∉ new → (∀ c ∈ new, isLineBreak c = false) →
        ((∃ tree', parse (u ++ literal q new ++ v) = .ok tree' ∧ tree'.outline = tree.outline ∧
            tree'.texts = f.fill (literal q new)) ↔
          ¬ (s.imports.active = true ∧ Imports.keyword <:+: new)) := by
  -- Outside a comment and a literal the scan is between statements or inside one; only inside one
  -- is the keyword looked for.
  rcases (State.reached_start.run hrun).outside_or_inStatement hcomment hquote with
    ⟨o, rfl, ⟨a, hb, hproper⟩, hpending⟩ | ⟨begun, o, rfl, a, hb, hproper⟩
  · obtain ⟨f, htexts, hnew⟩ := refill_outside hrun hb hproper hpending hq hold h
    have hactive : (State.outside o).imports.active = false := rfl
    refine ⟨f, htexts, fun new hmem hbreaks => ?_⟩
    have hfill := hnew new hmem
    rw [unbroken_eq_self hbreaks] at hfill
    simp only [hactive, Bool.false_eq_true, false_and, not_false_eq_true, iff_true]
    exact hfill
  · obtain ⟨f, htexts, hnew⟩ := refill_inStatement hrun hb hproper hq hold h
    have hactive : (State.inStatement begun none o).imports.active = true := rfl
    refine ⟨f, htexts, fun new hmem hbreaks => ?_⟩
    have hfeed : '\n' ∉ new := fun hfeed => absurd (hbreaks '\n' hfeed) (by decide)
    rw [hnew new hmem hfeed, hactive]
    simp

/-- A rule with a brace in a literal, and the start of an import statement. -/
def startOfImport : Text := ".a\x7bx:'\x7d'\x7d@import ".toList

/-- Where a scan stands behind that text. -/
def stateInImport : State where
  cursor := { index := 17 }
  comments := ⟨false, ['t', ' ']⟩
  imports := ⟨some "@import ".toList, [' '], []⟩
  blocks := { sheet := .block 0 [] .sheet 0 [.rule 1 [] [".a".toList] ["x:'\x7d'".toList]] }

/-- The tree when a literal with `b` in it and a semicolon follow. -/
def importedSheet : Node :=
  .block 0 [] .sheet 0 [.rule 1 [] [".a".toList] ["x:'\x7d'".toList],
    .importStatement 1 [] "@import \"b\";".toList]

/-- The other quote, braces, a semicolon, the marks of comments, and most of the keyword. -/
def marksInLiteral : Text := "/*\x7b';\x7d,*/@impor".toList

/-- A literal in an import statement may hold all that but the whole keyword. -/
theorem parse_literal_iff_startOfImport :
    State.run startOfImport {} startOfImport = .ok stateInImport ∧
    stateInImport.comments.active = false ∧ stateInImport.cursor.quote = none ∧
    parse (startOfImport ++ literal '"' ['b'] ++ [';']) = .ok importedSheet ∧
    ∃ f : Frame, importedSheet.texts = f.fill (literal '"' ['b']) ∧
      (∃ tree', parse (startOfImport ++ literal '"' marksInLiteral ++ [';']) = .ok tree' ∧
        tree'.outline = importedSheet.outline ∧ tree'.texts = f.fill (literal '"' marksInLiteral)) ∧
      ¬ ∃ tree', parse (startOfImport ++ literal '"' Imports.keyword ++ [';']) = .ok tree' ∧
        tree'.outline = importedSheet.outline ∧ tree'.texts = f.fill (literal '"' Imports.keyword) := by
  have hrun : State.run startOfImport {} startOfImport = .ok stateInImport := by decide +kernel
  have hparse : parse (startOfImport ++ literal '"' ['b'] ++ [';']) = .ok importedSheet := by
    decide +kernel
  obtain ⟨f, htexts, hnew⟩ := parse_literal_iff hrun rfl rfl (by decide) (by decide) hparse
  refine ⟨hrun, rfl, rfl, hparse, f, htexts, ?_, ?_⟩
  · exact (hnew marksInLiteral (by decide) (by decide)).mpr (by decide +kernel)
  · rw [hnew Imports.keyword (by decide) (by decide)]
    exact fun h => h ⟨rfl, List.infix_rfl⟩

end Node

end StyleFold
