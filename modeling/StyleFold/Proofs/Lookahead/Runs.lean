/-
  Runs — the scan over one whole lexeme.

  What the reader decides by looking ahead the scan finds out while it reads.  For each kind of lexeme
  a theorem of this module runs the scan from its first character to its last, by induction on the
  text that the lookahead cuts: it is outside again, nothing straddles, and the outlook has moved as
  the reader says.

  Each of these runs begins where a lexeme begins.  The filters have no more than the last characters to
  go by, so while the lookahead cuts the text at once, the scan has to be followed through states in
  which a mark is only partly there.

  1. **Clear windows** — nothing straddles, for all three marks at once.
  2. **Plain characters**, 3. **literals**, 4. **comments**, 5. **statements**.
-/
import StyleFold.Proofs.Lookahead.Lexing
import StyleFold.Proofs.Lookahead.Modes

namespace StyleFold.Scan.State

open Lookahead

variable {input : Text}

/-- A run goes on behind a character that is read. -/
theorem run_cons_of_ok {s s' : State} {c : Char} (h : s.read c = .ok s') (t : Text) :
    run input s (c :: t) = run input s' t := by rw [run, h]

/-- A run ends at a character that is refused, and fails where the scan looked at it. -/
theorem run_cons_of_error {s : State} {c : Char} {fault : Fault} (h : s.read c = .error fault)
    (t : Text) : run input s (c :: t) = .error ((s.look c).cursor.failure input fault) := by
  rw [run, h]

/-- A text that is read is read one character after another. -/
theorem run_cons_eq_ok {s s' : State} {c : Char} {t : Text} (h : run input s (c :: t) = .ok s') :
    ∃ next, s.read c = .ok next ∧ run input next t = .ok s' := by
  cases hread : s.read c with
  | error fault =>
    rw [run_cons_of_error hread] at h
    exact absurd h (by simp)
  | ok next =>
    rw [run_cons_of_ok hread] at h
    exact ⟨next, rfl, h⟩

/-! ## Clear windows

  The scan is ready for the next lexeme when no mark that has begun can still be completed. -/

/-- No mark begins in the windows and ends in the text ahead. -/
structure Clear (marks words ahead : Text) : Prop where
  openMark : ¬ Text.Straddles Comments.openMark marks ahead
  closeMark : ¬ Text.Straddles Comments.closeMark marks ahead
  keyword : ¬ Text.Straddles Imports.keyword words ahead

/-- Empty windows are clear whatever is ahead. -/
theorem Clear.nil (ahead : Text) : Clear [] [] ahead :=
  ⟨Text.not_straddles_nil _ _, Text.not_straddles_nil _ _, Text.not_straddles_nil _ _⟩

/-- Where the windows are clear, the next character is quiet. -/
theorem Clear.quiet {o : Outlook} {c : Char} {t : Text} (h : Clear o.marks o.words (c :: t)) :
    o.Quiet c where
  open_ne := Text.remember_ne_of_not_straddles (by decide) h.openMark
  close_ne := Text.remember_ne_of_not_straddles (by decide) h.closeMark
  keyword_ne := Text.remember_ne_of_not_straddles (by decide) h.keyword

/-- They are clear behind it too, unless a mark stood ahead. -/
theorem Clear.remember {marks words t : Text} {c : Char} (h : Clear marks words (c :: t))
    (hm : ¬ MarkAhead (c :: t)) : Clear (marks.remember 2 c) (words.remember 7 c) t where
  openMark := Text.not_straddles_remember h.openMark fun ho => hm (.inl ho)
  closeMark := Text.not_straddles_remember h.closeMark fun hc => hm (.inr (.inl hc))
  keyword := Text.not_straddles_remember h.keyword fun hk => hm (.inr (.inr hk))

/-- Whether the character occurs in a mark. -/
def inMarks (c : Char) : Bool :=
  Comments.openMark.contains c || Comments.closeMark.contains c || Imports.keyword.contains c

/-- Behind a character of no mark the windows are clear. -/
theorem clear_of_not_inMarks {c : Char} (h : inMarks c = false) (marks words ahead : Text) :
    Clear (marks.remember 2 c) (words.remember 7 c) ahead := by
  simp only [inMarks, Bool.or_eq_false_iff, List.contains_eq_mem, decide_eq_false_iff_not] at h
  exact ⟨Text.not_straddles_of_notMem h.1.1 ahead, Text.not_straddles_of_notMem h.1.2 ahead,
    Text.not_straddles_of_notMem h.2 ahead⟩

/-- No mark has a quote. -/
theorem not_inMarks_of_isQuote {c : Char} (h : isQuote c = true) : inMarks c = false := by
  simp only [isQuote, Bool.or_eq_true, beq_iff_eq] at h
  rcases h with rfl | rfl <;> decide

/-! ## Plain characters

  Characters of a mark may stand in plain text; they are pending like the others until the mark is
  complete. -/

/-- The outlook when both filters were shown a text. -/
def Outlook.shownAll (o : Outlook) (u : Text) : Outlook :=
  { o with
    position := o.position.past u
    marks := u.foldl (Text.remember 2) o.marks
    words := u.foldl (Text.remember 7) o.words }

/-- The outlook when a text was shown and is pending. -/
def Outlook.pushAll (o : Outlook) (u : Text) : Outlook :=
  { o.shownAll u with pending := o.pending ++ u }

/-- Pending text passes through the window of the import filter. -/
theorem Outlook.words_pushAll (o : Outlook) (u : Text) :
    (o.pushAll u).words = u.foldl (Text.remember 7) o.words := rfl

/-- So does text that is shown only. -/
theorem Outlook.words_shownAll (o : Outlook) (u : Text) :
    (o.shownAll u).words = u.foldl (Text.remember 7) o.words := rfl

/-- The window of the import filter when all of the keyword but its last character was shown. -/
theorem remember_keyword (words : Text) :
    (Imports.keywordStart.foldl (Text.remember 7) words).remember 7 't' = Imports.keyword := by
  rw [Text.remember_foldl_eq (show Imports.keywordStart.length + 1 = 7 from rfl)]
  rfl

/-- Characters that end no mark and mean nothing by themselves are pending, one after another. -/
theorem run_outside_plain {rest : Text} : ∀ {u : Text} {o : Outlook},
    (∀ c ∈ u, isQuote c = false ∧ c ≠ '{' ∧ c ≠ '}' ∧ c ≠ '*' ∧ c ≠ '/' ∧ c ≠ 't') →
      run input (outside o) (u ++ rest) = run input (outside (o.pushAll u)) rest
  | [], o, _ => by simp [Outlook.pushAll, Outlook.shownAll]
  | c :: u, o, h => by
    obtain ⟨hq, ho, hc, hstar, hslash, ht⟩ := h c List.mem_cons_self
    have hquiet : o.Quiet c :=
      ⟨Text.remember_ne_of_getLast? (by decide) (by simpa [Comments.openMark] using Ne.symm hstar),
        Text.remember_ne_of_getLast? (by decide) (by simpa [Comments.closeMark] using Ne.symm hslash),
        Text.remember_ne_of_getLast? (by decide) (by simpa [Imports.keyword] using Ne.symm ht)⟩
    rw [List.cons_append, run_cons_of_ok (read_outside_plain hquiet hq ho hc),
      run_outside_plain fun d hd => h d (List.mem_cons_of_mem c hd)]
    simp [Outlook.push, Outlook.shown, Outlook.pushAll, Outlook.shownAll]

/-! ## Literals

  No window fills up in a literal so as to matter, since the filters are not free there. -/

/-- A literal that is closed is pending text with its quotes. -/
theorem run_inLiteral_of_closed (input : Text) {q : Char} (hq : isQuote q = true) :
    ∀ {t body rest : Text} {o : Outlook}, through? [q] t = some (body, rest) →
      ∃ marks words, (∀ ahead, Clear marks words ahead) ∧
        run input (inLiteral q o) t = run input (outside
          { o with
            position := o.position.past body
            pending := o.pending ++ body
            marks, words }) rest
  | [], _, _, _, h => by simp [through?] at h
  | c :: t, body, rest, o, h => by
    -- The quote itself ends the literal. It belongs to no mark, so no window is left half full.
    rcases through?_cons h with ⟨rfl, he⟩ | ⟨hm, b, hcut, rfl⟩
    · obtain ⟨rfl, rfl⟩ : q = c ∧ rest = t := by simpa using he
      exact ⟨_, _, clear_of_not_inMarks (not_inMarks_of_isQuote hq) o.marks o.words,
        run_cons_of_ok (read_inLiteral_end hq) rest⟩
    · have hc : c ≠ q := by
        rintro rfl
        exact hm (List.prefix_append [c] t)
      obtain ⟨marks, words, hclear, hrun⟩ := run_inLiteral_of_closed input hq (o := o.push c) hcut
      refine ⟨marks, words, hclear, ?_⟩
      rw [run_cons_of_ok (read_inLiteral_inside hc), hrun]
      simp [Outlook.push, Outlook.shown]

/-- A literal that is not closed swallows the rest of the text. -/
theorem run_inLiteral_of_unclosed (input : Text) {q : Char} : ∀ {t : Text} {o : Outlook}, through? [q] t = none →
    ∃ o', o'.position = o.position.past t ∧ o'.blocks = o.blocks ∧ o'.records = o.records ∧
      run input (inLiteral q o) t = .ok (inLiteral q o')
  | [], o, _ => ⟨o, (Position.past_nil _).symm, rfl, rfl, rfl⟩
  | c :: t, o, h => by
    have hc : q ≠ c := by
      rintro rfl
      simp [through?] at h
    have hcut : through? [q] t = none := by simpa [through?, hc] using h
    obtain ⟨o', hp, hb, hr, hrun⟩ := run_inLiteral_of_unclosed input (o := o.push c) hcut
    refine ⟨o', ?_, hb, hr, ?_⟩
    · rw [hp]
      simp [Outlook.push, Outlook.shown]
    · rw [run_cons_of_ok (read_inLiteral_inside (Ne.symm hc)), hrun]

/-! ## Comments

  The opening mark was pending, and is taken off when it is complete. -/

/-- The opening mark begins a comment and leaves nothing pending. -/
theorem run_outside_openMark (input : Text) {o : Outlook} {t : Text}
    (h : Clear o.marks o.words (Comments.openMark ++ t)) :
    ∃ words, run input (outside o) (Comments.openMark ++ t) = run input (inComment
      { o with position := o.position.past Comments.openMark, marks := [], words }) t := by
  have hfirst : (outside o).read '/' = .ok (outside (o.push '/')) :=
    read_outside_plain h.quiet (by decide) (by decide) (by decide)
  have hmark : (o.push '/').marks.remember 2 '*' = Comments.openMark :=
    Text.remember_foldl_eq (t := ['/']) rfl o.marks
  refine ⟨((o.push '/').words.remember 7 '*'), ?_⟩
  show run input (outside o) ('/' :: '*' :: t) = _
  rw [run_cons_of_ok hfirst, run_cons_of_ok (read_outside_openMark hmark)]
  simp [Outlook.push, Outlook.shown, Text.dropSuffix_append, Comments.openMark]

/-- A comment that is closed drops what was pending before it. -/
theorem run_inComment_of_closed (input : Text) : ∀ {t body rest : Text} {o : Outlook},
    through? Comments.closeMark t = some (body, rest) →
      ¬ Text.Straddles Comments.closeMark o.marks t →
      ∃ marks words, (∀ ahead, Clear marks words ahead) ∧
        run input (inComment o) t = run input (outside
          { o with position := o.position.past body, pending := [], marks, words }) rest
  | [], _, _, _, h, _ => by simp [through?] at h
  | c :: t, body, rest, o, h, hs => by
    rcases through?_cons h with ⟨rfl, he⟩ | ⟨hm, b, hcut, rfl⟩
    · obtain ⟨rfl, rfl⟩ : '*' = c ∧ '/' :: rest = t := by simpa [Comments.closeMark] using he
      have hstar : o.marks.remember 2 '*' ≠ Comments.closeMark :=
        Text.remember_ne_of_getLast? (by decide) (by decide)
      have hmark : (o.shown '*').marks.remember 2 '/' = Comments.closeMark :=
        Text.remember_foldl_eq (t := ['*']) rfl o.marks
      refine ⟨[], (o.shown '*').words.remember 7 '/', fun ahead => ?_, ?_⟩
      · -- the window of marks was emptied, and the slash is no character of the keyword
        exact ⟨Text.not_straddles_nil _ _, Text.not_straddles_nil _ _,
          Text.not_straddles_of_notMem (by decide) ahead⟩
      · rw [run_cons_of_ok (read_inComment_inside hstar),
          run_cons_of_ok (read_inComment_end hmark)]
        simp [Outlook.shown, Comments.closeMark]
    · obtain ⟨marks, words, hclear, hrun⟩ := run_inComment_of_closed input (o := o.shown c) hcut
        (Text.not_straddles_remember hs hm)
      refine ⟨marks, words, hclear, ?_⟩
      rw [run_cons_of_ok
        (read_inComment_inside (Text.remember_ne_of_not_straddles (by decide) hs)), hrun]
      simp [Outlook.shown]

/-- A comment that is not closed swallows the rest of the text. -/
theorem run_inComment_of_unclosed (input : Text) : ∀ {t : Text} {o : Outlook},
    through? Comments.closeMark t = none → ¬ Text.Straddles Comments.closeMark o.marks t →
      ∃ o', o'.position = o.position.past t ∧ o'.blocks = o.blocks ∧ o'.records = o.records ∧
        run input (inComment o) t = .ok (inComment o')
  | [], o, _, _ => ⟨o, (Position.past_nil _).symm, rfl, rfl, rfl⟩
  | c :: t, o, h, hs => by
    have hpre : Comments.closeMark.isPrefixOf (c :: t) = false :=
      Bool.eq_false_iff.mpr fun hp => by simp [through?, hp] at h
    have hm : ¬ Comments.closeMark <+: c :: t := fun hp =>
      Bool.eq_false_iff.mp hpre (List.isPrefixOf_iff_prefix.mpr hp)
    have hcut : through? Comments.closeMark t = none := by simpa [through?, hpre] using h
    -- The mark is not in front, and it straddles the next place only if it does this one.
    obtain ⟨o', hp, hb, hr, hrun⟩ := run_inComment_of_unclosed input (o := o.shown c) hcut
      (Text.not_straddles_remember hs hm)
    refine ⟨o', ?_, hb, hr, ?_⟩
    · rw [hp]
      simp [Outlook.shown]
    · rw [run_cons_of_ok
        (read_inComment_inside (Text.remember_ne_of_not_straddles (by decide) hs)), hrun]

/-! ## Statements

  The same with the keyword; inside, the filter looks for the semicolon and for two faults. -/

/-- The keyword begins a statement and leaves what was pending before it. -/
theorem run_outside_keyword (input : Text) (o : Outlook) (t : Text) :
    ∃ marks, run input (outside o) (Imports.keyword ++ t) = run input
      (inStatement Imports.keyword none
        { o with position := o.position.past Imports.keyword, marks, words := [] }) t := by
  refine ⟨(o.pushAll Imports.keywordStart).marks.remember 2 't', ?_⟩
  show run input (outside o) (Imports.keywordStart ++ 't' :: t) = _
  have hkey : (o.pushAll Imports.keywordStart).words.remember 7 't' = Imports.keyword := by
    rw [Outlook.words_pushAll, remember_keyword]
  rw [run_outside_plain (by decide), run_cons_of_ok (read_outside_keyword hkey)]
  simp [Outlook.shown, Outlook.pushAll, Outlook.shownAll, Text.dropSuffix_append, Imports.keyword,
    Imports.keywordStart]

/-- Characters that end no statement are collected. -/
theorem run_inStatement_plain {rest : Text} : ∀ {u begun : Text} {q : Quote} {o : Outlook},
    (∀ c ∈ u, c ≠ 't' ∧ c ≠ '\n' ∧ c ≠ ';') →
      run input (inStatement begun q o) (u ++ rest) =
        run input (inStatement (begun ++ u) (q.after u) (o.shownAll u)) rest
  | [], begun, q, o, _ => by simp [Outlook.shownAll]
  | c :: u, begun, q, o, h => by
    obtain ⟨ht, hn, hs⟩ := h c List.mem_cons_self
    have hk : o.words.remember 7 c ≠ Imports.keyword :=
      Text.remember_ne_of_getLast? (by decide) (by simpa [Imports.keyword] using Ne.symm ht)
    rw [List.cons_append, run_cons_of_ok (read_inStatement_inside hk hn fun hc => hs hc.1),
      run_inStatement_plain fun d hd => h d (List.mem_cons_of_mem c hd)]
    simp [Outlook.shown, Outlook.shownAll]

/-- The keyword inside a statement is a fault at its last character. -/
theorem run_inStatement_keyword {begun : Text} {q : Quote} {o : Outlook} (t : Text) :
    run input (inStatement begun q o) (Imports.keyword ++ t) =
      .error (.locate .missingSemicolon input (o.position.past Imports.keywordStart).index
        ((o.position.past Imports.keywordStart).of 't').line) := by
  have hkey : (o.shownAll Imports.keywordStart).words.remember 7 't' = Imports.keyword := by
    rw [Outlook.words_shownAll, remember_keyword]
  show run input (inStatement begun q o) (Imports.keywordStart ++ 't' :: t) = _
  rw [run_inStatement_plain (by decide),
    run_cons_of_error (read_inStatement_broken (.inr hkey)), look_inStatement]
  rfl

/-- The keyword is not ahead where the reader does not see it. -/
theorem not_prefix_of_keyword {t : Text} (h : Imports.keyword.isPrefixOf t = false) :
    ¬ Imports.keyword <+: t := fun hp =>
  Bool.eq_false_iff.mp h (List.isPrefixOf_iff_prefix.mpr hp)

/-- A character behind which a statement goes on is collected. -/
theorem run_inStatement_inside {begun : Text} {q : Quote} {o : Outlook} {c : Char} {t : Text}
    (hs : ¬ Text.Straddles Imports.keyword o.words (c :: t)) (hn : c ≠ '\n')
    (he : ¬ (c = ';' ∧ q.next c = none)) :
    run input (inStatement begun q o) (c :: t) =
      run input (inStatement (begun ++ [c]) (q.next c) (o.shown c)) t :=
  run_cons_of_ok (read_inStatement_inside (Text.remember_ne_of_not_straddles (by decide) hs) hn he) t

/-- A statement that is closed is recorded, and what was pending before it stays pending. -/
theorem run_inStatement_of_closed (input : Text) : ∀ (begun : Text) {t body rest : Text} {q : Quote}
    {o : Outlook}, StatementEnd.of q t = .closed body rest → ¬ Text.Straddles Imports.keyword o.words t →
      ∃ marks words, (∀ ahead, Clear marks words ahead) ∧
        run input (inStatement begun q o) t = run input (outside
          { o with
            position := o.position.past body
            records := o.records ++ [⟨begun ++ body, (o.position.past body).line⟩]
            marks, words }) rest
  | _, [], _, _, _, _, h, _ => by simp [StatementEnd.of] at h
  | begun, c :: t, body, rest, q, o, h, hs => by
    obtain ⟨hk, hn, ⟨⟨rfl, hq⟩, rfl, rfl⟩ | ⟨hend, b, he, rfl⟩⟩ := StatementEnd.closed_cons h
    · refine ⟨o.marks.remember 2 ';', [], fun ahead => ?_, ?_⟩
      · -- no mark has a semicolon, and the window of words was emptied
        exact ⟨Text.not_straddles_of_notMem (by decide) ahead,
          Text.not_straddles_of_notMem (by decide) ahead, Text.not_straddles_nil _ _⟩
      · rw [run_cons_of_ok (read_inStatement_end hq)]
        simp [Outlook.shown, Position.past]
    · obtain ⟨marks, words, hclear, hrun⟩ := run_inStatement_of_closed input (begun ++ [c])
        (o := o.shown c) he (Text.not_straddles_remember hs hk)
      refine ⟨marks, words, hclear, ?_⟩
      rw [run_inStatement_inside hs hn hend, hrun]
      simp [Outlook.shown]

/-- A statement that is broken is a fault at the character that breaks it. -/
theorem run_inStatement_of_broken : ∀ {t before begun : Text} {q : Quote} {o : Outlook} {d : Char},
    StatementEnd.of q t = .broken before d → ¬ Text.Straddles Imports.keyword o.words t →
      run input (inStatement begun q o) t =
        .error (.locate .missingSemicolon input (o.position.past before).index
          ((o.position.past before).of d).line)
  | [], _, _, _, _, _, h, _ => by simp [StatementEnd.of] at h
  | c :: t, before, begun, q, o, d, h, hs => by
    rw [StatementEnd.of] at h
    split at h
    · rename_i hk
      obtain ⟨rfl, rfl⟩ : Imports.keywordStart = before ∧ 't' = d := by simpa using h
      obtain ⟨rest, hrest⟩ := List.isPrefixOf_iff_prefix.mp hk
      rw [← hrest, run_inStatement_keyword]
    · rename_i hk
      split at h
      · rename_i hn
        obtain ⟨rfl, rfl⟩ : [] = before ∧ c = d := by simpa using h
        subst hn
        rw [run_cons_of_error (read_inStatement_broken (.inl rfl)), look_inStatement]
        rfl
      · rename_i hn
        split at h
        · simp at h
        · rename_i hend
          cases he : StatementEnd.of (q.next c) t with
          | closed b r => rw [he] at h; simp [StatementEnd.behind] at h
          | broken b e =>
            rw [he] at h
            obtain ⟨rfl, rfl⟩ : c :: b = before ∧ e = d := by
              simpa [StatementEnd.behind] using h
            -- No keyword straddles the next place either, for none begins at this one.
            rw [run_inStatement_inside hs hn hend, run_inStatement_of_broken he
              (Text.not_straddles_remember hs (not_prefix_of_keyword (Bool.eq_false_iff.mpr hk)))]
            simp [Outlook.shown]
          | unfinished => rw [he] at h; simp [StatementEnd.behind] at h

/-- A statement that is not closed swallows the rest of the text. -/
theorem run_inStatement_of_unfinished (input : Text) : ∀ (begun : Text) {t : Text} {q : Quote}
    {o : Outlook}, StatementEnd.of q t = .unfinished → ¬ Text.Straddles Imports.keyword o.words t →
      ∃ begun' q' o', o'.position = o.position.past t ∧ o'.blocks = o.blocks ∧
        run input (inStatement begun q o) t = .ok (inStatement begun' q' o')
  | begun, [], q, o, _, _ => ⟨begun, q, o, (Position.past_nil _).symm, rfl, rfl⟩
  | begun, c :: t, q, o, h, hs => by
    rw [StatementEnd.of] at h
    split at h
    · simp at h
    · rename_i hk
      split at h
      · simp at h
      · rename_i hn
        split at h
        · simp at h
        · rename_i hend
          cases he : StatementEnd.of (q.next c) t with
          | closed b r => rw [he] at h; simp [StatementEnd.behind] at h
          | broken b e => rw [he] at h; simp [StatementEnd.behind] at h
          | unfinished =>
            obtain ⟨begun', q', o', hp, hb, hrun⟩ := run_inStatement_of_unfinished input
              (begun ++ [c]) (o := o.shown c) he
              (Text.not_straddles_remember hs (not_prefix_of_keyword (Bool.eq_false_iff.mpr hk)))
            refine ⟨begun', q', o', ?_, hb, ?_⟩
            · rw [hp]
              simp [Outlook.shown]
            · rw [run_inStatement_inside hs hn hend, hrun]

end StyleFold.Scan.State
