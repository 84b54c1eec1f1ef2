/-
  Reachable — the states that a scan comes to, and a scan that goes on from one of them.

  Not every state is one that a scan comes to: windows, pending text and blocks could contradict each
  other. In reached states they do not, and reached states are where a scan may be cut into two.

  1. **Backed windows** — what a window holds of the front of a mark is still pending, so taking a mark
     back always finds it, and where only blank text is pending nothing straddles.
  2. **Founded blocks** — the open blocks of a scan are those of a proper assembly.
  3. **Reached states** — every state is in one of the four modes, with founded blocks, and backed windows
     outside; all literals in the pending text are closed but one that is still open.  One character keeps
     this (`Reached.read`), so a whole text does (`Reached.run`).
  4. **Going on** — the scan of a text in two parts is the scan of the second part from the state behind
     the first; if that state is outside and its windows are clear, the reader may begin there, and if it is
     inside a statement, the reader may begin where the statement ends.
-/
import StyleFold.Proofs.Lookahead.Entries

namespace StyleFold

/-! ## Backed windows

  A window outlives the text that it has seen; that taking a mark off the pending text always finds the
  mark is what being backed is for. -/

namespace Text

variable {mark window pending : Text} {c : Char} {limit : Nat}

/-- Whatever part of `mark` ends the window, with the rest of the mark to come, ends the pending text. -/
def Backed (mark window pending : Text) : Prop :=
  ∀ a b, a ≠ [] → b ≠ [] → a ++ b = mark → a <:+ window → a <:+ pending

/-- An empty window is backed by anything. -/
theorem backed_nil : Backed mark [] pending := fun _ _ ha _ _ h => absurd (List.suffix_nil.mp h) ha

/-- A character that is shown and pending keeps the window backed. -/
theorem Backed.push (h : Backed mark window pending) :
    Backed mark (window.remember limit c) (pending ++ [c]) := by
  intro a b ha hb hab hwindow
  obtain ⟨a', rfl, ha'⟩ :=
    eq_append_of_suffix_append ha (hwindow.trans (remember_suffix limit window c))
  rcases List.eq_nil_or_concat a' with rfl | ⟨_, _, hne⟩
  · exact List.suffix_append pending [c]
  · have hne' : a' ≠ [] := by
      rw [hne]
      simp
    have hpending := h a' (c :: b) hne' (List.cons_ne_nil c b) (by rw [← hab]; simp) ha'
    obtain ⟨u, hu⟩ := hpending
    exact ⟨u, by rw [← hu, List.append_assoc]⟩

/-- A character that is not in the mark leaves nothing of it in the window. -/
theorem backed_of_notMem (hc : c ∉ mark) : Backed mark (window.remember limit c) pending := by
  intro a b ha _ hab hwindow
  obtain ⟨a', rfl, -⟩ :=
    eq_append_of_suffix_append ha (hwindow.trans (remember_suffix limit window c))
  exact absurd (hab ▸ by simp) hc

/-- Where only blank characters are pending no mark straddles. -/
theorem Backed.not_straddles (h : Backed mark window pending) (hblank : pending.Blank)
    (hmark : ∀ c ∈ mark, isBlank c = false) (ahead : Text) : ¬ Straddles mark window ahead := by
  rintro ⟨a, b, ha, hb, hab, hwindow, -⟩
  obtain ⟨c, hc⟩ := List.exists_mem_of_ne_nil a ha
  have hpending := hblank c ((h a b ha hb hab hwindow).subset hc)
  rw [hmark c (hab ▸ List.mem_append_left b hc)] at hpending
  exact absurd hpending (by decide)

/-- A window that is a mark was filled by the last character of the mark. -/
theorem getLast?_of_remember (hne : mark ≠ []) (h : window.remember limit c = mark) :
    mark.getLast? = some c := by
  by_contra hlast
  exact remember_ne_of_getLast? hne hlast h

/-- A mark without quotes that is taken off leaves all literals closed. -/
theorem Balanced.dropSuffix {t : Text} (h : t.Balanced) (hmark : ∀ c ∈ mark, isQuote c = false) :
    (t.dropSuffix mark).Balanced := by
  unfold Text.dropSuffix
  split
  · rename_i hsuffix
    obtain ⟨u, rfl⟩ := List.isSuffixOf_iff_suffix.mp hsuffix
    have htake : (u ++ mark).take ((u ++ mark).length - mark.length) = u := by simp
    have hthinned := (Thinned.refl u).append (Thinned.of_no_quotes hmark)
    rw [List.append_nil] at hthinned
    rw [htake]
    exact hthinned.balanced_iff.mpr h
  · exact h

end Text

/-! ## Founded blocks

  What the open blocks of a scan and a proper assembly have in common. -/

/-- Whether the open blocks are those of a proper assembly. -/
def Blocks.Founded (b : Blocks) : Prop := ∃ a : Lookahead.Assembly, b = a.blocks ∧ a.Proper

/-! ## Reached states

  One clause for each mode, with the invariants that hold in it. -/

namespace Scan.State

open Lookahead

/-- The windows of both filters are backed by the pending text. -/
structure Outlook.Backed (o : Outlook) : Prop where
  openMark : Text.Backed Comments.openMark o.marks o.pending
  closeMark : Text.Backed Comments.closeMark o.marks o.pending
  keyword : Text.Backed Imports.keyword o.words o.pending

/-- Where only blank characters are pending the windows are clear. -/
theorem Outlook.Backed.clear {o : Outlook} (h : o.Backed) (hblank : o.pending.Blank) (ahead : Text) :
    Clear o.marks o.words ahead where
  openMark := h.openMark.not_straddles hblank (by decide) ahead
  closeMark := h.closeMark.not_straddles hblank (by decide) ahead
  keyword := h.keyword.not_straddles hblank (by decide) ahead

/-- A character that is pending keeps both windows backed. -/
theorem Outlook.Backed.push {o : Outlook} (h : o.Backed) (c : Char) : (o.push c).Backed :=
  ⟨h.openMark.push, h.closeMark.push, h.keyword.push⟩

/-- Behind a character of no mark the windows are backed by anything. -/
theorem backed_of_not_inMarks {o : Outlook} {c : Char} (h : inMarks c = false) (pending : Text)
    (blocks : Blocks) : Outlook.Backed { o.shown c with pending, blocks } := by
  simp only [inMarks, Bool.or_eq_false_iff, List.contains_eq_mem, decide_eq_false_iff_not] at h
  exact ⟨Text.backed_of_notMem h.1.1, Text.backed_of_notMem h.1.2, Text.backed_of_notMem h.2⟩

/-- The states that a scan may be in at a place of the text. -/
inductive Reached (p : Position) : State → Prop
  | outside {o : Outlook} : o.position = p → o.blocks.Founded → o.Backed → o.pending.Balanced →
      Reached p (outside o)
  | inLiteral {q : Char} {o : Outlook} : isQuote q = true → o.position = p → o.blocks.Founded →
      Quote.after none o.pending = some q → Reached p (inLiteral q o)
  | inComment {o : Outlook} : o.position = p → o.blocks.Founded → Reached p (inComment o)
  | inStatement {begun : Text} {q : Quote} {o : Outlook} : o.position = p → o.blocks.Founded →
      o.pending.Balanced → Reached p (inStatement begun q o)

variable {p : Position} {s s' : State} {o : Outlook} {c : Char}

/-- The scan begins outside of everything. -/
theorem reached_start : Reached {} {} := by
  refine Reached.outside (o := ⟨{}, [], {}, [], [], []⟩) rfl ?_ ?_ Text.balanced_nil
  · exact ⟨{}, rfl, Assembly.proper_start⟩
  · exact ⟨Text.backed_nil, Text.backed_nil, Text.backed_nil⟩

/-- A brace outside leaves the blocks founded and nothing pending. -/
theorem reached_brace (opens : Bool) (hplace : o.position = p) (hblocks : o.blocks.Founded)
    (hquiet : o.Quiet (if opens then '{' else '}'))
    (h : (outside o).read (if opens then '{' else '}') = .ok s') :
    Reached (p.past [if opens then '{' else '}']) s' := by
  obtain ⟨a, hb, hproper⟩ := hblocks
  rw [read_brace opens hb hproper.sound hquiet] at h
  cases ht : a.take ⟨o.pending, opens, o.position⟩ with
  | error fault =>
    rw [ht] at h
    exact absurd h (by simp [Except.map])
  | ok a' =>
    rw [ht] at h
    obtain rfl := Except.ok.inj h
    have hmark : inMarks (if opens then '{' else '}') = false := by cases opens <;> decide
    exact Reached.outside (hplace ▸ rfl) ⟨a', rfl, hproper.take ht⟩ (backed_of_not_inMarks hmark _ _)
      Text.balanced_nil

/-- One character from outside. -/
theorem reached_of_outside (hplace : o.position = p) (hblocks : o.blocks.Founded) (hbacked : o.Backed)
    (hbalanced : o.pending.Balanced) (h : (outside o).read c = .ok s') : Reached (p.past [c]) s' := by
  by_cases hopen : o.marks.remember 2 c = Comments.openMark
  · obtain rfl : '*' = c := Option.some.inj (Text.getLast?_of_remember (by decide) hopen)
    rw [read_outside_openMark hopen] at h
    obtain rfl := Except.ok.inj h
    exact Reached.inComment (hplace ▸ rfl) hblocks
  by_cases hclose : o.marks.remember 2 c = Comments.closeMark
  · obtain rfl : '/' = c := Option.some.inj (Text.getLast?_of_remember (by decide) hclose)
    rw [read_outside_closeMark hclose] at h
    exact absurd h (by simp)
  by_cases hkey : o.words.remember 7 c = Imports.keyword
  · obtain rfl : 't' = c := Option.some.inj (Text.getLast?_of_remember (by decide) hkey)
    rw [read_outside_keyword hkey] at h
    obtain rfl := Except.ok.inj h
    exact Reached.inStatement (hplace ▸ rfl) hblocks (hbalanced.dropSuffix (by decide))
  -- no window is a mark: the character decides
  have hquiet : o.Quiet c := ⟨hopen, hclose, hkey⟩
  by_cases hq : isQuote c = true
  · rw [read_outside_quote hquiet hq] at h
    obtain rfl := Except.ok.inj h
    refine Reached.inLiteral hq (hplace ▸ rfl) hblocks ?_
    show Quote.after none (o.pending ++ [c]) = some c
    rw [Quote.after_append, hbalanced, Quote.after_cons, Quote.after_nil]
    exact if_pos hq
  by_cases hbo : c = '{'
  · subst hbo
    exact reached_brace true hplace hblocks hquiet h
  by_cases hbc : c = '}'
  · subst hbc
    exact reached_brace false hplace hblocks hquiet h
  · rw [read_outside_plain hquiet (Bool.eq_false_iff.mpr hq) hbo hbc] at h
    obtain rfl := Except.ok.inj h
    refine Reached.outside (hplace ▸ rfl) hblocks (hbacked.push c) (hbalanced.append ?_)
    exact Text.balanced_of_no_quotes (List.forall_mem_singleton.mpr (Bool.eq_false_iff.mpr hq))

/-- One character from inside a literal. -/
theorem reached_of_inLiteral {q : Char} (hq : isQuote q = true) (hplace : o.position = p)
    (hblocks : o.blocks.Founded) (hopen : Quote.after none o.pending = some q)
    (h : (inLiteral q o).read c = .ok s') : Reached (p.past [c]) s' := by
  have hpending : Quote.after none (o.pending ++ [c]) = Quote.next (some q) c := by
    rw [Quote.after_append, hopen, Quote.after_cons, Quote.after_nil]
  by_cases hc : c = q
  · subst hc
    rw [read_inLiteral_end hq] at h
    obtain rfl := Except.ok.inj h
    exact Reached.outside (hplace ▸ rfl) hblocks
      (backed_of_not_inMarks (not_inMarks_of_isQuote hq) (o.pending ++ [c]) o.blocks)
      (hpending.trans (if_pos rfl))
  · rw [read_inLiteral_inside hc] at h
    obtain rfl := Except.ok.inj h
    exact Reached.inLiteral hq (hplace ▸ rfl) hblocks (hpending.trans (if_neg hc))

/-- One character from inside a comment. -/
theorem reached_of_inComment (hplace : o.position = p) (hblocks : o.blocks.Founded)
    (h : (inComment o).read c = .ok s') : Reached (p.past [c]) s' := by
  by_cases hclose : o.marks.remember 2 c = Comments.closeMark
  · obtain rfl : '/' = c := Option.some.inj (Text.getLast?_of_remember (by decide) hclose)
    rw [read_inComment_end hclose] at h
    obtain rfl := Except.ok.inj h
    -- the window of marks was emptied, and the slash is no character of the keyword
    exact Reached.outside (hplace ▸ rfl) hblocks
      ⟨Text.backed_nil, Text.backed_nil, Text.backed_of_notMem (by decide)⟩ Text.balanced_nil
  · rw [read_inComment_inside hclose] at h
    obtain rfl := Except.ok.inj h
    exact Reached.inComment (hplace ▸ rfl) hblocks

/-- One character from inside a statement. -/
theorem reached_of_inStatement {begun : Text} {q : Quote} (hplace : o.position = p)
    (hblocks : o.blocks.Founded) (hbalanced : o.pending.Balanced)
    (h : (inStatement begun q o).read c = .ok s') : Reached (p.past [c]) s' := by
  by_cases hbroken : c = '\n' ∨ o.words.remember 7 c = Imports.keyword
  · rw [read_inStatement_broken hbroken] at h
    exact absurd h (by simp)
  obtain ⟨hn, hk⟩ := not_or.mp hbroken
  by_cases hend : c = ';' ∧ q.next c = none
  · obtain ⟨rfl, hq⟩ := hend
    rw [read_inStatement_end hq] at h
    obtain rfl := Except.ok.inj h
    -- the window of words was emptied, and no mark has a semicolon
    exact Reached.outside (by rw [← hplace]; rfl) hblocks
      ⟨Text.backed_of_notMem (by decide), Text.backed_of_notMem (by decide), Text.backed_nil⟩ hbalanced
  · rw [read_inStatement_inside hk hn hend] at h
    obtain rfl := Except.ok.inj h
    exact Reached.inStatement (by rw [← hplace]; rfl) hblocks hbalanced

/-- One character leads from a reached state to a reached state. -/
theorem Reached.read (h : Reached p s) (hread : s.read c = .ok s') : Reached (p.past [c]) s' := by
  cases h with
  | outside hplace hblocks hbacked hbalanced =>
    exact reached_of_outside hplace hblocks hbacked hbalanced hread
  | inLiteral hq hplace hblocks hopen => exact reached_of_inLiteral hq hplace hblocks hopen hread
  | inComment hplace hblocks => exact reached_of_inComment hplace hblocks hread
  | inStatement hplace hblocks hbalanced => exact reached_of_inStatement hplace hblocks hbalanced hread

/-- A text leads from a reached state to a reached state. -/
theorem Reached.run {input : Text} : ∀ {t : Text} {p : Position} {s s' : State}, Reached p s →
    State.run input s t = .ok s' → Reached (p.past t) s'
  | [], p, s, s', h, hrun => by
    obtain rfl : s = s' := by simpa [State.run] using hrun
    rwa [Position.past_nil]
  | c :: t, p, s, s', h, hrun => by
    obtain ⟨next, hread, hrest⟩ := run_cons_eq_ok hrun
    have hnext := (h.read hread).run hrest
    rwa [Position.past_past] at hnext

/-- A state in which no filter and no literal is open is outside. -/
theorem Reached.eq_outside (h : Reached p s) (hidle : s.filtering = false)
    (hquote : s.cursor.quote = none) : ∃ o : Outlook, s = State.outside o ∧ o.position = p ∧
      o.blocks.Founded ∧ o.Backed := by
  cases h with
  | outside hplace hblocks hbacked _ => exact ⟨_, rfl, hplace, hblocks, hbacked⟩
  | inLiteral hq hplace hblocks _ => exact absurd hquote (by simp [State.inLiteral, Outlook.cursor])
  | inComment hplace hblocks => exact absurd hidle (by simp [State.inComment, filtering])
  | inStatement hplace hblocks _ =>
    exact absurd hidle (by simp [State.inStatement, State.outside, filtering, Imports.active])

/-- A state in which no comment and no literal is open is outside, or between the literals of a
statement. -/
theorem Reached.outside_or_inStatement (h : Reached p s) (hcomment : s.comments.active = false)
    (hquote : s.cursor.quote = none) :
    (∃ o : Outlook, s = State.outside o ∧ o.blocks.Founded ∧ o.pending.Balanced) ∨
      ∃ begun o, s = State.inStatement begun none o ∧ o.blocks.Founded := by
  cases h with
  | outside hplace hblocks hbacked hbalanced => exact .inl ⟨_, rfl, hblocks, hbalanced⟩
  | inLiteral hq hplace hblocks _ => exact absurd hquote (by simp [State.inLiteral, Outlook.cursor])
  | inComment hplace hblocks => exact absurd hcomment (by simp [State.inComment])
  | @inStatement begun q o hplace hblocks _ =>
    obtain rfl : q = none := hquote
    exact .inr ⟨begun, o, rfl, hblocks⟩

/-! ## Going on

  A text may be read in two parts at every place, and the second part by the reader if nothing is under
  way at that place. -/

variable {input input' u v : Text}

/-- A scan that finds no fault does not look at the text that its failures would quote. -/
theorem run_of_input : ∀ {t : Text} {s s' : State}, run input s t = .ok s' → run input' s t = .ok s'
  | [], _, _, h => h
  | c :: t, s, s', h => by
    obtain ⟨next, hread, hrest⟩ := run_cons_eq_ok h
    rw [run_cons_of_ok hread]
    exact run_of_input hrest

/-- A run of two texts is the run of the second from where the first one ends. -/
theorem run_append : ∀ {t : Text} {s s' : State} (rest : Text), run input s t = .ok s' →
    run input s (t ++ rest) = run input s' rest
  | [], s, s', rest, h => by
    obtain rfl : s = s' := by simpa [run] using h
    rfl
  | c :: t, s, s', rest, h => by
    obtain ⟨next, hread, hrest⟩ := run_cons_eq_ok h
    rw [List.cons_append, run_cons_of_ok hread, run_append rest hrest]

/-- The parse of a text in two parts goes on from the state behind the first. -/
theorem parse_eq_bind (hrun : run u {} u = .ok s) (v : Text) :
    Node.parse (u ++ v) = (run (u ++ v) s v).bind (finish (u ++ v)) :=
  congrArg (·.bind (finish (u ++ v))) (run_append v (run_of_input hrun))

/-- The reader may begin behind a text where the scan of it is outside and nothing straddles. -/
theorem parse_append_of_clear {a : Assembly} (hrun : run u {} u = .ok (outside o))
    (hb : o.blocks = a.blocks) (hsound : a.Sound) (hclear : Clear o.marks o.words v) :
    Node.parse (u ++ v) =
      ((Reading.of o.position o.pending (Lexeme.all v)).after o.records).answer (u ++ v) a := by
  rw [parse_eq_bind hrun]
  exact agrees (u ++ v) v o a hb hsound hclear

/-- Inside a statement the reader may go on behind its end. -/
theorem parse_append_of_closed {a : Assembly} {begun body rest : Text} {q : Quote}
    (hrun : run u {} u = .ok (inStatement begun q o)) (hb : o.blocks = a.blocks) (hsound : a.Sound)
    (hkeyword : ¬ Text.Straddles Imports.keyword o.words v) (h : StatementEnd.of q v = .closed body rest) :
    Node.parse (u ++ v) = ((Reading.of (o.position.past body) o.pending (Lexeme.all rest)).after
      (o.records ++ [⟨begun ++ body, (o.position.past body).line⟩])).answer (u ++ v) a := by
  obtain ⟨marks, words, hclear, hrest⟩ :=
    run_inStatement_of_closed (u ++ v) begun (o := o) h hkeyword
  rw [parse_eq_bind hrun, hrest]
  exact agrees (u ++ v) rest { o with
    position := o.position.past body
    records := o.records ++ [⟨begun ++ body, (o.position.past body).line⟩]
    marks, words } a hb hsound (hclear rest)

/-- A statement that is not closed is a fault. -/
theorem parse_append_of_not_closed {begun : Text} {q : Quote}
    (hrun : run u {} u = .ok (inStatement begun q o))
    (hkeyword : ¬ Text.Straddles Imports.keyword o.words v)
    (h : ∀ body rest, StatementEnd.of q v ≠ .closed body rest) :
    ∃ failure, Node.parse (u ++ v) = .error failure := by
  rw [parse_eq_bind hrun]
  cases hend : StatementEnd.of q v with
  | closed body rest => exact absurd hend (h body rest)
  | broken before d => exact ⟨_, by rw [run_inStatement_of_broken hend hkeyword]; rfl⟩
  | unfinished =>
    obtain ⟨begun', q', o', -, -, hrest⟩ := run_inStatement_of_unfinished (u ++ v) begun hend hkeyword
    rw [hrest]
    show ∃ failure, finish (u ++ v) (inStatement begun' q' o') = .error failure
    rw [finish]
    split
    · exact ⟨_, rfl⟩
    · exact ⟨_, rfl⟩

end Scan.State

end StyleFold
